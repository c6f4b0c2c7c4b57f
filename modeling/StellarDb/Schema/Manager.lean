import StellarDb.Schema.Collection
import StellarDb.Lib.Keyspace
import Mathlib.Data.Finset.Insert

/-!
# StellarDb — the schema manager (`storage/schema/manager.rs`, `schema/registry.rs`)

The registry holds the schemas in memory; the metadata keyspace holds them on disk, under
`coll\x00` and the name of the collection. A collection without a schema has an empty entry
there, under the same key.
-/

namespace StellarDb

open Keyspaces

/-! ## The registry -/

/-- The schemas by name, and the names of all collections, with or without a schema. -/
structure SchemaRegistry where
  schemas : String → Option CollectionSchema
  knownCollections : Finset String
  named : ∀ c schema, schemas c = some schema → schema.name = c
  known : ∀ c schema, schemas c = some schema → c ∈ knownCollections

namespace SchemaRegistry

def new : SchemaRegistry where
  schemas := fun _ => none
  knownCollections := ∅
  named := nofun
  known := nofun

def get (r : SchemaRegistry) (c : String) : Option CollectionSchema := r.schemas c

/-- `contains`: has a schema. -/
def contains (r : SchemaRegistry) (c : String) : Bool := (r.schemas c).isSome

/-- `collection_exists`: is known, with or without a schema. -/
def collectionExists (r : SchemaRegistry) (c : String) : Bool := c ∈ r.knownCollections

def register (r : SchemaRegistry) (schema : CollectionSchema) : SchemaRegistry where
  schemas := Function.update r.schemas schema.name (some schema)
  knownCollections := insert schema.name r.knownCollections
  named := by
    intro c s h
    by_cases hc : c = schema.name
    · subst hc
      rw [Function.update_self] at h
      rw [← Option.some.inj h]
    · rw [Function.update_of_ne hc] at h
      exact r.named c s h
  known := by
    intro c s h
    by_cases hc : c = schema.name
    · exact hc ▸ Finset.mem_insert_self _ _
    · rw [Function.update_of_ne hc] at h
      exact Finset.mem_insert_of_mem (r.known c s h)

def registerSchemaless (r : SchemaRegistry) (c : String) : SchemaRegistry where
  schemas := r.schemas
  knownCollections := insert c r.knownCollections
  named := r.named
  known := fun c' s h => Finset.mem_insert_of_mem (r.known c' s h)

/-- The registered schema of `c`, changed by `f`; without one, or when `f` does not change it,
nothing happens. -/
def change (r : SchemaRegistry) (c : String)
    (f : List IndexDefinition → Option (List IndexDefinition)) :
    SchemaRegistry × Option CollectionSchema :=
  match r.get c with
  | none => (r, none)
  | some schema =>
    match f schema.indexes with
    | none => (r, none)
    | some indexes =>
      let schema := { schema with indexes := indexes }
      (r.register schema, some schema)

theorem change_cases (r : SchemaRegistry) (c : String)
    (f : List IndexDefinition → Option (List IndexDefinition)) :
    r.change c f = (r, none) ∨
      ∃ schema, schema.name = c ∧ r.change c f = (r.register schema, some schema) := by
  unfold change
  cases hget : r.get c with
  | none => exact Or.inl rfl
  | some schema =>
    cases hf : f schema.indexes with
    | none =>
      refine Or.inl ?_
      simp only [hf]
    | some indexes =>
      refine Or.inr ⟨{ schema with indexes := indexes }, r.named c schema hget, ?_⟩
      simp only [hf]

/-- Under the lock of the schemas: add the index and copy the schema. -/
def addIndex (r : SchemaRegistry) (c : String) (index : IndexDefinition) :
    SchemaRegistry × Option CollectionSchema :=
  r.change c fun indexes =>
    if indexes.any (·.fields = index.fields) then none else some (indexes ++ [index])

def removeIndex (r : SchemaRegistry) (c : String) (fields : List String) :
    SchemaRegistry × Option CollectionSchema :=
  r.change c fun indexes =>
    let kept := removeIndexFrom indexes fields
    if kept.length < indexes.length then some kept else none

end SchemaRegistry

/-! ## Metadata -/

/-- `COLLECTION_PREFIX` -/
def collectionPrefix : Bytes := utf8 "coll" ++ [0x00]

def collectionKey (name : String) : Bytes := collectionPrefix ++ utf8 name

theorem collectionKey_injective : Function.Injective collectionKey :=
  fun _ _ h => utf8_injective (List.append_cancel_left h)

def collectionNameFromKey (key : Bytes) : Option String :=
  if collectionPrefix.isPrefixOf key then fromUtf8 (key.drop collectionPrefix.length) else none

@[simp] theorem collectionNameFromKey_collectionKey (name : String) :
    collectionNameFromKey (collectionKey name) = some name := by
  unfold collectionNameFromKey collectionKey
  rw [if_pos (List.isPrefixOf_iff_prefix.mpr (List.prefix_append _ _)), List.drop_left]
  exact fromUtf8_utf8 name

/-- The entries of the metadata keyspace under `coll\x00`, decoded (an empty one is `none`), and
the registry. -/
structure SchemaManager where
  metadata : Keyspace (Option CollectionSchema)
  registry : SchemaRegistry
  filed : ∀ k schema, metadata[k]? = some (some schema) → k = collectionKey schema.name

namespace SchemaManager

def empty : SchemaManager where
  metadata := ∅
  registry := .new
  filed := by simp

def get (m : SchemaManager) (c : String) : Option CollectionSchema := m.registry.get c

/-- What the entry of a collection decodes to. -/
def stored (m : SchemaManager) (c : String) : Option CollectionSchema :=
  m.metadata[collectionKey c]?.join

/-- `meta.insert` of a schema -/
def insertSchema (m : SchemaManager) (schema : CollectionSchema) : SchemaManager where
  metadata := m.metadata.insert (collectionKey schema.name) (some schema)
  registry := m.registry
  filed := by
    intro k s h
    rw [getElem?_insert_eq] at h
    split at h
    · next hk => rw [← hk, Option.some.inj (Option.some.inj h)]
    · exact m.filed k s h

/-- `meta.insert` of the empty entry -/
def insertMarker (m : SchemaManager) (c : String) : SchemaManager where
  metadata := m.metadata.insert (collectionKey c) none
  registry := m.registry
  filed := by
    intro k s h
    rw [getElem?_insert_eq] at h
    split at h
    · cases h
    · exact m.filed k s h

def register (m : SchemaManager) (schema : CollectionSchema) : SchemaManager :=
  { m with registry := m.registry.register schema }

/-- The end of `save_collection_meta`. -/
def markKnown (m : SchemaManager) (c : String) : SchemaManager :=
  if m.registry.contains c then m else { m with registry := m.registry.registerSchemaless c }

/-! ## Operations -/

def save (m : SchemaManager) (schema : CollectionSchema) : SchemaManager :=
  (m.insertSchema schema).register schema

/-- One entry of `load_all`. -/
def loadEntry (r : SchemaRegistry) (e : Bytes × Option CollectionSchema) : SchemaRegistry :=
  match collectionNameFromKey e.1, e.2 with
  | none, _ => r
  | some _, some schema => r.register schema
  | some name, none => r.registerSchemaless name

/-- `load_all` -/
def loadAll (m : SchemaManager) : SchemaManager :=
  { m with registry := m.metadata.toList.foldl loadEntry m.registry }

/-- What is left of a manager after a restart. -/
def restart (m : SchemaManager) : SchemaManager := ({ m with registry := .new }).loadAll

/-! ## Facts about single writes -/

theorem stored_insertSchema (m : SchemaManager) (schema : CollectionSchema) (c : String) :
    (m.insertSchema schema).stored c = if schema.name = c then some schema else m.stored c := by
  unfold stored insertSchema
  rw [getElem?_insert_eq]
  by_cases h : schema.name = c
  · rw [if_pos h, if_pos (congrArg collectionKey h), Option.join_some]
  · rw [if_neg h, if_neg fun hk => h (collectionKey_injective hk)]

theorem stored_insertMarker (m : SchemaManager) (c' c : String) :
    (m.insertMarker c').stored c = if c' = c then none else m.stored c := by
  unfold stored insertMarker
  rw [getElem?_insert_eq]
  by_cases h : c' = c
  · rw [if_pos h, if_pos (congrArg collectionKey h), Option.join_some]
  · rw [if_neg h, if_neg fun hk => h (collectionKey_injective hk)]

theorem get_register (m : SchemaManager) (schema : CollectionSchema) (c : String) :
    (m.register schema).get c = if schema.name = c then some schema else m.get c := by
  show Function.update m.registry.schemas schema.name (some schema) c = _
  by_cases h : schema.name = c
  · rw [if_pos h, h, Function.update_self]
  · rw [if_neg h, Function.update_of_ne (Ne.symm h)]
    rfl

@[simp] theorem stored_register (m : SchemaManager) (schema : CollectionSchema) (c : String) :
    (m.register schema).stored c = m.stored c := rfl

@[simp] theorem get_insertSchema (m : SchemaManager) (schema : CollectionSchema) (c : String) :
    (m.insertSchema schema).get c = m.get c := rfl

@[simp] theorem get_insertMarker (m : SchemaManager) (c' c : String) :
    (m.insertMarker c').get c = m.get c := rfl

@[simp] theorem stored_markKnown (m : SchemaManager) (c' c : String) :
    (m.markKnown c').stored c = m.stored c := by
  unfold markKnown
  split <;> rfl

@[simp] theorem get_markKnown (m : SchemaManager) (c' c : String) :
    (m.markKnown c').get c = m.get c := by
  unfold markKnown
  split <;> rfl

/-! ## Restarts -/

theorem get_loadEntry (r : SchemaRegistry) {e : Bytes × Option CollectionSchema} {c : String}
    (h : ∀ schema, e.2 = some schema → schema.name ≠ c) : (loadEntry r e).get c = r.get c := by
  unfold loadEntry
  split
  · rfl
  · next schema _ hsome => exact Function.update_of_ne (Ne.symm (h schema hsome)) _ _
  · rfl

theorem get_loadEntries_of_ne {l : List (Bytes × Option CollectionSchema)} {c : String}
    (h : ∀ e ∈ l, ∀ schema, e.2 = some schema → schema.name ≠ c) (r : SchemaRegistry) :
    (l.foldl loadEntry r).get c = r.get c := by
  induction l generalizing r with
  | nil => rfl
  | cons e l ih =>
    rw [List.foldl_cons, ih fun e' he' => h e' (List.mem_cons_of_mem _ he')]
    exact get_loadEntry r (h e List.mem_cons_self)

/-- Of entries filed under their own names, the one of `c` is registered. -/
theorem get_loadEntries_of_mem {l : List (Bytes × Option CollectionSchema)} {c : String}
    {schema : CollectionSchema} (hfiled : ∀ e ∈ l, ∀ s, e.2 = some s → e.1 = collectionKey s.name)
    (hkeys : (l.map (·.1)).Nodup) (hmem : (collectionKey c, some schema) ∈ l)
    (r : SchemaRegistry) : (l.foldl loadEntry r).get c = some schema := by
  induction l generalizing r with
  | nil => exact absurd hmem List.not_mem_nil
  | cons e l ih =>
    rw [List.map_cons, List.nodup_cons] at hkeys
    have hfiled' := fun e' he' => hfiled e' (List.mem_cons_of_mem _ he')
    rcases List.mem_cons.mp hmem with rfl | hmem'
    · have hname : schema.name = c :=
        (collectionKey_injective (hfiled _ List.mem_cons_self schema rfl)).symm
      -- no later entry has the key of `c`, so none has a schema of that name
      have hlater : ∀ e' ∈ l, ∀ s, e'.2 = some s → s.name ≠ c := by
        intro e' he' s hs hc
        have hkey : e'.1 = collectionKey c := hc ▸ hfiled' e' he' s hs
        exact hkeys.1 (List.mem_map.mpr ⟨e', he', hkey⟩)
      rw [List.foldl_cons, get_loadEntries_of_ne hlater]
      unfold loadEntry
      rw [collectionNameFromKey_collectionKey]
      show Function.update r.schemas schema.name (some schema) c = some schema
      rw [hname, Function.update_self]
    · exact ih hfiled' hkeys.2 hmem' (loadEntry r e)

/-- After a restart the registry has what the metadata decodes to. -/
theorem get_restart (m : SchemaManager) (c : String) : m.restart.get c = m.stored c := by
  have hfiled : ∀ e ∈ m.metadata.toList, ∀ s, e.2 = some s → e.1 = collectionKey s.name := by
    intro e he s hs
    apply m.filed e.1 s
    rw [← hs]
    exact Std.ExtTreeMap.mem_toList_iff_getElem?_eq_some.mp he
  show (m.metadata.toList.foldl loadEntry .new).get c = m.stored c
  cases hstored : m.stored c with
  | some schema =>
    have hmem : (collectionKey c, some schema) ∈ m.metadata.toList :=
      Std.ExtTreeMap.mem_toList_iff_getElem?_eq_some.mpr (Option.join_eq_some_iff.mp hstored)
    refine get_loadEntries_of_mem hfiled ?_ hmem .new
    rw [Std.ExtTreeMap.map_fst_toList_eq_keys]
    exact Std.ExtTreeMap.nodup_keys
  | none =>
    refine get_loadEntries_of_ne ?_ .new
    intro e he s hs hc
    have hkey := Std.ExtTreeMap.mem_toList_iff_getElem?_eq_some.mp he
    rw [hfiled e he s hs, hs, hc] at hkey
    rw [stored, hkey] at hstored
    cases hstored

end SchemaManager

end StellarDb
