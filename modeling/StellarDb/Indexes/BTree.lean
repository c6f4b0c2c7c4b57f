import StellarDb.Schema

/-!
# StellarDb — BTree indexes (`storage/indexes/btree.rs`, `storage/indexes/manager.rs`)

An index keyspace holds one key `[value₁]…[0xFF][doc_key]` for each document that has all
indexed fields. A write removes the key of the old version and then adds the key of the new
one (`updateInTx`); the manager does so for every BTree index of the collection
(`updateBTreeInTx`), in the keyspace named `idx_{collection}_{index}`.

The document key is what stands behind the last `0xFF` (`buildIndexKey_docKey`), so two
documents never share an index key and the entries of one document can be reasoned about
alone; `getElem?_updateInTx` is the exact content of an index keyspace after a write.
-/

namespace StellarDb

open Keyspaces

section BTree

variable [External]

omit [External] in
/-- The value of one indexed field; `id` is the whole document id. -/
def indexFieldValue (doc : Document) (field : String) : Option Value :=
  if field = "id" then some (.string doc.id)
  else if '.' ∈ field.toList then resolveFieldValue doc.fields field
  else doc.fields.lookup field

/-- The values of the indexed fields; `none` as soon as one is missing. -/
def indexFieldValues (doc : Document) : List String → Option (List Value)
  | [] => some []
  | field :: fields =>
    match indexFieldValue doc field, indexFieldValues doc fields with
    | some v, some vs => some (v :: vs)
    | _, _ => none

/-- Index key of a document, `none` if a field is missing. -/
def buildIndexKey (doc : Document) (fields : List String) : Option Bytes :=
  (indexFieldValues doc fields).map fun values => encodeIndexKey values doc.key

/-- Remove the old entry, then add the new one. -/
def updateInTx (fields : List String) (oldDoc newDoc : Option Document) : List (Write Unit) :=
  ((oldDoc.bind (buildIndexKey · fields)).map fun k => (k, none)).toList ++
    ((newDoc.bind (buildIndexKey · fields)).map fun k => (k, some ())).toList

/-- Physical name of an index keyspace. -/
def indexKeyspaceName (collection indexName : String) : String :=
  "idx_" ++ collection ++ "_" ++ indexName

/-- Update every BTree index of the collection. -/
def updateBTreeInTx (indexes : List IndexDef) (collection : String)
    (oldDoc newDoc : Option Document) : List (String × Write Unit) :=
  (indexes.filter (·.indexType = .btree)).flatMap fun index =>
    (updateInTx index.fields oldDoc newDoc).map
      (Prod.mk (indexKeyspaceName collection index.name))

/-! ## Keys of different documents differ -/

omit [External] in
/-- The part behind the last `0xFF` is determined. -/
theorem append_ff_inj {xs ys zs ws : Bytes} (h : xs ++ 0xFF :: ys = zs ++ 0xFF :: ws)
    (hy : (0xFF : UInt8) ∉ ys) (hw : (0xFF : UInt8) ∉ ws) : ys = ws := by
  have htake : ∀ as bs : Bytes, (0xFF : UInt8) ∉ bs →
      (as ++ 0xFF :: bs).reverse.takeWhile (· ≠ 0xFF) = bs.reverse := by
    intro as bs hbs
    have hall : ∀ b ∈ bs.reverse, decide (b ≠ 0xFF) = true := by
      intro b hb
      have : b ≠ 0xFF := by
        rintro rfl
        exact hbs (List.mem_reverse.mp hb)
      simpa using this
    rw [List.reverse_append, List.reverse_cons, List.append_assoc,
      List.takeWhile_append_of_pos hall]
    simp
  have hrev := htake zs ws hw
  rw [← h, htake xs ys hy] at hrev
  exact List.reverse_injective hrev

theorem buildIndexKey_docKey {d d' : Document} {fields fields' : List String} {k : Bytes}
    (h : buildIndexKey d fields = some k) (h' : buildIndexKey d' fields' = some k) :
    d.keyBytes = d'.keyBytes := by
  unfold buildIndexKey at h h'
  obtain ⟨vs, -, rfl⟩ := Option.map_eq_some_iff.mp h
  obtain ⟨vs', -, heq⟩ := Option.map_eq_some_iff.mp h'
  exact append_ff_inj heq.symm (ff_notMem_utf8 _) (ff_notMem_utf8 _)

/-! ## Effect of a write -/

/-- The entries of an index keyspace after one version of a document replaced another. -/
theorem getElem?_updateInTx (ks : Keyspace Unit) (fields : List String)
    (oldDoc newDoc : Option Document) (k : Bytes) :
    (ks.applyWrites (updateInTx fields oldDoc newDoc))[k]? =
      if newDoc.bind (buildIndexKey · fields) = some k then some ()
      else if oldDoc.bind (buildIndexKey · fields) = some k then none
      else ks[k]? := by
  unfold updateInTx
  rw [Keyspace.applyWrites_append]
  cases oldDoc.bind (buildIndexKey · fields) with
  | none =>
    cases newDoc.bind (buildIndexKey · fields) with
    | none => simp
    | some kn => simp [Keyspace.getElem?_write]
  | some ko =>
    cases newDoc.bind (buildIndexKey · fields) with
    | none => simp [Keyspace.getElem?_write]
    | some kn => simp [Keyspace.getElem?_write]

/-- The writes of a collection's BTree indexes that reach the keyspace `n`. -/
theorem writesTo_updateBTreeInTx (indexes : List IndexDef) (collection : String)
    (oldDoc newDoc : Option Document) (n : String) :
    writesTo n (updateBTreeInTx indexes collection oldDoc newDoc) =
      ((indexes.filter (·.indexType = .btree)).filter
        fun i => indexKeyspaceName collection i.name = n).flatMap
        fun i => updateInTx i.fields oldDoc newDoc := by
  unfold updateBTreeInTx writesTo
  induction indexes.filter (·.indexType = .btree) with
  | nil => rfl
  | cons i idxs ih =>
    rw [List.flatMap_cons, List.filterMap_append, ih, List.filterMap_map]
    by_cases hn : indexKeyspaceName collection i.name = n
    · simp [hn]
    · simp [hn]

end BTree

end StellarDb
