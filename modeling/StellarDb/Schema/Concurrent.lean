import StellarDb.Schema.Manager
import StellarDb.Lib.Mirror
import StellarDb.Lib.Run

/-!
# StellarDb — concurrent schema changes (`storage/schema/manager.rs`, `storage/database.rs`)

`get_or_create_collection`, `save_schema`, `add_index` and `remove_index` change the registry and
the metadata in separate steps, each under a lock of its own, so the steps of several calls may
come in any order. Seen from one collection the registry and the metadata are the two places of a
mirror: `save` writes the metadata first and owes the schema to the registry, `add_index` and
`remove_index` change the registry first and owe their copy to the metadata, and the marker of a
collection without a schema goes to the metadata alone.
-/

namespace StellarDb

open Keyspaces Mirroring

/-! ## Calls -/

inductive SchemaCall where
  | getOrCreateCollection (name : String)
  | saveSchema (schema : CollectionSchema)
  | addIndex (collection : String) (index : IndexDefinition)
  | removeIndex (collection : String) (fields : List String)

/-- Where a call is. Up to `knowing` it is in `get_or_create_collection`, which `save_schema`
leaves with a schema to save; `saving` and `registering` are `save`, which `ensure_schema` leaves
with an index to add. -/
inductive SchemaPoint where
  | checking (name : String) (next : Option CollectionSchema)
  | creating (name : String) (next : Option CollectionSchema)
  | marking (name : String) (next : Option CollectionSchema)
  | knowing (name : String) (next : Option CollectionSchema)
  | saving (schema : CollectionSchema) (next : Option IndexDefinition)
  | registering (schema : CollectionSchema) (next : Option IndexDefinition)
  | ensuring (collection : String) (index : IndexDefinition)
  | adding (collection : String) (index : IndexDefinition)
  | removing (collection : String) (fields : List String)
  | writing (schema : CollectionSchema)
  /-- A call that answers `()` answers `true` here. -/
  | returned (answer : Except StorageError Bool)

namespace SchemaPoint

def start : SchemaCall → SchemaPoint
  | .getOrCreateCollection name => .checking name none
  | .saveSchema schema => .checking schema.name (some schema)
  | .addIndex collection index => .ensuring collection index
  | .removeIndex collection fields => .removing collection fields

/-- After `get_or_create_collection`. -/
def created : Option CollectionSchema → SchemaPoint
  | none => .returned (.ok true)
  | some schema => .saving schema none

/-- After `save`. -/
def saved (schema : CollectionSchema) : Option IndexDefinition → SchemaPoint
  | none => .returned (.ok true)
  | some index => .adding schema.name index

/-- After the registry has been changed, or not. -/
def changed : Option CollectionSchema → SchemaPoint
  | none => .returned (.ok false)
  | some schema => .writing schema

def isReturned : SchemaPoint → Bool
  | .returned _ => true
  | _ => false

end SchemaPoint

structure SchemaSystem where
  manager : SchemaManager
  /-- The collections whose keyspaces are open. -/
  keyspaces : Finset String
  calls : Nat → Option SchemaPoint

namespace SchemaSystem

def goto (s : SchemaSystem) (i : Nat) (p : SchemaPoint) : SchemaSystem :=
  { s with calls := Function.update s.calls i (some p) }

/-- The next step of a call. -/
def move (s : SchemaSystem) (i : Nat) : SchemaPoint → SchemaSystem
  | .checking name next =>
    if name ∈ s.keyspaces then s.goto i (.created next)
    else match validateName "collection" name with
    | .error e => s.goto i (.returned (.error e))
    | .ok () => s.goto i (.creating name next)
  | .creating name next =>
    ({ s with keyspaces := insert name s.keyspaces } : SchemaSystem).goto i (.marking name next)
  | .marking name next =>
    ({ s with manager := s.manager.insertMarker name } : SchemaSystem).goto i (.knowing name next)
  | .knowing name next =>
    ({ s with manager := s.manager.markKnown name } : SchemaSystem).goto i (.created next)
  | .saving schema next =>
    ({ s with manager := s.manager.insertSchema schema } : SchemaSystem).goto i
      (.registering schema next)
  | .registering schema next =>
    ({ s with manager := s.manager.register schema } : SchemaSystem).goto i (.saved schema next)
  | .ensuring collection index =>
    match s.manager.get collection with
    | some _ => s.goto i (.adding collection index)
    | none => s.goto i (.saving (.flexible collection) (some index))
  | .adding collection index =>
    let r := s.manager.registry.addIndex collection index
    ({ s with manager := { s.manager with registry := r.1 } } : SchemaSystem).goto i (.changed r.2)
  | .removing collection fields =>
    let r := s.manager.registry.removeIndex collection fields
    ({ s with manager := { s.manager with registry := r.1 } } : SchemaSystem).goto i (.changed r.2)
  | .writing schema =>
    ({ s with manager := s.manager.insertSchema schema } : SchemaSystem).goto i
      (.returned (.ok true))
  | .returned _ => s

end SchemaSystem

inductive SchemaAct where
  | call (i : Nat) (call : SchemaCall)
  | move (i : Nat)

namespace SchemaSystem

/-- A call begins under a number of its own. -/
def step (s : SchemaSystem) : SchemaAct → SchemaSystem
  | .call i call =>
    match s.calls i with
    | none => s.goto i (.start call)
    | some _ => s
  | .move i =>
    match s.calls i with
    | none => s
    | some p => s.move i p

def run (s : SchemaSystem) (acts : List SchemaAct) : SchemaSystem := acts.foldl step s

/-- Every call that began has returned. -/
def Quiet (s : SchemaSystem) : Prop := ∀ i p, s.calls i = some p → p.isReturned = true

/-- The metadata of `c` decodes to the schema in the registry. -/
def KeepsUp (s : SchemaSystem) (c : String) : Prop := s.manager.stored c = s.manager.get c

theorem step_move (s : SchemaSystem) (i : Nat) {p : SchemaPoint} (h : s.calls i = some p) :
    s.step (.move i) = s.move i p := by
  simp only [step, h]

end SchemaSystem

/-! ## The registry and the metadata as a mirror -/

/-- What a call owes of the schema of `c`. -/
def SchemaPoint.owed (c : String) : SchemaPoint → Option (Side × Option CollectionSchema)
  | .registering schema _ => if schema.name = c then some (.front, some schema) else none
  | .writing schema => if schema.name = c then some (.back, some schema) else none
  | _ => none

namespace SchemaSystem

/-- The registry in front, the metadata behind. -/
def mirror (s : SchemaSystem) (c : String) : Mirror Nat (Option CollectionSchema) where
  value
    | .front => s.manager.get c
    | .back => s.manager.stored c
  owed i := (s.calls i).bind (SchemaPoint.owed c)

/-- What the next step of a call does to the mirror of `c`. -/
def mirrorAct (s : SchemaSystem) (c : String) (i : Nat) :
    SchemaPoint → Option (Act Nat (Option CollectionSchema))
  | .marking name _ => if name = c then some (.overwrite .back none) else none
  | .saving schema _ => if schema.name = c then some (.first i .back (some schema)) else none
  | .registering schema _ => if schema.name = c then some (.second i) else none
  | .writing schema => if schema.name = c then some (.second i) else none
  | .adding name index =>
    if name = c then
      (s.manager.registry.addIndex name index).2.map fun schema => .first i .front (some schema)
    else none
  | .removing name fields =>
    if name = c then
      (s.manager.registry.removeIndex name fields).2.map fun schema => .first i .front (some schema)
    else none
  | _ => none

/-- `mirrorAct`, done. -/
def mirrored (s : SchemaSystem) (c : String) (i : Nat) (p : SchemaPoint) :
    Mirror Nat (Option CollectionSchema) :=
  (s.mirrorAct c i p).elim (s.mirror c) (s.mirror c).step

variable {s : SchemaSystem} {c : String} {i : Nat}

theorem mirror_goto (s : SchemaSystem) (c : String) (i : Nat) (p : SchemaPoint) :
    (s.goto i p).mirror c = (s.mirror c).owe i (p.owed c) := by
  refine Mirror.ext (funext fun side => by cases side <;> rfl) (funext fun j => ?_)
  show (Function.update s.calls i (some p) j).bind (SchemaPoint.owed c) =
    Function.update (s.mirror c).owed i (p.owed c) j
  by_cases hj : j = i
  · subst hj
    rw [Function.update_self, Function.update_self]
    rfl
  · rw [Function.update_of_ne hj, Function.update_of_ne hj]
    rfl

theorem mirror_owed {p : SchemaPoint} (h : s.calls i = some p) :
    (s.mirror c).owed i = p.owed c := by
  show (s.calls i).bind _ = _
  rw [h]
  rfl

/-- A step without a debt before and after. -/
theorem mirror_goto_same {p q : SchemaPoint} (h : s.calls i = some p) (howed : q.owed c = p.owed c) :
    (s.goto i q).mirror c = s.mirror c := by
  rw [mirror_goto, howed, ← mirror_owed h, Mirror.owe_self]

theorem mirror_insertSchema (s : SchemaSystem) (c : String) (schema : CollectionSchema) :
    ({ s with manager := s.manager.insertSchema schema } : SchemaSystem).mirror c =
      if schema.name = c then (s.mirror c).put .back (some schema) else s.mirror c := by
  by_cases h : schema.name = c
  · rw [if_pos h]
    refine Mirror.ext (funext fun side => ?_) rfl
    cases side with
    | front => rfl
    | back => exact (SchemaManager.stored_insertSchema ..).trans (if_pos h)
  · rw [if_neg h]
    refine Mirror.ext (funext fun side => ?_) rfl
    cases side with
    | front => rfl
    | back => exact (SchemaManager.stored_insertSchema ..).trans (if_neg h)

theorem mirror_insertMarker (s : SchemaSystem) (c name : String) :
    ({ s with manager := s.manager.insertMarker name } : SchemaSystem).mirror c =
      if name = c then (s.mirror c).put .back none else s.mirror c := by
  by_cases h : name = c
  · rw [if_pos h]
    refine Mirror.ext (funext fun side => ?_) rfl
    cases side with
    | front => rfl
    | back => exact (SchemaManager.stored_insertMarker ..).trans (if_pos h)
  · rw [if_neg h]
    refine Mirror.ext (funext fun side => ?_) rfl
    cases side with
    | front => rfl
    | back => exact (SchemaManager.stored_insertMarker ..).trans (if_neg h)

theorem mirror_register (s : SchemaSystem) (c : String) (schema : CollectionSchema) :
    ({ s with manager := s.manager.register schema } : SchemaSystem).mirror c =
      if schema.name = c then (s.mirror c).put .front (some schema) else s.mirror c := by
  by_cases h : schema.name = c
  · rw [if_pos h]
    refine Mirror.ext (funext fun side => ?_) rfl
    cases side with
    | front => exact (SchemaManager.get_register ..).trans (if_pos h)
    | back => rfl
  · rw [if_neg h]
    refine Mirror.ext (funext fun side => ?_) rfl
    cases side with
    | front => exact (SchemaManager.get_register ..).trans (if_neg h)
    | back => rfl

/-- A registry update and the debt it leaves. -/
theorem mirror_changed {p : SchemaPoint} {name : String}
    {r : SchemaRegistry × Option CollectionSchema} (h : s.calls i = some p) (howed : p.owed c = none)
    (hr : r = (s.manager.registry, none) ∨
      ∃ schema, schema.name = name ∧ r = (s.manager.registry.register schema, some schema)) :
    (({ s with manager := { s.manager with registry := r.1 } } : SchemaSystem).goto i
        (.changed r.2)).mirror c =
      (if name = c then r.2.map fun schema => Act.first i .front (some schema) else none).elim
        (s.mirror c) (s.mirror c).step := by
  rcases hr with rfl | ⟨schema, rfl, rfl⟩
  · have hsame : (s.goto i (.changed none)).mirror c = s.mirror c :=
      mirror_goto_same h howed.symm
    split <;> exact hsame
  · show (({ s with manager := s.manager.register schema } : SchemaSystem).goto i
      (.writing schema)).mirror c = _
    rw [mirror_goto, mirror_register]
    by_cases hname : schema.name = c
    · rw [if_pos hname, if_pos hname, SchemaPoint.owed, if_pos hname]
      rfl
    · rw [if_neg hname, if_neg hname, SchemaPoint.owed, if_neg hname, ← howed, ← mirror_owed h,
        Mirror.owe_self]
      rfl

/-- A call's steps are those of the mirror. -/
theorem mirror_move {p : SchemaPoint} (h : s.calls i = some p) :
    (s.move i p).mirror c = s.mirrored c i p := by
  cases p with
  | checking name next =>
    show (if name ∈ s.keyspaces then _ else _ : SchemaSystem).mirror c = s.mirror c
    split
    · exact mirror_goto_same h (by cases next <;> rfl)
    · split
      · exact mirror_goto_same h rfl
      · exact mirror_goto_same h rfl
  | creating name next =>
    exact mirror_goto_same (s := { s with keyspaces := insert name s.keyspaces }) h rfl
  | marking name next =>
    let written : SchemaSystem := { s with manager := s.manager.insertMarker name }
    have hcall : written.calls i = some (.marking name next) := h
    have hgoto : (written.goto i (.knowing name next)).mirror c = written.mirror c :=
      mirror_goto_same hcall rfl
    show (written.goto i (.knowing name next)).mirror c = _
    rw [hgoto, mirror_insertMarker, mirrored, mirrorAct]
    split <;> rfl
  | knowing name next =>
    let known : SchemaSystem := { s with manager := s.manager.markKnown name }
    have hcall : known.calls i = some (.knowing name next) := h
    have hsame : known.mirror c = s.mirror c := by
      refine Mirror.ext (funext fun side => ?_) rfl
      cases side with
      | front => exact SchemaManager.get_markKnown ..
      | back => exact SchemaManager.stored_markKnown ..
    show (known.goto i (.created next)).mirror c = s.mirror c
    rw [mirror_goto_same hcall (by cases next <;> rfl), hsame]
  | saving schema next =>
    show (SchemaSystem.goto _ i (.registering schema next)).mirror c = _
    rw [mirror_goto, mirror_insertSchema, mirrored, mirrorAct, SchemaPoint.owed]
    split
    · rfl
    · have hnone : (s.mirror c).owed i = none := mirror_owed h
      rw [← hnone, Mirror.owe_self]
      rfl
  | registering schema next =>
    have hdone : (SchemaPoint.saved schema next).owed c = none := by cases next <;> rfl
    show (SchemaSystem.goto _ i (.saved schema next)).mirror c = _
    rw [mirror_goto, mirror_register, hdone, mirrored, mirrorAct]
    split
    · next hname => exact (Mirror.step_second ((mirror_owed h).trans (if_pos hname))).symm
    · next hname =>
      have hnone : (s.mirror c).owed i = none := (mirror_owed h).trans (if_neg hname)
      rw [← hnone, Mirror.owe_self]
      rfl
  | ensuring name index =>
    show (match s.manager.get name with | some _ => _ | none => _ : SchemaSystem).mirror c = s.mirror c
    split
    · exact mirror_goto_same h rfl
    · exact mirror_goto_same h rfl
  | adding name index => exact mirror_changed h rfl (SchemaRegistry.change_cases ..)
  | removing name fields => exact mirror_changed h rfl (SchemaRegistry.change_cases ..)
  | writing schema =>
    have hdone : (SchemaPoint.returned (.ok true)).owed c = none := rfl
    show (SchemaSystem.goto _ i (.returned (.ok true))).mirror c = _
    rw [mirror_goto, mirror_insertSchema, hdone, mirrored, mirrorAct]
    split
    · next hname => exact (Mirror.step_second ((mirror_owed h).trans (if_pos hname))).symm
    · next hname =>
      have hnone : (s.mirror c).owed i = none := (mirror_owed h).trans (if_neg hname)
      rw [← hnone, Mirror.owe_self]
      rfl
  | returned answer => rfl

/-! ## Runs -/

/-- The step is covered: a step that writes the marker, or the second of a call's two writes,
brings registry and metadata together, or leaves that to another call under way. -/
def Covers (c : String) (s : SchemaSystem) : SchemaAct → Prop
  | .call _ _ => True
  | .move i => ∀ p a, s.calls i = some p → s.mirrorAct c i p = some a → (s.mirror c).Covered a

theorem settled_step (c : String) (s : SchemaSystem) (act : SchemaAct) (h : (s.mirror c).Settled)
    (hcovers : Covers c s act) : ((s.step act).mirror c).Settled := by
  cases act with
  | call i call =>
    cases hcall : s.calls i with
    | some p =>
      have hstep : s.step (.call i call) = s := by simp only [step, hcall]
      rwa [hstep]
    | none =>
      have hstep : s.step (.call i call) = s.goto i (.start call) := by simp only [step, hcall]
      have hnone : (SchemaPoint.start call).owed c = (s.mirror c).owed i := by
        show _ = (s.calls i).bind (SchemaPoint.owed c)
        rw [hcall]
        cases call <;> rfl
      rw [hstep, mirror_goto, hnone, Mirror.owe_self]
      exact h
  | move i =>
    cases hcall : s.calls i with
    | none =>
      have hstep : s.step (.move i) = s := by simp only [step, hcall]
      rwa [hstep]
    | some p =>
      rw [step_move s i hcall, mirror_move hcall, mirrored]
      cases hact : s.mirrorAct c i p with
      | none => exact h
      | some a => exact Mirror.settled_step h (hcovers p a hcall hact)

theorem Quiet.owed {s : SchemaSystem} (h : s.Quiet) (c : String) (i : Nat) :
    (s.mirror c).owed i = none := by
  show (s.calls i).bind (SchemaPoint.owed c) = none
  cases hcall : s.calls i with
  | none => rfl
  | some p =>
    have hreturned := h i p hcall
    cases p with
    | returned answer => rfl
    | _ => cases hreturned

/-- In a run whose steps are all covered, whenever every call has returned the metadata decodes
to the schema of the registry, and a restart finds it again. -/
theorem metadata_keeps_up (c : String) (s : SchemaSystem) (acts : List SchemaAct)
    (hstart : s.KeepsUp c) (hcovers : Runs.Meets step (Covers c) s acts) :
    ∀ done, done <+: acts → (s.run done).Quiet →
      (s.run done).KeepsUp c ∧
        (s.run done).manager.restart.get c = (s.run done).manager.get c := by
  intro done hdone hquiet
  have hsettled : ((s.run done).mirror c).Settled :=
    Runs.foldl_invariant (fun s => (s.mirror c).Settled) (settled_step c) (Or.inl hstart.symm)
      hcovers done hdone
  have hagrees : (s.run done).KeepsUp c := (hsettled.agrees (hquiet.owed c)).symm
  exact ⟨hagrees, (SchemaManager.get_restart _ c).trans hagrees⟩

end SchemaSystem

/-! ## Two indexes at once -/

namespace Catalog

/-- `users` is open, with a schema of no fields and no indexes. -/
def users : SchemaSystem where
  manager := SchemaManager.empty.save (.flexible "users")
  keyspaces := {"users"}
  calls := fun _ => none

def byField (field : String) : IndexDefinition where
  name := generateIndexName "users" .btree [field]
  fields := [field]
  unique := false
  indexType := .btree
  hnswParams := none
  analyzer := none

/-- Two calls that add an index to a collection with a schema. -/
def begun : List SchemaAct :=
  [.call 0 (.addIndex "users" (byField "email")), .call 1 (.addIndex "users" (byField "age")),
    .move 0, .move 1]

/-- Both change the registry; the second to do so writes first. -/
def crossed : List SchemaAct := begun ++ [.move 0, .move 1, .move 1, .move 0]

/-- Both change the registry and write in the same order. -/
def inOrder : List SchemaAct := begun ++ [.move 0, .move 1, .move 0, .move 1]

theorem users_keepsUp : users.KeepsUp "users" := rfl

theorem crossed_loses_index : users.KeepsUp "users" ∧ (users.run crossed).Quiet ∧
    ¬ (users.run crossed).KeepsUp "users" := by
  refine ⟨users_keepsUp, ?_, ?_⟩
  · intro i p h
    match i with
    | 0 => cases h; rfl
    | 1 => cases h; rfl
    | i + 2 => cases h
  · intro h
    have hlength := congrArg (Option.map fun schema => schema.indexes.length) h
    revert hlength
    decide +kernel

/-- When the first call writes its copy, the second has the registry's schema to write. -/
theorem inOrder_covered : Runs.Meets SchemaSystem.step (SchemaSystem.Covers "users") users inOrder := by
  refine ⟨trivial, trivial, ?_, ?_, ?_, ?_, ?_, ?_, trivial⟩
  · intro p a h hact
    cases h
    cases hact
  · intro p a h hact
    cases h
    cases hact
  · intro p a h hact
    cases h
    cases hact
    trivial
  · intro p a h hact
    cases h
    cases hact
    trivial
  · intro p a h hact
    cases h
    cases hact
    intro side v howed
    cases howed
    exact Or.inr ⟨1, by decide, Or.inl rfl⟩
  · intro p a h hact
    cases h
    cases hact
    intro side v howed
    cases howed
    exact Or.inl rfl

theorem inOrder_keeps_both : (users.run inOrder).KeepsUp "users" :=
  (SchemaSystem.metadata_keeps_up "users" users inOrder users_keepsUp inOrder_covered inOrder
    (List.prefix_refl _) (by
      intro i p h
      match i with
      | 0 => cases h; rfl
      | 1 => cases h; rfl
      | i + 2 => cases h)).1

end Catalog

end StellarDb
