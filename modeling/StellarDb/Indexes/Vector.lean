import StellarDb.Lib.BiMap
import StellarDb.Indexes.External

/-!
# StellarDb — the HNSW vector index (`storage/indexes/hnsw.rs`)

An instance keeps vectors under internal ids in a `usearch` index and the ids of their documents
in a bidirectional map; ids come from a counter and are not used twice. `HnswIndex` keeps an
instance for each collection and field, or two while a REINDEX runs.

The `usearch` library is a parameter (`Usearch`), and `Usearch.Lawful` what the code relies on:
vectors are kept under their keys. An addition may fail for reasons of the library's own.
`HnswInstance.Sound` is what every instance keeps as long as no document is added twice.
-/

namespace StellarDb

open BiMaps

/-! ## The library -/

/-- A `usearch` index over vectors of `f32`, by their bits. -/
class Usearch where
  Index : Type
  /-- Contents of a saved index. -/
  File : Type
  /-- An empty index for vectors of a dimension. -/
  new : Nat → Index
  add : Index → Nat → List UInt32 → Except String Index
  remove : Index → Nat → Except String Index
  save : Index → File
  load : File → Except String Index
  dimensions : Index → Nat
  /-- The vector kept under a key. -/
  vectorAt : Index → Nat → Option (List UInt32)

namespace Usearch

/-- What the code relies on: an index is a map from keys to vectors, and a file is an index. -/
structure Lawful [Usearch] : Prop where
  dimensions_new : ∀ n, dimensions (new n) = n
  vectorAt_new : ∀ n k, vectorAt (new n) k = none
  vectorAt_add : ∀ {s s' : Index} {k : Nat} {v : List UInt32}, add s k v = .ok s' →
    dimensions s' = dimensions s ∧ ∀ k', vectorAt s' k' = if k' = k then some v else vectorAt s k'
  remove_ok : ∀ {s : Index} {k : Nat}, (vectorAt s k).isSome → ∃ s', remove s k = .ok s'
  vectorAt_remove : ∀ {s s' : Index} {k : Nat}, remove s k = .ok s' →
    dimensions s' = dimensions s ∧ ∀ k', vectorAt s' k' = if k' = k then none else vectorAt s k'
  load_save : ∀ s : Index, ∃ s', load (save s) = .ok s' ∧
    dimensions s' = dimensions s ∧ ∀ k, vectorAt s' k = vectorAt s k

/-- The library takes every vector of the right dimension under a new key. -/
def Accepts [Usearch] : Prop :=
  ∀ (s : Index) (k : Nat) (v : List UInt32), vectorAt s k = none → v.length = dimensions s →
    ∃ s', add s k v = .ok s'

/-- A stand-in that keeps its vectors in a function; its file is the index itself. -/
@[reducible] def standIn : Usearch where
  Index := Nat × (Nat → Option (List UInt32))
  File := Nat × (Nat → Option (List UInt32))
  new n := (n, fun _ => none)
  add s k v :=
    if v.length ≠ s.1 then .error "Wrong dimension"
    else if (s.2 k).isSome then .error "Duplicate key"
    else .ok (s.1, Function.update s.2 k (some v))
  remove s k := .ok (s.1, Function.update s.2 k none)
  save s := s
  load s := .ok s
  dimensions s := s.1
  vectorAt s := s.2

theorem standIn_lawful : @Lawful standIn := by
  refine @Lawful.mk standIn (fun _ => rfl) (fun _ _ => rfl) (fun h => ?_) (fun _ => ⟨_, rfl⟩)
    (fun h => ?_) fun s => ⟨s, rfl, rfl, fun _ => rfl⟩
  · change (if _ then _ else if _ then _ else _) = _ at h
    split at h
    · cases h
    · split at h
      · cases h
      · cases h
        exact ⟨rfl, fun k' => Function.update_apply ..⟩
  · cases h
    exact ⟨rfl, fun k' => Function.update_apply ..⟩

theorem standIn_accepts : @Accepts standIn := by
  intro s k v hnone hlen
  refine ⟨(s.1, Function.update s.2 k (some v)), ?_⟩
  have hno : (s.2 k).isSome = false := by
    change s.2 k = none at hnone
    rw [hnone]
    rfl
  have hdim : v.length = s.1 := hlen
  show (if _ then _ else if _ then _ else _) = _
  rw [if_neg (not_not.mpr hdim), hno]
  rfl

end Usearch

/-! ## One index -/

/-- The file of an index is `{collection}/{stem}.idx`, its metadata `{collection}/{stem}.meta`. -/
structure VectorPath where
  collection : String
  stem : String
  deriving DecidableEq, Repr

structure HnswInstance [Usearch] where
  index : Usearch.Index
  dimension : Nat
  idMap : BiMap Nat String
  nextId : Nat
  path : VectorPath
  /-- Changes since the last save. -/
  pending : Nat

/-- Go on unless there was an error. -/
def andThen {σ ε : Type} (r : σ × Except ε Unit) (f : σ → σ × Except ε Unit) :
    σ × Except ε Unit :=
  match r with
  | (s, .ok ()) => f s
  | (s, .error e) => (s, .error e)

section Vector

variable [Usearch]

namespace HnswInstance

/-- A new index, before anything is stored. -/
def empty (dimension : Nat) (path : VectorPath) : HnswInstance where
  index := Usearch.new dimension
  dimension := dimension
  idMap := .empty
  nextId := 0
  path := path
  pending := 0

def addVector (inst : HnswInstance) (docId : String) (vector : List UInt32) :
    HnswInstance × Except StorageError Unit :=
  if vector.length ≠ inst.dimension then
    (inst, .error (.invalidOperation ("Vector dimension mismatch: expected " ++
      toString inst.dimension ++ ", got " ++ toString vector.length)))
  else
    let internalId := inst.nextId
    let inst := { inst with nextId := inst.nextId + 1 }
    match Usearch.add inst.index internalId vector with
    | .error e => (inst, .error (.index ("Failed to add vector: " ++ e)))
    | .ok index =>
      ({ inst with
          index := index
          idMap := inst.idMap.insert internalId docId
          pending := inst.pending + 1 }, .ok ())

def removeVector (inst : HnswInstance) (docId : String) :
    HnswInstance × Except StorageError Unit :=
  match inst.idMap.getByRight docId with
  | none => (inst, .ok ())
  | some internalId =>
    match Usearch.remove inst.index internalId with
    | .error e => (inst, .error (.index ("Failed to remove vector: " ++ e)))
    | .ok index =>
      ({ inst with
          index := index
          idMap := inst.idMap.removeByRight docId
          pending := inst.pending + 1 }, .ok ())

/-- Remove the vector of the old version, or else of the new one. -/
def removeFor (oldDoc newDoc : Option Document) (inst : HnswInstance) :
    HnswInstance × Except StorageError Unit :=
  match oldDoc, newDoc with
  | some old, _ => inst.removeVector old.id
  | none, some new => inst.removeVector new.id
  | none, none => (inst, .ok ())

/-- Add the vector of the new version, if it has one. -/
def addFor (field : String) (newDoc : Option Document) (inst : HnswInstance) :
    HnswInstance × Except StorageError Unit :=
  match newDoc with
  | none => (inst, .ok ())
  | some new =>
    match extractVector new field with
    | some (c :: cs) => inst.addVector new.id (c :: cs)
    | _ => (inst, .ok ())

end HnswInstance

/-! ## The backend -/

inductive HnswIndexState where
  | active (inst : HnswInstance)
  /-- Writes go to both, reads to the active one. -/
  | rebuilding (active shadow : HnswInstance)

structure HnswIndex where
  /-- By collection and field. -/
  instances : String → String → Option HnswIndexState
  vectorFiles : VectorPath → Option Usearch.File
  metadataFiles : VectorPath → Option (List Char)

/-- Do the same to both instances; the first error ends it. -/
def onBoth (f : HnswInstance → HnswInstance × Except StorageError Unit)
    (active shadow : HnswInstance) :
    (HnswInstance × HnswInstance) × Except StorageError Unit :=
  match f active with
  | (active, .error e) => ((active, shadow), .error e)
  | (active, .ok ()) =>
    match f shadow with
    | (shadow, r) => ((active, shadow), r)

namespace HnswIndex

def setInstance (s : HnswIndex) (collection field : String) (state : HnswIndexState) :
    HnswIndex :=
  let fields := Function.update (s.instances collection) field (some state)
  { s with instances := Function.update s.instances collection fields }

/-- `IndexBackend::update_document` -/
def updateDocument (s : HnswIndex) (fields : List String) (oldDoc newDoc : Option Document) :
    HnswIndex × Except StorageError Unit :=
  match fields with
  | [] => (s, .ok ())
  | field :: _ =>
    match (oldDoc.map Document.collection).or (newDoc.map Document.collection) with
    | none => (s, .ok ())
    | some collection =>
      match s.instances collection field with
      | some (.active inst) =>
        let (inst, r) := andThen (inst.removeFor oldDoc newDoc) (·.addFor field newDoc)
        (s.setInstance collection field (.active inst), r)
      | some (.rebuilding active shadow) =>
        let ((active, shadow), r) :=
          andThen (onBoth (·.removeFor oldDoc newDoc) active shadow)
            fun both => onBoth (·.addFor field newDoc) both.1 both.2
        (s.setInstance collection field (.rebuilding active shadow), r)
      | none => (s, .ok ())

theorem setInstance_apply (s : HnswIndex) (collection field : String) (state : HnswIndexState)
    (collection' field' : String) :
    (s.setInstance collection field state).instances collection' field' =
      if collection' = collection ∧ field' = field then some state
      else s.instances collection' field' := by
  unfold setInstance
  by_cases hc : collection' = collection
  · subst hc
    by_cases hf : field' = field
    · subst hf
      simp
    · simp [hf]
  · simp [hc]

end HnswIndex

/-! ## What an instance holds -/

namespace HnswInstance

/-- The vector an instance has for a document. -/
def vectorOf (inst : HnswInstance) (docId : String) : Option (List UInt32) :=
  (inst.idMap.getByRight docId).bind (Usearch.vectorAt inst.index)

/-- The internal ids in the index are those of the map, and below the counter. -/
structure Sound (inst : HnswInstance) : Prop where
  dimensions : Usearch.dimensions inst.index = inst.dimension
  stored : ∀ id, (Usearch.vectorAt inst.index id).isSome ↔ ∃ docId, (id, docId) ∈ inst.idMap
  below : ∀ id docId, (id, docId) ∈ inst.idMap → id < inst.nextId

namespace Sound

variable {inst : HnswInstance}

theorem vectorOf_isSome (h : inst.Sound) (docId : String) :
    (inst.vectorOf docId).isSome ↔ ∃ id, (id, docId) ∈ inst.idMap := by
  unfold vectorOf
  cases hget : inst.idMap.getByRight docId with
  | none => simpa using BiMap.getByRight_eq_none.mp hget
  | some id =>
    have hmem := BiMap.getByRight_iff_mem.mp hget
    rw [Option.bind_some]
    exact iff_of_true ((h.stored id).mpr ⟨docId, hmem⟩) ⟨id, hmem⟩

theorem vectorAt_nextId (h : inst.Sound) : Usearch.vectorAt inst.index inst.nextId = none := by
  rw [← Option.not_isSome_iff_eq_none, h.stored]
  rintro ⟨docId, hmem⟩
  exact lt_irrefl _ (h.below _ _ hmem)

end Sound

/-- The vector of a document stands under the id that the map has for it. -/
theorem vectorOf_of_mem {inst : HnswInstance} {id : Nat} {docId : String}
    (h : (id, docId) ∈ inst.idMap) : inst.vectorOf docId = Usearch.vectorAt inst.index id := by
  unfold vectorOf
  rw [BiMap.getByRight_iff_mem.mpr h]
  rfl

theorem vectorOf_of_notMem {inst : HnswInstance} {docId : String}
    (h : ∀ id, (id, docId) ∉ inst.idMap) : inst.vectorOf docId = none := by
  unfold vectorOf
  rw [BiMap.getByRight_eq_none.mpr h]
  rfl

theorem sound_empty (hU : Usearch.Lawful) (dimension : Nat) (path : VectorPath) :
    (empty dimension path).Sound where
  dimensions := hU.dimensions_new dimension
  stored := by
    intro id
    show (Usearch.vectorAt (Usearch.new dimension) id).isSome ↔ _
    rw [hU.vectorAt_new]
    simp [empty]
  below := by simp [empty]

/-- Removing a document leaves the vectors of the others. -/
theorem Sound.removeVector (hU : Usearch.Lawful) {inst : HnswInstance} (h : inst.Sound)
    (docId : String) :
    ∃ inst', inst.removeVector docId = (inst', .ok ()) ∧ inst'.Sound ∧
      inst'.dimension = inst.dimension ∧ (∀ id, (id, docId) ∉ inst'.idMap) ∧
      ∀ docId', inst'.vectorOf docId' = if docId' = docId then none else inst.vectorOf docId' := by
  unfold HnswInstance.removeVector
  cases hget : inst.idMap.getByRight docId with
  | none =>
    have hnone := BiMap.getByRight_eq_none.mp hget
    refine ⟨inst, rfl, h, rfl, hnone, fun docId' => ?_⟩
    split
    · next heq => rw [heq, vectorOf_of_notMem hnone]
    · rfl
  | some id =>
    have hmem := BiMap.getByRight_iff_mem.mp hget
    obtain ⟨index, hremove⟩ := hU.remove_ok ((h.stored id).mpr ⟨docId, hmem⟩)
    obtain ⟨hdim, hvectors⟩ := hU.vectorAt_remove hremove
    dsimp only
    rw [hremove]
    refine ⟨_, rfl, ⟨hdim.trans h.dimensions, fun id' => ?_, ?_⟩, rfl, ?_, fun docId' => ?_⟩
    · -- an id other than the removed one keeps its vector and its document
      show (Usearch.vectorAt index id').isSome ↔ _
      rw [hvectors]
      split
      · next heq =>
        subst heq
        refine iff_of_false Bool.false_ne_true ?_
        rintro ⟨docId', hmem'⟩
        obtain ⟨hold, hne⟩ := BiMap.mem_removeByRight.mp hmem'
        exact hne (BiMap.right_unique hold hmem)
      · next hne =>
        rw [h.stored]
        refine exists_congr fun docId' => ?_
        rw [BiMap.mem_removeByRight]
        refine (and_iff_left_of_imp fun hmem' heq => hne ?_).symm
        exact BiMap.left_unique (heq ▸ hmem') hmem
    · intro id' docId' hmem'
      exact h.below id' docId' (BiMap.mem_removeByRight.mp hmem').1
    · intro id' hmem'
      exact (BiMap.mem_removeByRight.mp hmem').2 rfl
    · split
      · next heq =>
        subst heq
        exact vectorOf_of_notMem fun id' hmem' => (BiMap.mem_removeByRight.mp hmem').2 rfl
      · next hne =>
        by_cases hin : ∃ id', (id', docId') ∈ inst.idMap
        · obtain ⟨id', hmem'⟩ := hin
          have hid : id' ≠ id := by
            rintro rfl
            exact hne (BiMap.right_unique hmem' hmem)
          rw [vectorOf_of_mem hmem', vectorOf_of_mem (BiMap.mem_removeByRight.mpr ⟨hmem', hne⟩)]
          show Usearch.vectorAt index id' = _
          rw [hvectors, if_neg hid]
        · have hnot : ∀ id', (id', docId') ∉ inst.idMap := fun id' hmem' => hin ⟨id', hmem'⟩
          rw [vectorOf_of_notMem hnot]
          exact vectorOf_of_notMem fun id' hmem' => hnot id' (BiMap.mem_removeByRight.mp hmem').1

/-- An addition for a document without a vector: it has one, or the library refused it. -/
theorem Sound.addVector (hU : Usearch.Lawful) {inst : HnswInstance} (h : inst.Sound)
    {docId : String} (hnew : ∀ id, (id, docId) ∉ inst.idMap) (vector : List UInt32) :
    (inst.addVector docId vector).1.Sound ∧
    (inst.addVector docId vector).1.dimension = inst.dimension ∧
    ((inst.addVector docId vector).2 = .ok () → ∀ docId',
      (inst.addVector docId vector).1.vectorOf docId' =
        if docId' = docId then some vector else inst.vectorOf docId') ∧
    ((inst.addVector docId vector).2 ≠ .ok () → ∀ docId',
      (inst.addVector docId vector).1.vectorOf docId' = inst.vectorOf docId') ∧
    (Usearch.Accepts → vector.length = inst.dimension →
      (inst.addVector docId vector).2 = .ok ()) := by
  unfold HnswInstance.addVector
  split
  · next hdim => exact ⟨h, rfl, nofun, fun _ _ => rfl, fun _ hlen => absurd hlen hdim⟩
  · dsimp only
    cases hadd : Usearch.add inst.index inst.nextId vector with
    | error e =>
      refine ⟨⟨h.dimensions, h.stored, fun id docId hmem => ?_⟩, rfl, nofun, fun _ _ => rfl, ?_⟩
      · exact Nat.lt_succ_of_lt (h.below id docId hmem)
      · intro haccepts hlen
        obtain ⟨index, hok⟩ := haccepts inst.index inst.nextId vector h.vectorAt_nextId
          (hlen.trans h.dimensions.symm)
        rw [hadd] at hok
        cases hok
    | ok index =>
      obtain ⟨hdim, hvectors⟩ := hU.vectorAt_add hadd
      dsimp only
      -- no pair is evicted: the id and the document are new
      have hmem : ∀ p : Nat × String,
          p ∈ inst.idMap.insert inst.nextId docId ↔ p = (inst.nextId, docId) ∨ p ∈ inst.idMap := by
        intro p
        rw [BiMap.mem_insert]
        refine or_congr_right (and_iff_left_of_imp fun hp => ⟨fun heq => ?_, fun heq => ?_⟩)
        · exact (h.below p.1 p.2 hp).ne heq
        · exact hnew p.1 (heq ▸ hp)
      refine ⟨⟨hdim.trans h.dimensions, fun id => ?_, fun id docId' hp => ?_⟩, rfl,
        fun _ docId' => ?_, fun hne => absurd rfl hne, fun _ _ => rfl⟩
      · show (Usearch.vectorAt index id).isSome ↔ _
        rw [hvectors]
        split
        · next heq => exact iff_of_true rfl ⟨docId, (hmem _).mpr (Or.inl (by rw [heq]))⟩
        · next hne =>
          rw [h.stored]
          refine exists_congr fun docId' => ?_
          refine Iff.trans (or_iff_right fun heq => ?_).symm (hmem _).symm
          exact hne (congrArg Prod.fst heq)
      · rcases (hmem _).mp hp with heq | hp
        · obtain rfl : id = inst.nextId := congrArg Prod.fst heq
          exact Nat.lt_succ_self _
        · exact Nat.lt_succ_of_lt (h.below id docId' hp)
      · split
        · next heq =>
          subst heq
          rw [vectorOf_of_mem ((hmem _).mpr (Or.inl rfl))]
          exact (hvectors _).trans (if_pos rfl)
        · next hne =>
          by_cases hin : ∃ id, (id, docId') ∈ inst.idMap
          · obtain ⟨id, hp⟩ := hin
            rw [vectorOf_of_mem hp, vectorOf_of_mem ((hmem _).mpr (Or.inr hp))]
            exact (hvectors id).trans (if_neg (h.below id docId' hp).ne)
          · have hnot : ∀ id, (id, docId') ∉ inst.idMap := fun id hp => hin ⟨id, hp⟩
            rw [vectorOf_of_notMem hnot]
            refine vectorOf_of_notMem fun id hp => ?_
            rcases (hmem _).mp hp with heq | hp
            · exact hne (congrArg Prod.snd heq)
            · exact hnot id hp

end HnswInstance

end Vector

end StellarDb
