import StellarDb.Lib.Lines
import StellarDb.Lib.Run
import StellarDb.Indexes.Vector

/-!
# StellarDb — the files of a vector index (`storage/indexes/hnsw.rs`)

A commit writes two files: the vectors, in the format of the library, and the metadata, a line
for the version, one for the counter and one `id<TAB>document` for each pair of the map. A
restart reads both. They bring back what was in memory (`VectorLife.persists`) as long as

* no document id has a line feed in it or a carriage return at its end, for the metadata are
  read by lines;
* no document is added that has a vector already, for the id of the old one leaves the map and
  its vector stays;
* no REINDEX has been finished: the swap renames the new file of vectors but not its metadata,
  and the instance goes on writing to the path of the rebuild.
-/

namespace StellarDb

open BiMaps Lines

/-! ## Metadata -/

namespace HnswInstance

def metaVersion : Nat := 1

/-- `{}\t{}` of an entry. -/
def metadataLine (entry : Nat × String) : List Char :=
  Nat.toDigits 10 entry.1 ++ '\t' :: entry.2.toList

/-- What `save_metadata` writes; the map is walked in the order of its hash table. -/
def saveMetadata (order : IterOrder) (idMap : BiMap Nat String) (nextId : Nat) : List Char :=
  writeLines (('v' :: Nat.toDigits 10 metaVersion) :: Nat.toDigits 10 nextId ::
    (order.iter idMap.pairs).map metadataLine)

/-- Read the entries; a line without a tab is skipped. -/
def loadEntries : BiMap Nat String → List (List Char) → Except StorageError (BiMap Nat String)
  | idMap, [] => .ok idMap
  | idMap, line :: lines =>
    match splitFirst '\t' line with
    | none => loadEntries idMap lines
    | some (internalId, docId) =>
      match parseNat internalId with
      | .error e => .error (.other ("Failed to parse HNSW internal_id: " ++ e))
      | .ok internalId => loadEntries (idMap.insert internalId (String.ofList docId)) lines

/-- The counter, then the entries. -/
def loadCounter (line : List Char) (lines : List (List Char)) :
    Except StorageError (BiMap Nat String × Nat) :=
  match parseNat line with
  | .error e => .error (.other ("Failed to parse HNSW next_id: " ++ e))
  | .ok nextId => (·, nextId) <$> loadEntries .empty lines

/-- `load_metadata`: with a version before the counter, or in the older format without. -/
def loadMetadata (file : Option (List Char)) : Except StorageError (BiMap Nat String × Nat) :=
  match file.map readLines with
  | none => .ok (.empty, 0)
  | some [] => .ok (.empty, 0)
  | some (first :: lines) =>
    if first.head? = some 'v' then
      match parseNat first.tail with
      | .error e => .error (.other ("Failed to parse HNSW metadata version: " ++ e))
      | .ok _ =>
        match lines with
        | [] => .ok (.empty, 0)
        | line :: lines => loadCounter line lines
    else loadCounter first lines

/-- A document id that the metadata can hold. -/
def PlainId (docId : String) : Prop := Plain docId.toList

instance (docId : String) : Decidable (PlainId docId) :=
  inferInstanceAs (Decidable (Plain docId.toList))

theorem plain_metadataLine {entry : Nat × String} (h : PlainId entry.2) :
    Plain (metadataLine entry) := by
  obtain ⟨hline, hlast⟩ := h
  refine ⟨fun hmem => ?_, fun hend => ?_⟩
  · rcases List.mem_append.mp hmem with hmem | hmem
    · exact notMem_toDigits (by decide) hmem
    · rcases List.mem_cons.mp hmem with heq | hmem
      · cases heq
      · exact hline hmem
  · unfold metadataLine at hend
    rw [List.getLast?_append, List.getLast?_cons] at hend
    cases hdoc : entry.2.toList.getLast? with
    | none =>
      rw [hdoc] at hend
      cases hend
    | some c =>
      rw [hdoc] at hend hlast
      exact hlast hend

theorem loadEntries_lines {pairs : List (Nat × String)} (idMap : BiMap Nat String) :
    loadEntries idMap (pairs.map metadataLine) =
      .ok (pairs.foldl (fun m p => m.insert p.1 p.2) idMap) := by
  induction pairs generalizing idMap with
  | nil => rfl
  | cons p pairs ih =>
    have hsplit : splitFirst '\t' (metadataLine p) = some (Nat.toDigits 10 p.1, p.2.toList) :=
      splitFirst_append (notMem_toDigits (by decide)) _
    rw [List.map_cons, loadEntries, hsplit]
    dsimp only
    rw [parseNat_toDigits]
    dsimp only
    rw [String.ofList_toList, ih]
    rfl

/-- Saving and loading the metadata gives the same pairs and the same counter. -/
theorem loadMetadata_saveMetadata (order : IterOrder) {idMap : BiMap Nat String} (nextId : Nat)
    (hplain : ∀ p ∈ idMap, PlainId p.2) :
    ∃ idMap', loadMetadata (some (saveMetadata order idMap nextId)) = .ok (idMap', nextId) ∧
      ∀ p, p ∈ idMap' ↔ p ∈ idMap := by
  have hperm := order.perm idMap.pairs
  have hlines : ∀ line ∈ ('v' :: Nat.toDigits 10 metaVersion) :: Nat.toDigits 10 nextId ::
      (order.iter idMap.pairs).map metadataLine, Plain line := by
    intro line hline
    rcases List.mem_cons.mp hline with rfl | hline
    · decide
    · rcases List.mem_cons.mp hline with rfl | hline
      · exact plain_toDigits nextId
      · obtain ⟨p, hp, rfl⟩ := List.mem_map.mp hline
        exact plain_metadataLine (hplain p (hperm.mem_iff.mp hp))
  refine ⟨(order.iter idMap.pairs).foldl (fun m p => m.insert p.1 p.2) .empty, ?_, fun p => ?_⟩
  · unfold loadMetadata saveMetadata
    rw [Option.map_some, readLines_writeLines hlines]
    dsimp only
    rw [if_pos List.head?_cons, List.tail_cons, parseNat_toDigits]
    dsimp only
    rw [loadCounter, parseNat_toDigits, loadEntries_lines]
    rfl
  · refine (BiMap.mem_foldl_insert ?_ ?_ p).trans hperm.mem_iff
    · exact (hperm.map _).nodup_iff.mpr idMap.left_nodup
    · exact (hperm.map _).nodup_iff.mpr idMap.right_nodup

end HnswInstance

/-! ## Files -/

section Files

variable [Usearch]

namespace HnswIndex

def indexPath (collection field : String) : VectorPath := ⟨collection, field⟩

def shadowPath (collection field : String) : VectorPath := ⟨collection, field ++ "_shadow"⟩

omit [Usearch] in
theorem shadowPath_ne (collection field : String) :
    shadowPath collection field ≠ indexPath collection field := by
  intro h
  have hlen := congrArg (fun path => path.stem.toList.length) h
  simp [shadowPath, indexPath, String.toList_append] at hlen

/-- `HnswInstance::new`: load what is at the path, or start empty. -/
def newInstance (s : HnswIndex) (path : VectorPath) (dimension : Nat) :
    Except StorageError HnswInstance :=
  match s.vectorFiles path with
  | none => .ok (.empty dimension path)
  | some file =>
    match Usearch.load file with
    | .error e => .error (.index ("Failed to load HNSW index: " ++ e))
    | .ok index =>
      match HnswInstance.loadMetadata (s.metadataFiles path) with
      | .error e => .error e
      | .ok (idMap, nextId) => .ok ⟨index, dimension, idMap, nextId, path, 0⟩

/-- `save`: the vectors first, then the metadata. -/
def save (order : IterOrder) (s : HnswIndex) (inst : HnswInstance) : HnswIndex × HnswInstance :=
  ({ s with
      vectorFiles := Function.update s.vectorFiles inst.path (some (Usearch.save inst.index))
      metadataFiles := Function.update s.metadataFiles inst.path
        (some (HnswInstance.saveMetadata order inst.idMap inst.nextId)) },
    { inst with pending := 0 })

/-- Save if there are changes. -/
def commitInstance (order : IterOrder) (s : HnswIndex) (inst : HnswInstance) :
    HnswIndex × HnswInstance :=
  if 0 < inst.pending then s.save order inst else (s, inst)

section

variable (c f : String)

/-- Write to the instance, or to both. -/
def write (g : HnswInstance → HnswInstance × Except StorageError Unit) (s : HnswIndex) :
    HnswIndex :=
  match s.instances c f with
  | some (.active inst) => s.setInstance c f (.active (g inst).1)
  | some (.rebuilding active shadow) =>
    let both := (onBoth g active shadow).1
    s.setInstance c f (.rebuilding both.1 both.2)
  | none => s

/-- The writes of `index_document` for a document with a vector. -/
def addVector (docId : String) (vector : List UInt32) (s : HnswIndex) : HnswIndex :=
  s.write c f (·.addVector docId vector)

def removeVector (docId : String) (s : HnswIndex) : HnswIndex :=
  s.write c f (·.removeVector docId)

/-- `commit`, for one entry of the map. -/
def commit (order : IterOrder) (s : HnswIndex) : HnswIndex :=
  match s.instances c f with
  | some (.active inst) =>
    let (s, inst) := s.commitInstance order inst
    s.setInstance c f (.active inst)
  | some (.rebuilding active shadow) =>
    let (s, active) := s.commitInstance order active
    let (s, shadow) := s.commitInstance order shadow
    s.setInstance c f (.rebuilding active shadow)
  | none => s

/-- `start_reindex`; a failed one changes nothing. -/
def startReindex (s : HnswIndex) : HnswIndex :=
  match s.instances c f with
  | some (.active active) =>
    match s.newInstance (shadowPath c f) active.dimension with
    | .ok shadow => s.setInstance c f (.rebuilding active shadow)
    | .error _ => s
  | _ => s

def addToShadow (docId : String) (vector : List UInt32) (s : HnswIndex) : HnswIndex :=
  match s.instances c f with
  | some (.rebuilding active shadow) =>
    s.setInstance c f (.rebuilding active (shadow.addVector docId vector).1)
  | _ => s

/-- `finish_reindex`: the new instance takes the place of the old one, and its file of vectors
that of the old file. -/
def finishReindex (order : IterOrder) (s : HnswIndex) : HnswIndex :=
  match s.instances c f with
  | some (.rebuilding _ shadow) =>
    let (s, shadow) := s.commitInstance order shadow
    let s := s.setInstance c f (.active shadow)
    let removed := Function.update s.vectorFiles (indexPath c f) none
    match removed (shadowPath c f) with
    | some file =>
      let moved := Function.update removed (shadowPath c f) none
      { s with vectorFiles := Function.update moved (indexPath c f) (some file) }
    | none => { s with vectorFiles := removed }
  | _ => s

def cancelReindex (s : HnswIndex) : HnswIndex :=
  match s.instances c f with
  | some (.rebuilding active _) =>
    let s := s.setInstance c f (.active active)
    { s with vectorFiles := Function.update s.vectorFiles (shadowPath c f) none }
  | _ => s

/-- The instance that reads go to. -/
def activeInstance (s : HnswIndex) : Option HnswInstance :=
  match s.instances c f with
  | some (.active inst) => some inst
  | some (.rebuilding active _) => some active
  | none => none

end

end HnswIndex

/-! ## Runs -/

inductive VectorOp where
  | add (docId : String) (vector : List UInt32)
  | remove (docId : String)
  | commit (order : IterOrder)
  | startReindex
  | addToShadow (docId : String) (vector : List UInt32)
  | finishReindex (order : IterOrder)
  | cancelReindex

/-- The index, and the document that each internal id of the active instance was added for. -/
structure VectorLife where
  index : HnswIndex
  addedFor : Nat → Option String

namespace VectorLife

variable (c f : String)

def step (s : VectorLife) : VectorOp → VectorLife
  | .add docId vector =>
    { index := s.index.addVector c f docId vector
      addedFor :=
        match s.index.activeInstance c f with
        | none => s.addedFor
        | some inst =>
          if (inst.addVector docId vector).2.isOk then
            Function.update s.addedFor inst.nextId (some docId)
          else s.addedFor }
  | .remove docId => { s with index := s.index.removeVector c f docId }
  | .commit order => { s with index := s.index.commit c f order }
  | .startReindex => { s with index := s.index.startReindex c f }
  | .addToShadow docId vector => { s with index := s.index.addToShadow c f docId vector }
  | .finishReindex order => { s with index := s.index.finishReindex c f order }
  | .cancelReindex => { s with index := s.index.cancelReindex c f }

/-- A new index: an empty instance and no file. -/
structure Fresh (s : VectorLife) : Prop where
  inst : ∃ dimension, s.index.instances c f =
    some (.active (.empty dimension (HnswIndex.indexPath c f)))
  file : s.index.vectorFiles (HnswIndex.indexPath c f) = none

/-- After a commit and a restart the index is what it was. -/
structure Persists (order : IterOrder) (s : VectorLife) (inst inst' : HnswInstance) : Prop where
  reopened : (s.index.commit c f order).newInstance (HnswIndex.indexPath c f) inst.dimension =
    .ok inst'
  mapping : ∀ docId, inst'.vectorOf docId = inst.vectorOf docId
  stored : ∀ id, (Usearch.vectorAt inst'.index id).isSome →
    ∃ docId, inst'.idMap.getByLeft id = some docId ∧ s.addedFor id = some docId
  below : ∀ id, (Usearch.vectorAt inst'.index id).isSome → id < inst'.nextId
  metadata : ∃ idMap, HnswInstance.loadMetadata
      (some (HnswInstance.saveMetadata order inst.idMap inst.nextId)) = .ok (idMap, inst.nextId) ∧
    ∀ id, idMap.getByLeft id = inst.idMap.getByLeft id

/-- A step that the files can follow. -/
def Careful (s : VectorLife) : VectorOp → Prop
  | .add docId _ => HnswInstance.PlainId docId ∧
    ∀ inst, s.index.activeInstance c f = some inst → inst.idMap.getByRight docId = none
  | .finishReindex _ => ∀ active shadow, s.index.instances c f ≠ some (.rebuilding active shadow)
  | _ => True

end VectorLife

/-! ## What is on disk -/

namespace HnswInstance

/-- `inst'` holds what `inst` holds. -/
structure SameContents (inst inst' : HnswInstance) : Prop where
  pairs : ∀ p, p ∈ inst'.idMap ↔ p ∈ inst.idMap
  vectors : ∀ id, Usearch.vectorAt inst'.index id = Usearch.vectorAt inst.index id
  below : ∀ p ∈ inst'.idMap, p.1 < inst'.nextId

theorem SameContents.vectorOf {inst inst' : HnswInstance} (h : inst.SameContents inst')
    (docId : String) : inst'.vectorOf docId = inst.vectorOf docId := by
  by_cases hin : ∃ id, (id, docId) ∈ inst.idMap
  · obtain ⟨id, hmem⟩ := hin
    rw [vectorOf_of_mem hmem, vectorOf_of_mem ((h.pairs _).mpr hmem), h.vectors]
  · have hnot : ∀ id, (id, docId) ∉ inst.idMap := fun id hmem => hin ⟨id, hmem⟩
    rw [vectorOf_of_notMem hnot, vectorOf_of_notMem fun id hmem => hnot id ((h.pairs _).mp hmem)]

/-- A failed addition leaves everything but the counter. -/
theorem addVector_cases (inst : HnswInstance) (docId : String) (vector : List UInt32) :
    (inst.addVector docId vector).1.path = inst.path ∧
    ((inst.addVector docId vector).2.isOk = true ∧
        (inst.addVector docId vector).1.pending ≠ 0 ∧
        (inst.addVector docId vector).1.idMap = inst.idMap.insert inst.nextId docId ∨
      (inst.addVector docId vector).2.isOk = false ∧
        (inst.addVector docId vector).1.pending = inst.pending ∧
        (inst.addVector docId vector).1.idMap = inst.idMap ∧
        (inst.addVector docId vector).1.index = inst.index) := by
  unfold addVector
  split
  · exact ⟨rfl, Or.inr ⟨rfl, rfl, rfl, rfl⟩⟩
  · dsimp only
    cases Usearch.add inst.index inst.nextId vector with
    | error e => exact ⟨rfl, Or.inr ⟨rfl, rfl, rfl, rfl⟩⟩
    | ok index => exact ⟨rfl, Or.inl ⟨rfl, Nat.succ_ne_zero _, rfl⟩⟩

theorem removeVector_cases (inst : HnswInstance) (docId : String) :
    (inst.removeVector docId).1.path = inst.path ∧
    ((inst.removeVector docId).1.pending ≠ 0 ∧
        (inst.removeVector docId).1.idMap = inst.idMap.removeByRight docId ∨
      (inst.removeVector docId).1 = inst) := by
  unfold removeVector
  cases inst.idMap.getByRight docId with
  | none => exact ⟨rfl, Or.inr rfl⟩
  | some id =>
    dsimp only
    cases Usearch.remove inst.index id with
    | error e => exact ⟨rfl, Or.inr rfl⟩
    | ok index => exact ⟨rfl, Or.inl ⟨Nat.succ_ne_zero _, rfl⟩⟩

end HnswInstance

namespace HnswIndex

open HnswInstance

/-- Opening the path of an instance gives its contents. -/
def OnDisk (s : HnswIndex) (inst : HnswInstance) : Prop :=
  ∃ inst', s.newInstance inst.path inst.dimension = .ok inst' ∧ inst.SameContents inst'

theorem newInstance_congr {s s' : HnswIndex} {path : VectorPath}
    (hvectors : s'.vectorFiles path = s.vectorFiles path)
    (hmetadata : s'.metadataFiles path = s.metadataFiles path) (dimension : Nat) :
    s'.newInstance path dimension = s.newInstance path dimension := by
  unfold newInstance
  rw [hvectors, hmetadata]

theorem save_onDisk (hU : Usearch.Lawful) (order : IterOrder) (s : HnswIndex)
    {inst : HnswInstance} (hsound : inst.Sound) (hplain : ∀ p ∈ inst.idMap, PlainId p.2) :
    (s.save order inst).1.OnDisk (s.save order inst).2 := by
  obtain ⟨index, hload, -, hvectors⟩ := hU.load_save inst.index
  obtain ⟨idMap, hmeta, hpairs⟩ := loadMetadata_saveMetadata order inst.nextId hplain
  refine ⟨⟨index, inst.dimension, idMap, inst.nextId, inst.path, 0⟩, ?_, hpairs, hvectors, ?_⟩
  · unfold newInstance save
    dsimp only
    rw [Function.update_self, Function.update_self]
    dsimp only
    rw [hload, hmeta]
  · intro p hp
    exact hsound.below p.1 p.2 ((hpairs p).mp hp)

/-- A commit brings the contents to disk and writes no other path. -/
theorem commitInstance_spec (hU : Usearch.Lawful) (order : IterOrder) (s : HnswIndex)
    {inst : HnswInstance} (hsound : inst.Sound) (hplain : ∀ p ∈ inst.idMap, PlainId p.2)
    (hdisk : inst.pending = 0 → s.OnDisk inst) :
    (s.commitInstance order inst).1.OnDisk (s.commitInstance order inst).2 ∧
      (s.commitInstance order inst).2 = { inst with pending := 0 } := by
  unfold commitInstance
  split
  · exact ⟨s.save_onDisk hU order hsound hplain, rfl⟩
  · next hpending =>
    have hzero : inst.pending = 0 := Nat.eq_zero_of_not_pos hpending
    refine ⟨hdisk hzero, ?_⟩
    rw [← hzero]

theorem commitInstance_other (order : IterOrder) (s : HnswIndex) (inst : HnswInstance)
    {path : VectorPath} (hne : path ≠ inst.path) :
    (s.commitInstance order inst).1.vectorFiles path = s.vectorFiles path ∧
    (s.commitInstance order inst).1.metadataFiles path = s.metadataFiles path ∧
    (s.commitInstance order inst).2.path = inst.path := by
  unfold commitInstance
  split
  · exact ⟨Function.update_of_ne hne .., Function.update_of_ne hne .., rfl⟩
  · exact ⟨rfl, rfl, rfl⟩

theorem setInstance_self (s : HnswIndex) (c f : String) (state : HnswIndexState) :
    (s.setInstance c f state).instances c f = some state :=
  (setInstance_apply ..).trans (if_pos ⟨rfl, rfl⟩)

end HnswIndex

namespace VectorLife

open HnswInstance HnswIndex

variable {c f : String} {s : VectorLife} {inst : HnswInstance}

/-- The invariant of a run: the active instance is sound, its ids can be written, and without
pending changes it is on disk. -/
structure Kept (c f : String) (s : VectorLife) (inst : HnswInstance) : Prop where
  active : s.index.activeInstance c f = some inst
  shadow : ∀ active shadow, s.index.instances c f = some (.rebuilding active shadow) →
    shadow.path = shadowPath c f
  path : inst.path = indexPath c f
  sound : inst.Sound
  plain : ∀ p ∈ inst.idMap, PlainId p.2
  added : ∀ p ∈ inst.idMap, s.addedFor p.1 = some p.2
  disk : inst.pending = 0 → s.index.OnDisk inst

theorem Fresh.kept (hU : Usearch.Lawful) (h : Fresh c f s) : ∃ inst, Kept c f s inst := by
  obtain ⟨⟨dimension, hinst⟩, hfile⟩ := h
  refine ⟨.empty dimension (indexPath c f), ?_, ?_, rfl, sound_empty hU .., ?_, ?_, fun _ => ?_⟩
  · unfold activeInstance
    rw [hinst]
  · intro active shadow hstate
    rw [hinst] at hstate
    cases hstate
  · exact fun p hp => absurd hp (BiMap.notMem_empty p)
  · exact fun p hp => absurd hp (BiMap.notMem_empty p)
  · refine ⟨.empty dimension (indexPath c f), ?_, fun _ => Iff.rfl, fun _ => rfl,
      fun p hp => absurd hp (BiMap.notMem_empty p)⟩
    show s.index.newInstance (indexPath c f) dimension = _
    unfold newInstance
    rw [hfile]

/-- After a commit the active instance is what a restart reads. -/
theorem Kept.commit (hU : Usearch.Lawful) (h : Kept c f s inst) (order : IterOrder) :
    (s.index.commit c f order).activeInstance c f = some { inst with pending := 0 } ∧
    (s.index.commit c f order).OnDisk { inst with pending := 0 } ∧
    ∀ active shadow, (s.index.commit c f order).instances c f = some (.rebuilding active shadow) →
      shadow.path = shadowPath c f := by
  obtain ⟨hdisk, hinst'⟩ := s.index.commitInstance_spec hU order h.sound h.plain h.disk
  have hactive := h.active
  unfold activeInstance at hactive
  unfold HnswIndex.commit
  split at hactive
  · next inst₀ hstate =>
    cases hactive
    dsimp only
    rw [hinst'] at hdisk ⊢
    refine ⟨?_, hdisk, ?_⟩
    · unfold activeInstance
      rw [setInstance_self]
    · intro active shadow hnew
      rw [setInstance_self] at hnew
      cases hnew
  · next inst₀ shadow hstate =>
    cases hactive
    have hne : indexPath c f ≠ shadow.path := by
      rw [h.shadow _ _ hstate]
      exact (shadowPath_ne c f).symm
    dsimp only
    rw [hinst'] at hdisk ⊢
    obtain ⟨hvectors, hmetadata, hpath⟩ := commitInstance_other order
      (s.index.commitInstance order inst).1 shadow hne
    refine ⟨?_, ?_, ?_⟩
    · unfold activeInstance
      rw [setInstance_self]
    · obtain ⟨inst', hopen, hsame⟩ := hdisk
      refine ⟨inst', ?_, hsame⟩
      rw [← hopen]
      show newInstance _ inst.path inst.dimension = newInstance _ inst.path inst.dimension
      rw [h.path]
      exact newInstance_congr hvectors hmetadata _
    · intro active shadow' hnew
      rw [setInstance_self] at hnew
      cases hnew
      exact hpath.trans (h.shadow _ _ hstate)
  · cases hactive

theorem onBoth_active (g : HnswInstance → HnswInstance × Except StorageError Unit)
    (active shadow : HnswInstance) : (onBoth g active shadow).1.1 = (g active).1 := by
  unfold onBoth
  split
  · next hg => rw [hg]
  · next hg => rw [hg]

theorem onBoth_shadow_path {g : HnswInstance → HnswInstance × Except StorageError Unit}
    (hpath : ∀ inst, (g inst).1.path = inst.path) (active shadow : HnswInstance) :
    (onBoth g active shadow).1.2.path = shadow.path := by
  unfold onBoth
  split
  · rfl
  · exact hpath shadow

/-- A write goes to the active instance, touches no file and moves no shadow. -/
theorem Kept.write (h : Kept c f s inst)
    {g : HnswInstance → HnswInstance × Except StorageError Unit}
    (hpath : ∀ inst, (g inst).1.path = inst.path) :
    (s.index.write c f g).activeInstance c f = some (g inst).1 ∧
    (∀ active shadow, (s.index.write c f g).instances c f = some (.rebuilding active shadow) →
      shadow.path = shadowPath c f) ∧
    (s.index.write c f g).vectorFiles = s.index.vectorFiles ∧
    (s.index.write c f g).metadataFiles = s.index.metadataFiles := by
  have hactive := h.active
  have hshadow := h.shadow
  unfold activeInstance at hactive ⊢
  unfold HnswIndex.write
  cases hstate : s.index.instances c f with
  | none =>
    rw [hstate] at hactive
    cases hactive
  | some state =>
    rw [hstate] at hactive hshadow
    cases state with
    | active inst₀ =>
      cases hactive
      dsimp only
      rw [setInstance_self]
      exact ⟨rfl, fun _ _ hnew => (nomatch hnew), rfl, rfl⟩
    | rebuilding active shadow =>
      cases hactive
      dsimp only
      rw [setInstance_self]
      refine ⟨congrArg some (onBoth_active g inst shadow), fun active' shadow' hnew => ?_, rfl, rfl⟩
      cases hnew
      exact (onBoth_shadow_path hpath inst shadow).trans (hshadow _ _ rfl)

/-- What is on disk stays there while no file changes. -/
theorem OnDisk.congr {index index' : HnswIndex} {inst' : HnswInstance} (h : index.OnDisk inst)
    (hpath : inst'.path = inst.path) (hdim : inst'.dimension = inst.dimension)
    (hmap : inst'.idMap = inst.idMap) (hcontents : inst'.index = inst.index)
    (hvectors : index'.vectorFiles inst.path = index.vectorFiles inst.path)
    (hmetadata : index'.metadataFiles inst.path = index.metadataFiles inst.path) :
    index'.OnDisk inst' := by
  obtain ⟨opened, hopen, hsame⟩ := h
  refine ⟨opened, ?_, ⟨fun p => ?_, fun id => ?_, hsame.below⟩⟩
  · rw [hpath, hdim, newInstance_congr hvectors hmetadata, hopen]
  · rw [hmap, hsame.pairs]
  · rw [hcontents, hsame.vectors]

theorem Kept.add (hU : Usearch.Lawful) (h : Kept c f s inst) {docId : String}
    (vector : List UInt32) (hcareful : Careful c f s (.add docId vector)) :
    ∃ inst', Kept c f (s.step c f (.add docId vector)) inst' := by
  obtain ⟨hplain, hnew⟩ := hcareful
  have hnone := BiMap.getByRight_eq_none.mp (hnew inst h.active)
  obtain ⟨hsound, hdim, -, -, -⟩ := h.sound.addVector hU hnone vector
  obtain ⟨hactive, hshadow, hvectors, hmetadata⟩ := h.write (g := (·.addVector docId vector))
    fun inst => (inst.addVector_cases docId vector).1
  obtain ⟨hpath, hcases⟩ := inst.addVector_cases docId vector
  have hadded : (s.step c f (.add docId vector)).addedFor =
      if (inst.addVector docId vector).2.isOk then
        Function.update s.addedFor inst.nextId (some docId) else s.addedFor := by
    unfold VectorLife.step
    dsimp only
    rw [h.active]
  refine ⟨_, hactive, hshadow, hpath.trans h.path, hsound, ?_, ?_, ?_⟩
  · intro p hp
    rcases hcases with ⟨-, -, hmap⟩ | ⟨-, -, hmap, -⟩
    · rw [hmap] at hp
      rcases BiMap.mem_insert.mp hp with rfl | ⟨hp, -⟩
      · exact hplain
      · exact h.plain p hp
    · exact h.plain p (hmap ▸ hp)
  · intro p hp
    rw [hadded]
    rcases hcases with ⟨hok, -, hmap⟩ | ⟨hok, -, hmap, -⟩
    · rw [hok, if_pos rfl]
      rw [hmap] at hp
      rcases BiMap.mem_insert.mp hp with rfl | ⟨hp, -⟩
      · exact Function.update_self ..
      · rw [Function.update_of_ne (h.sound.below p.1 p.2 hp).ne]
        exact h.added p hp
    · rw [hok, if_neg Bool.false_ne_true]
      exact h.added p (hmap ▸ hp)
  · intro hpending
    rcases hcases with ⟨-, hne, -⟩ | ⟨-, hsame, hmap, hindex⟩
    · exact absurd hpending hne
    · exact OnDisk.congr (h.disk (hsame ▸ hpending)) hpath hdim hmap hindex
        (congrFun hvectors _) (congrFun hmetadata _)

theorem Kept.remove (hU : Usearch.Lawful) (h : Kept c f s inst) (docId : String) :
    ∃ inst', Kept c f (s.step c f (.remove docId)) inst' := by
  obtain ⟨inst', hres, hsound, hdim, -, -⟩ := h.sound.removeVector hU docId
  obtain ⟨hactive, hshadow, hvectors, hmetadata⟩ := h.write (g := (·.removeVector docId))
    fun inst => (inst.removeVector_cases docId).1
  obtain ⟨hpath, hcases⟩ := inst.removeVector_cases docId
  have hsub : ∀ p ∈ (inst.removeVector docId).1.idMap, p ∈ inst.idMap := by
    intro p hp
    rcases hcases with ⟨-, hmap⟩ | hsame
    · exact (BiMap.mem_removeByRight.mp (hmap ▸ hp)).1
    · exact hsame ▸ hp
  refine ⟨_, hactive, hshadow, hpath.trans h.path, ?_, fun p hp => h.plain p (hsub p hp),
    fun p hp => h.added p (hsub p hp), fun hpending => ?_⟩
  · rw [hres]
    exact hsound
  · rcases hcases with ⟨hne, -⟩ | hsame
    · exact absurd hpending hne
    · change (s.index.write c f _).OnDisk (inst.removeVector docId).1
      change (inst.removeVector docId).1.pending = 0 at hpending
      rw [hsame] at hpending ⊢
      exact OnDisk.congr (h.disk hpending) rfl rfl rfl rfl (congrFun hvectors _)
        (congrFun hmetadata _)

/-- A step that leaves the active instance and its files. -/
theorem Kept.frame (h : Kept c f s inst) {index : HnswIndex}
    (hactive : index.activeInstance c f = s.index.activeInstance c f)
    (hshadow : ∀ active shadow, index.instances c f = some (.rebuilding active shadow) →
      shadow.path = shadowPath c f)
    (hvectors : index.vectorFiles (indexPath c f) = s.index.vectorFiles (indexPath c f))
    (hmetadata : index.metadataFiles (indexPath c f) = s.index.metadataFiles (indexPath c f)) :
    Kept c f { s with index := index } inst where
  active := hactive.trans h.active
  shadow := hshadow
  path := h.path
  sound := h.sound
  plain := h.plain
  added := h.added
  disk := by
    intro hpending
    rw [← h.path] at hvectors hmetadata
    exact OnDisk.congr (h.disk hpending) rfl rfl rfl rfl hvectors hmetadata

theorem Kept.eq_of_active (h : Kept c f s inst) {active : HnswInstance}
    (hstate : s.index.instances c f = some (.active active)) : active = inst := by
  have hactive := h.active
  unfold activeInstance at hactive
  rw [hstate] at hactive
  exact Option.some.inj hactive

theorem Kept.eq_of_rebuilding (h : Kept c f s inst) {active shadow : HnswInstance}
    (hstate : s.index.instances c f = some (.rebuilding active shadow)) : active = inst := by
  have hactive := h.active
  unfold activeInstance at hactive
  rw [hstate] at hactive
  exact Option.some.inj hactive

/-- A step that starts, feeds or gives up a rebuild. -/
theorem Kept.setState (h : Kept c f s inst) {index : HnswIndex} {state : HnswIndexState}
    (hstate : state = .active inst ∨
      ∃ shadow, shadow.path = shadowPath c f ∧ state = .rebuilding inst shadow)
    (hvectors : index.vectorFiles = s.index.vectorFiles)
    (hmetadata : index.metadataFiles = s.index.metadataFiles) :
    Kept c f { s with index := index.setInstance c f state } inst := by
  refine h.frame ?_ (fun active shadow hnew => ?_) (congrFun hvectors _) (congrFun hmetadata _)
  · rw [h.active]
    unfold activeInstance
    rw [setInstance_self]
    rcases hstate with rfl | ⟨shadow, -, rfl⟩
    · rfl
    · rfl
  · rw [setInstance_self] at hnew
    rcases hstate with rfl | ⟨shadow', hpath, rfl⟩
    · cases hnew
    · cases hnew
      exact hpath

theorem newInstance_path {index : HnswIndex} {path : VectorPath} {dimension : Nat}
    {opened : HnswInstance} (h : index.newInstance path dimension = .ok opened) :
    opened.path = path := by
  unfold newInstance at h
  split at h
  · cases h
    rfl
  · split at h
    · cases h
    · split at h
      · cases h
      · cases h
        rfl

/-- Every careful step keeps the invariant. -/
theorem Kept.step (hU : Usearch.Lawful) (h : Kept c f s inst) {op : VectorOp}
    (hcareful : Careful c f s op) : ∃ inst', Kept c f (s.step c f op) inst' := by
  cases op with
  | add docId vector => exact h.add hU vector hcareful
  | remove docId => exact h.remove hU docId
  | commit order =>
    obtain ⟨hactive, hdisk, hshadow⟩ := h.commit hU order
    exact ⟨_, hactive, hshadow, h.path, ⟨h.sound.dimensions, h.sound.stored, h.sound.below⟩,
      h.plain, h.added, fun _ => hdisk⟩
  | startReindex =>
    show ∃ inst', Kept c f { s with index := s.index.startReindex c f } inst'
    unfold HnswIndex.startReindex
    split
    · next active hstate =>
      split
      · next shadow hopen =>
        obtain rfl := h.eq_of_active hstate
        refine ⟨_, h.setState (Or.inr ⟨shadow, newInstance_path hopen, rfl⟩) rfl rfl⟩
      · exact ⟨inst, h⟩
    · exact ⟨inst, h⟩
  | addToShadow docId vector =>
    show ∃ inst', Kept c f { s with index := s.index.addToShadow c f docId vector } inst'
    unfold HnswIndex.addToShadow
    split
    · next active shadow hstate =>
      obtain rfl := h.eq_of_rebuilding hstate
      have hpath := (shadow.addVector_cases docId vector).1.trans (h.shadow _ _ hstate)
      exact ⟨_, h.setState (Or.inr ⟨_, hpath, rfl⟩) rfl rfl⟩
    · exact ⟨inst, h⟩
  | finishReindex order =>
    show ∃ inst', Kept c f { s with index := s.index.finishReindex c f order } inst'
    unfold HnswIndex.finishReindex
    split
    · next active shadow hstate => exact absurd hstate (hcareful active shadow)
    · exact ⟨inst, h⟩
  | cancelReindex =>
    show ∃ inst', Kept c f { s with index := s.index.cancelReindex c f } inst'
    unfold HnswIndex.cancelReindex
    split
    · next active shadow hstate =>
      obtain rfl := h.eq_of_rebuilding hstate
      have hkept := h.setState (Or.inl rfl) rfl rfl
      refine ⟨active, hkept.frame rfl hkept.shadow ?_ rfl⟩
      exact Function.update_of_ne (shadowPath_ne c f).symm ..
    · exact ⟨inst, h⟩

/-- After every careful run the index survives a commit and a restart. -/
theorem persists (hU : Usearch.Lawful) (hfresh : Fresh c f s) {ops : List VectorOp}
    (hcareful : Runs.Meets (step c f) (Careful c f) s ops) (done : List VectorOp)
    (hdone : done <+: ops) (order : IterOrder) :
    ∃ inst inst', (done.foldl (step c f) s).index.activeInstance c f = some inst ∧
      Persists c f order (done.foldl (step c f) s) inst inst' := by
  obtain ⟨inst, h⟩ := Runs.foldl_invariant (fun s => ∃ inst, Kept c f s inst)
    (fun s op ⟨inst, h⟩ hop => h.step hU hop) (hfresh.kept hU) hcareful done hdone
  obtain ⟨-, ⟨inst', hopen, hsame⟩, -⟩ := h.commit hU order
  obtain ⟨idMap, hmeta, hpairs⟩ := loadMetadata_saveMetadata order inst.nextId h.plain
  have hstored : ∀ id, (Usearch.vectorAt inst'.index id).isSome →
      ∃ docId, (id, docId) ∈ inst.idMap := by
    intro id hid
    rw [hsame.vectors] at hid
    exact (h.sound.stored id).mp hid
  refine ⟨inst, inst', h.active, ⟨?_, hsame.vectorOf, fun id hid => ?_, fun id hid => ?_,
    idMap, hmeta, fun id => ?_⟩⟩
  · rw [← h.path]
    exact hopen
  · obtain ⟨docId, hmem⟩ := hstored id hid
    exact ⟨docId, BiMap.getByLeft_iff_mem.mpr ((hsame.pairs _).mpr hmem), h.added _ hmem⟩
  · obtain ⟨docId, hmem⟩ := hstored id hid
    exact hsame.below _ ((hsame.pairs _).mpr hmem)
  · refine Option.ext fun docId => ?_
    rw [BiMap.getByLeft_iff_mem, BiMap.getByLeft_iff_mem, hpairs]

/-- The vector of a document in memory and after the restart, as functions of the state. -/
theorem Persists.reads_same {order : IterOrder} {inst' : HnswInstance}
    (h : Persists c f order s inst inst') (hactive : s.index.activeInstance c f = some inst)
    (docId : String) :
    ((s.index.activeInstance c f).bind fun inst =>
      ((s.index.commit c f order).newInstance (indexPath c f) inst.dimension).toOption.bind
        (·.vectorOf docId)) = (s.index.activeInstance c f).bind (·.vectorOf docId) := by
  rw [hactive, Option.bind_some, h.reopened]
  exact h.mapping docId

end VectorLife

end Files

/-! ## Two films -/

namespace Reels

open VectorLife HnswIndex

local instance : Usearch := .standIn

def reels : VectorLife where
  index :=
    { instances := fun c f => if c = "films" ∧ f = "embedding" then
        some (.active (.empty 2 (indexPath "films" "embedding"))) else none
      vectorFiles := fun _ => none
      metadataFiles := fun _ => none }
  addedFor := fun _ => none

def run (ops : List VectorOp) : VectorLife := ops.foldl (step "films" "embedding") reels

theorem reels_fresh : Fresh "films" "embedding" reels := ⟨⟨2, rfl⟩, rfl⟩

/-- The rebuilt file takes the place of the old one, its metadata do not, and what comes later is
written beside it. -/
def rebuilt : List VectorOp :=
  [.add "films:1" [1, 0], .commit .asKept, .startReindex, .addToShadow "films:1" [1, 0],
    .finishReindex .asKept, .add "films:2" [0, 1]]

theorem lost_after_restart :
    Fresh "films" "embedding" reels ∧
    (¬ ∃ inst inst', (run [.add "films:1\n2" [1, 0]]).index.activeInstance "films" "embedding" =
        some inst ∧
      Persists "films" "embedding" .asKept (run [.add "films:1\n2" [1, 0]]) inst inst') ∧
    ¬ ∃ inst inst', (run rebuilt).index.activeInstance "films" "embedding" = some inst ∧
      Persists "films" "embedding" .asKept (run rebuilt) inst inst' := by
  refine ⟨reels_fresh, ?_, ?_⟩
  · rintro ⟨inst, inst', hactive, h⟩
    have hsame := h.reads_same hactive "films:1\n2"
    revert hsame
    decide +kernel
  · rintro ⟨inst, inst', hactive, h⟩
    have hsame := h.reads_same hactive "films:2"
    revert hsame
    decide +kernel

/-- A rebuild that is given up, a removal, and no commit. -/
def edited : List VectorOp :=
  [.add "films:1" [1, 0], .commit .asKept, .add "films:2" [0, 1], .startReindex,
    .addToShadow "films:1" [1, 0], .cancelReindex, .remove "films:1"]

theorem edited_careful :
    Runs.Meets (step "films" "embedding") (Careful "films" "embedding") reels edited := by
  refine ⟨⟨by decide, fun inst h => ?_⟩, trivial, ⟨by decide, fun inst h => ?_⟩, trivial, trivial,
    trivial, trivial, trivial⟩
  · cases h
    rfl
  · cases h
    rfl

theorem edited_persists :
    ∃ inst inst', (run edited).index.activeInstance "films" "embedding" = some inst ∧
      Persists "films" "embedding" .asKept (run edited) inst inst' := by
  have hlawful : Usearch.Lawful := Usearch.standIn_lawful
  exact persists hlawful reels_fresh edited_careful edited (List.prefix_refl _) .asKept

end Reels

end StellarDb
