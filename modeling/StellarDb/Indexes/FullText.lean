import Mathlib.Data.List.AList
import StellarDb.Indexes.External

/-!
# StellarDb — the full-text index (`storage/indexes/fts.rs`)

An instance keeps the texts of documents under their ids in a Tantivy index, which has a
directory of its own. `FtsIndex` keeps an instance for each collection and name. While a REINDEX
runs there are two: writes go to both, searches to the active one, and `finishReindex` puts the
directory of the other one, the shadow, in the place of the old.

The entries of an instance are those that its writer has, committed or not; a directory has the
committed ones.
-/

namespace StellarDb

open Keyspaces

/-! ## Instances -/

/-- Collection and name of an index. -/
abbrev FtsKey := String × String

/-- The texts of a document, one for each field that has one. -/
abbrev FtsEntry := List (String × String)

/-- The texts of the fields that the caller names and the index has. -/
def ftsEntry [External] [Formats] (contentFields fields : List String) (doc : Document) :
    FtsEntry :=
  fields.filterMap fun field =>
    if field ∈ contentFields then
      (doc.fields.lookup field).bind fun value =>
        if valueToText value = "" then none else some (field, valueToText value)
    else none

structure FtsInstance where
  contentFields : List String
  analyzerName : String
  /-- By document id. -/
  entries : String → List FtsEntry

namespace FtsInstance

def deleteDoc (docId : String) (inst : FtsInstance) : FtsInstance :=
  { inst with entries := Function.update inst.entries docId [] }

/-- Remove the entries of the old version, or else of the new one. -/
def deleteFor (oldDoc newDoc : Option Document) (inst : FtsInstance) : FtsInstance :=
  match oldDoc, newDoc with
  | some old, _ => inst.deleteDoc old.id
  | none, some new => inst.deleteDoc new.id
  | none, none => inst

variable [External] [Formats]

/-- An entry is added to those that the document has. -/
def indexDoc (fields : List String) (doc : Document) (inst : FtsInstance) : FtsInstance :=
  { inst with
      entries := Function.update inst.entries doc.id
        (inst.entries doc.id ++ [ftsEntry inst.contentFields fields doc]) }

def indexFor (fields : List String) (newDoc : Option Document) (inst : FtsInstance) :
    FtsInstance :=
  match newDoc with
  | some new => inst.indexDoc fields new
  | none => inst

/-- What an update does to one instance. -/
def replace (fields : List String) (oldDoc newDoc : Option Document) (inst : FtsInstance) :
    FtsInstance :=
  (inst.deleteFor oldDoc newDoc).indexFor fields newDoc

end FtsInstance

inductive FtsIndexState where
  | active (inst : FtsInstance)
  /-- Writes go to both, reads to the active one. -/
  | rebuilding (active shadow : FtsInstance) (concurrentModified : List String) (overflow : Bool)

def maxConcurrentModifications : Nat := 100000

/-- What a write notes under the lock of `concurrent_modified`. -/
structure Tracking where
  concurrentModified : List String
  overflow : Bool
  shouldSkipShadow : Bool

/-- Note the id of a version. With too many ids the shadow is given up. -/
def Tracking.note (t : Tracking) : Option Document → Tracking
  | none => t
  | some doc =>
    if maxConcurrentModifications ≤ t.concurrentModified.length then
      { t with overflow := true, shouldSkipShadow := true }
    else { t with concurrentModified := t.concurrentModified.insert doc.id }

def track (concurrentModified : List String) (oldDoc newDoc : Option Document) : Tracking :=
  ((Tracking.mk concurrentModified false false).note oldDoc).note newDoc

namespace FtsIndexState

/-- The instance that searches use. -/
def searched : FtsIndexState → FtsInstance
  | .active inst => inst
  | .rebuilding inst _ _ _ => inst

/-- `update_document` of an index that is open. -/
def update [External] [Formats] (fields : List String) (oldDoc newDoc : Option Document) :
    FtsIndexState → FtsIndexState
  | .active inst => .active (inst.replace fields oldDoc newDoc)
  | .rebuilding inst shadow concurrentModified true =>
    .rebuilding (inst.replace fields oldDoc newDoc) shadow concurrentModified true
  | .rebuilding inst shadow concurrentModified false =>
    let t := track concurrentModified oldDoc newDoc
    .rebuilding (inst.replace fields oldDoc newDoc)
      (if t.shouldSkipShadow then shadow else shadow.replace fields oldDoc newDoc)
      t.concurrentModified t.overflow

end FtsIndexState

/-! ## The backend -/

structure FtsDir where
  contentFields : List String
  entries : String → List FtsEntry

structure FtsIndex where
  instances : AList fun _ : FtsKey => FtsIndexState
  dirs : FtsKey → Option FtsDir
  /-- Names in the registry of analyzers. -/
  analyzers : List String

def defaultAnalyzer : String := "standard"

/-- `{}_fts` of the sorted fields. -/
def ftsIndexName (fields : List String) : String :=
  "_".intercalate (sortedFields fields) ++ "_fts"

/-- `{}_shadow` -/
def shadowKey (key : FtsKey) : FtsKey := (key.1, key.2 ++ "_shadow")

/-- Where an operation of the library or of the file system can fail. -/
inductive FtsPoint where
  | removeStale
  | createShadow
  | addDocument
  | forceCommit
  /-- Somebody else holds a reference to an instance. -/
  | inUse
  | stopActive
  | stopShadow
  | removeActive
  | rename
  | reopen
  | reload
  deriving DecidableEq, Repr

/-- The error of each operation that fails. -/
abbrev FtsFaults := FtsPoint → Option StorageError

/-- Nothing fails. -/
def FtsFaults.none : FtsFaults := fun _ => .none

/-- Go on unless the operation fails. -/
def FtsFaults.at {σ α : Type} (faults : FtsFaults) (point : FtsPoint) (s : σ)
    (go : σ × Except StorageError α) : σ × Except StorageError α :=
  match faults point with
  | some e => (s, .error e)
  | .none => go

namespace FtsIndex

def setState (s : FtsIndex) (key : FtsKey) (state : FtsIndexState) : FtsIndex :=
  { s with instances := s.instances.insert key state }

def setDir (s : FtsIndex) (key : FtsKey) (dir : Option FtsDir) : FtsIndex :=
  { s with dirs := Function.update s.dirs key dir }

/-- The analyzers are looked up after the index is opened. -/
def withAnalyzer (s : FtsIndex) (analyzer : String) (inst : FtsInstance) :
    Except StorageError FtsInstance :=
  if analyzer ∈ s.analyzers then .ok inst
  else .error (.index ("Unknown analyzer: " ++ analyzer))

/-- `FtsIndexInstance::new`: the directory is opened or created. -/
def newInstance (s : FtsIndex) (key : FtsKey) (fields : List String) (analyzer : String) :
    FtsIndex × Except StorageError FtsInstance :=
  let dir := (s.dirs key).getD ⟨fields, fun _ => []⟩
  (s.setDir key (some dir), s.withAnalyzer analyzer ⟨fields, analyzer, dir.entries⟩)

/-- `FtsIndexInstance::open` -/
def openInstance (s : FtsIndex) (dir : FtsDir) (analyzer : String) :
    Except StorageError FtsInstance :=
  s.withAnalyzer analyzer ⟨dir.contentFields, analyzer, dir.entries⟩

def getIndex (s : FtsIndex) (collection indexName : String) : Option FtsInstance :=
  (s.instances.lookup (collection, indexName)).map FtsIndexState.searched

/-- The instance that a search reads. -/
def search (s : FtsIndex) (collection indexName : String) : Except StorageError FtsInstance :=
  match s.instances.lookup (collection, indexName) with
  | none => .error (.index ("FTS index " ++ collection ++ "." ++ indexName ++ " not found"))
  | some state => .ok state.searched

def getOrCreateIndex (s : FtsIndex) (collection indexName : String) (fields : List String)
    (analyzerName : Option String) : FtsIndex × Except StorageError FtsInstance :=
  match s.instances.lookup (collection, indexName) with
  | some state => (s, .ok state.searched)
  | none =>
    let (s, opened) := s.newInstance (collection, indexName) fields
      (analyzerName.getD defaultAnalyzer)
    match opened with
    | .error e => (s, .error e)
    | .ok inst => (s.setState (collection, indexName) (.active inst), .ok inst)

/-- A commit of the instance in a directory. -/
def saveDir (dirs : FtsKey → Option FtsDir) (key : FtsKey) (inst : FtsInstance) :
    FtsKey → Option FtsDir :=
  Function.update dirs key ((dirs key).map fun dir => { dir with entries := inst.entries })

def saveState (dirs : FtsKey → Option FtsDir) (key : FtsKey) :
    FtsIndexState → FtsKey → Option FtsDir
  | .active inst => saveDir dirs key inst
  | .rebuilding active shadow _ _ => saveDir (saveDir dirs key active) (shadowKey key) shadow

def commitAll (s : FtsIndex) : FtsIndex :=
  { s with dirs := s.instances.foldl saveState s.dirs }

/-- Move a build into place and open it there. -/
def promoteBuild (s : FtsIndex) (collection buildName indexName : String)
    (analyzerName : Option String) : FtsIndex × Except StorageError Unit :=
  let buildKey := (collection, buildName)
  let key := (collection, indexName)
  match s.instances.lookup buildKey with
  | some (.rebuilding ..) => (s, .error (.index "temporary FTS build is rebuilding"))
  | none =>
    (s, .error (.index ("FTS build " ++ collection ++ "." ++ buildName ++ " not found")))
  | some (.active inst) =>
    let dirs := saveDir s.dirs buildKey inst
    let s := { s with instances := s.instances.erase buildKey, dirs := dirs }
    match s.dirs buildKey with
    | none => (s, .error (.other "Failed to publish FTS index directory"))
    | some dir =>
      let s := (s.setDir buildKey none).setDir key (some dir)
      match s.openInstance dir (analyzerName.getD defaultAnalyzer) with
      | .error e => (s, .error e)
      | .ok inst => (s.setState key (.active inst), .ok ())

/-- Open an index at startup, if it is there. -/
def openExisting (s : FtsIndex) (collection indexName : String) (analyzerName : Option String) :
    FtsIndex × Except StorageError Bool :=
  let key := (collection, indexName)
  if key ∈ s.instances then (s, .ok true)
  else
    match s.dirs key with
    | none => (s, .ok false)
    | some dir =>
      match s.openInstance dir (analyzerName.getD defaultAnalyzer) with
      | .error e => (s, .error e)
      | .ok inst => (s.setState key (.active inst), .ok true)

/-- `remove_index`, when nobody else uses the instances. -/
def removeIndex (s : FtsIndex) (collection indexName : String) : FtsIndex :=
  let key := (collection, indexName)
  { s with instances := s.instances.erase key, dirs := Function.update s.dirs key none }

/-! ## REINDEX -/

/-- Make an empty shadow. What an interrupted rebuild has left there is removed. -/
def startReindex (s : FtsIndex) (faults : FtsFaults) (collection indexName : String)
    (fields : List String) (analyzerName : Option String) : FtsIndex × Except StorageError Unit :=
  let key := (collection, indexName)
  match s.instances.lookup key with
  | some (.rebuilding ..) => (s, .error (.index "REINDEX already in progress for this index"))
  | none => (s, .error (.index ("Index " ++ collection ++ "." ++ indexName ++ " not found")))
  | some (.active inst) =>
    faults.at .removeStale s <|
      let s := s.setDir (shadowKey key) none
      faults.at .createShadow s <|
        match s.newInstance (shadowKey key) fields (analyzerName.getD inst.analyzerName) with
        | (s, .error e) => (s, .error e)
        | (s, .ok shadow) => (s.setState key (.rebuilding inst shadow [] false), .ok ())

def reindexAborted : StorageError := .index "REINDEX aborted: too many concurrent modifications"

def noReindex : StorageError := .index "No reindex in progress"

section

variable [External] [Formats]

/-- Returns whether a rebuild is in progress. -/
def indexToShadow (s : FtsIndex) (faults : FtsFaults) (collection indexName : String)
    (doc : Document) (fields : List String) : FtsIndex × Except StorageError Bool :=
  let key := (collection, indexName)
  match s.instances.lookup key with
  | some (.rebuilding active shadow concurrentModified overflow) =>
    if overflow then (s, .error reindexAborted)
    -- a write of the document during the rebuild goes before its snapshot
    else if doc.id ∈ concurrentModified then (s, .ok true)
    else
      let shadow := shadow.deleteDoc doc.id
      faults.at .addDocument
        (s.setState key (.rebuilding active shadow concurrentModified overflow))
        (s.setState key
          (.rebuilding active (shadow.indexDoc fields doc) concurrentModified overflow), .ok true)
  | _ => (s, .ok false)

/-- `IndexBackend::update_document` -/
def updateDocument (s : FtsIndex) (fields : List String) (oldDoc newDoc : Option Document) :
    FtsIndex × Except StorageError Unit :=
  match (oldDoc.map Document.collection).or (newDoc.map Document.collection) with
  | none => (s, .ok ())
  | some collection =>
    let indexName := ftsIndexName fields
    let key := (collection, indexName)
    match s.instances.lookup key with
    | some state => (s.setState key (state.update fields oldDoc newDoc), .ok ())
    | none =>
      match newDoc with
      | none => (s, .ok ())
      | some new =>
        match s.getOrCreateIndex collection indexName fields none with
        | (s, .error e) => (s, .error e)
        | (s, .ok inst) => (s.setState key (.active (inst.indexDoc fields new)), .ok ())

end

/-- The file operations of the swap, after the index is taken out of the map. -/
def moveShadow (s : FtsIndex) (faults : FtsFaults) (key : FtsKey) (shadow : FtsInstance) :
    FtsIndex × Except StorageError Unit :=
  faults.at .stopActive s <| faults.at .stopShadow s <| faults.at .removeActive s <|
    let s := s.setDir key none
    faults.at .rename s <|
      match s.dirs (shadowKey key) with
      | none => (s, .error (.other "Failed to rename shadow index"))
      | some dir =>
        let s := (s.setDir (shadowKey key) none).setDir key (some dir)
        faults.at .reopen s <|
          match s.openInstance dir shadow.analyzerName with
          | .error e => (s, .error e)
          | .ok inst => faults.at .reload s (s.setState key (.active inst), .ok ())

/-- Put the shadow in the place of the active instance. -/
def finishReindex (s : FtsIndex) (faults : FtsFaults) (collection indexName : String) :
    FtsIndex × Except StorageError Unit :=
  let key := (collection, indexName)
  match s.instances.lookup key with
  | some (.rebuilding active shadow concurrentModified overflow) =>
    if overflow then (s, .error reindexAborted)
    else faults.at .forceCommit s <|
      let s := { s with dirs := saveDir s.dirs (shadowKey key) shadow }
      let removed := { s with instances := s.instances.erase key }
      match faults .inUse with
      | some _ =>
        (removed.setState key (.rebuilding active shadow concurrentModified overflow),
          .error (.conflict "FTS index lifecycle changed during REINDEX"))
      | none => removed.moveShadow faults key shadow
  | _ => (s, .error noReindex)

def cancelReindex (s : FtsIndex) (collection indexName : String) : FtsIndex :=
  let key := (collection, indexName)
  match s.instances.lookup key with
  | some (.rebuilding active ..) => (s.setState key (.active active)).setDir (shadowKey key) none
  | _ => s

end FtsIndex

/-! ## What the operations do -/

theorem shadowKey_ne (key : FtsKey) : shadowKey key ≠ key := by
  intro h
  have hlen := congrArg (fun k : FtsKey => k.2.toList.length) h
  simp [shadowKey, String.toList_append] at hlen

namespace FtsInstance

/-- Both versions name the document, if they are there. -/
theorem deleteFor_eq (inst : FtsInstance) {oldDoc newDoc : Option Document} {docId : String}
    (hold : ∀ d, oldDoc = some d → d.id = docId) (hnew : ∀ d, newDoc = some d → d.id = docId)
    (hpresent : oldDoc.isSome ∨ newDoc.isSome) :
    inst.deleteFor oldDoc newDoc = inst.deleteDoc docId := by
  unfold deleteFor
  cases oldDoc with
  | some old => exact congrArg inst.deleteDoc (hold old rfl)
  | none =>
    cases newDoc with
    | some new => exact congrArg inst.deleteDoc (hnew new rfl)
    | none => simp at hpresent

/-- An update leaves the entry of the new version and touches no other document. -/
theorem replace_entries [External] [Formats] (inst : FtsInstance) (fields : List String)
    {oldDoc newDoc : Option Document} {docId : String}
    (hold : ∀ d, oldDoc = some d → d.id = docId) (hnew : ∀ d, newDoc = some d → d.id = docId)
    (hpresent : oldDoc.isSome ∨ newDoc.isSome) (docId' : String) :
    (inst.replace fields oldDoc newDoc).entries docId' =
      if docId' = docId then newDoc.toList.map (ftsEntry inst.contentFields fields)
      else inst.entries docId' := by
  unfold replace
  rw [inst.deleteFor_eq hold hnew hpresent]
  cases newDoc with
  | none => exact Function.update_apply ..
  | some new =>
    obtain rfl := hnew new rfl
    show Function.update (Function.update inst.entries new.id []) new.id
      (Function.update inst.entries new.id [] new.id ++ _) docId' = _
    rw [Function.update_idem, Function.update_self]
    exact Function.update_apply ..

end FtsInstance

theorem FtsFaults.at_of_ok {σ α : Type} {faults : FtsFaults} {point : FtsPoint} {s : σ}
    {go : σ × Except StorageError α} {a : α} (h : (faults.at point s go).2 = .ok a) :
    faults.at point s go = go := by
  unfold FtsFaults.at at h ⊢
  cases hfault : faults point with
  | none => rfl
  | some e =>
    rw [hfault] at h
    cases h

theorem FtsFaults.at_cases {σ α : Type} (faults : FtsFaults) (point : FtsPoint) (s : σ)
    (go : σ × Except StorageError α) :
    (∃ e, faults.at point s go = (s, .error e)) ∨ faults.at point s go = go := by
  unfold FtsFaults.at
  cases faults point with
  | none => exact Or.inr rfl
  | some e => exact Or.inl ⟨e, rfl⟩

namespace FtsIndex

variable {s : FtsIndex} {collection indexName : String}

@[simp] theorem lookup_setState (s : FtsIndex) (key : FtsKey) (state : FtsIndexState) :
    (s.setState key state).instances.lookup key = some state := AList.lookup_insert _

theorem lookup_setState_ne (s : FtsIndex) {key key' : FtsKey} (state : FtsIndexState)
    (hne : key' ≠ key) : (s.setState key state).instances.lookup key' = s.instances.lookup key' :=
  AList.lookup_insert_ne hne

theorem withAnalyzer_ok {analyzer : String} {inst inst' : FtsInstance}
    (h : s.withAnalyzer analyzer inst = .ok inst') : analyzer ∈ s.analyzers ∧ inst' = inst := by
  unfold withAnalyzer at h
  split at h
  · next hmem => exact ⟨hmem, (Except.ok.inj h).symm⟩
  · cases h

theorem saveDir_self (dirs : FtsKey → Option FtsDir) (key : FtsKey) (inst : FtsInstance) :
    saveDir dirs key inst key = (dirs key).map fun dir => { dir with entries := inst.entries } :=
  Function.update_self ..

theorem saveState_self (dirs : FtsKey → Option FtsDir) (key : FtsKey) (state : FtsIndexState) :
    saveState dirs key state key =
      (dirs key).map fun dir => { dir with entries := state.searched.entries } := by
  cases state with
  | active inst => exact saveDir_self ..
  | rebuilding inst shadow modified overflow =>
    exact (Function.update_of_ne (shadowKey_ne key).symm ..).trans (saveDir_self ..)

theorem saveState_other (dirs : FtsKey → Option FtsDir) {key key' : FtsKey}
    (state : FtsIndexState) (hne : key' ≠ key) (hshadow : key' ≠ shadowKey key) :
    saveState dirs key state key' = dirs key' := by
  cases state with
  | active inst => exact Function.update_of_ne hne ..
  | rebuilding inst shadow modified overflow =>
    exact (Function.update_of_ne hshadow ..).trans (Function.update_of_ne hne ..)

/-- A commit brings the entries of an index to its directory, which is no shadow. -/
theorem commitAll_dirs (s : FtsIndex) {key : FtsKey} {state : FtsIndexState}
    (h : s.instances.lookup key = some state) (hplain : ∀ key', key ≠ shadowKey key') :
    s.commitAll.dirs key =
      (s.dirs key).map fun dir => { dir with entries := state.searched.entries } := by
  have hfold : ∀ (entries : List ((_ : FtsKey) × FtsIndexState)) (dirs : FtsKey → Option FtsDir),
      entries.NodupKeys →
      entries.foldl (fun dirs e => saveState dirs e.1 e.2) dirs key =
        match entries.dlookup key with
        | some state => (dirs key).map fun dir => { dir with entries := state.searched.entries }
        | none => dirs key := by
    intro entries
    induction entries with
    | nil => exact fun _ _ => rfl
    | cons e entries ih =>
      intro dirs hnodup
      rw [List.nodupKeys_cons] at hnodup
      rw [List.foldl_cons, ih _ hnodup.2]
      by_cases hkey : key = e.1
      · subst hkey
        rw [List.dlookup_eq_none.mpr hnodup.1, List.dlookup_cons_eq]
        exact saveState_self ..
      · rw [List.dlookup_cons_ne _ _ hkey, saveState_other _ _ hkey (hplain _)]
  have hdirs := hfold s.instances.entries s.dirs s.instances.nodupKeys
  rw [show s.instances.entries.dlookup key = some state from h] at hdirs
  exact hdirs

theorem moveShadow_ok {faults : FtsFaults} {key : FtsKey} {shadow : FtsInstance}
    (h : (s.moveShadow faults key shadow).2 = .ok ()) :
    ∃ dir, s.dirs (shadowKey key) = some dir ∧
      (s.moveShadow faults key shadow).1 =
        (((s.setDir key none).setDir (shadowKey key) none).setDir key (some dir)).setState key
          (.active ⟨dir.contentFields, shadow.analyzerName, dir.entries⟩) := by
  unfold moveShadow at h ⊢
  have hactive := FtsFaults.at_of_ok h
  rw [hactive] at h ⊢
  have hshadow := FtsFaults.at_of_ok h
  rw [hshadow] at h ⊢
  have hremoved := FtsFaults.at_of_ok h
  rw [hremoved] at h ⊢
  dsimp only at h ⊢
  have hrenamed := FtsFaults.at_of_ok h
  rw [hrenamed] at h ⊢
  rw [show (s.setDir key none).dirs (shadowKey key) = s.dirs (shadowKey key) from
    Function.update_of_ne (shadowKey_ne key) ..] at h ⊢
  cases hdir : s.dirs (shadowKey key) with
  | none =>
    rw [hdir] at h
    cases h
  | some dir =>
    rw [hdir] at h
    dsimp only at h ⊢
    have hreopened := FtsFaults.at_of_ok h
    rw [hreopened] at h ⊢
    cases hopen : openInstance _ dir shadow.analyzerName with
    | error e =>
      rw [hopen] at h
      cases h
    | ok inst =>
      rw [hopen] at h
      dsimp only at h ⊢
      rw [FtsFaults.at_of_ok h, (withAnalyzer_ok hopen).2]
      exact ⟨dir, rfl, rfl⟩

/-- A promoted build: the index under the final name has the entries of the build. -/
theorem promoteBuild_ok {s' : FtsIndex} {buildName : String} {analyzer : Option String}
    {inst : FtsInstance} {dir : FtsDir}
    (hbuild : s.instances.lookup (collection, buildName) = some (.active inst))
    (hdir : s.dirs (collection, buildName) = some dir)
    (h : s.promoteBuild collection buildName indexName analyzer = (s', .ok ())) :
    s'.instances.lookup (collection, indexName) =
        some (.active ⟨dir.contentFields, analyzer.getD defaultAnalyzer, inst.entries⟩) ∧
      s'.dirs (collection, indexName) = some ⟨dir.contentFields, inst.entries⟩ ∧
      s'.analyzers = s.analyzers := by
  unfold promoteBuild at h
  dsimp only at h
  rw [hbuild] at h
  dsimp only at h
  rw [saveDir_self, hdir] at h
  dsimp only [Option.map_some] at h
  split at h
  · cases h
  · next hopen =>
    obtain ⟨-, rfl⟩ := withAnalyzer_ok hopen
    obtain ⟨rfl, -⟩ := Prod.mk.inj h
    exact ⟨AList.lookup_insert _, Function.update_self .., rfl⟩

/-- Nothing that fails, and a rebuild to finish. -/
theorem finishReindex_none {active shadow : FtsInstance} {modified : List String} {dir : FtsDir}
    (hlookup : s.instances.lookup (collection, indexName) =
      some (.rebuilding active shadow modified false))
    (hdir : s.dirs (shadowKey (collection, indexName)) = some dir)
    (hknown : shadow.analyzerName ∈ s.analyzers) :
    (s.finishReindex .none collection indexName).2 = .ok () := by
  have hsaved : Function.update (saveDir s.dirs (shadowKey (collection, indexName)) shadow)
      (collection, indexName) none (shadowKey (collection, indexName)) =
        some { dir with entries := shadow.entries } := by
    rw [Function.update_of_ne (shadowKey_ne _), saveDir_self, hdir]
    rfl
  unfold finishReindex
  dsimp only
  rw [hlookup]
  simp only [Bool.false_eq_true, if_false, FtsFaults.at, FtsFaults.none, moveShadow, setDir]
  rw [hsaved]
  simp [openInstance, withAnalyzer, hknown]

/-- A finished REINDEX: the index has the entries of the shadow, and so has its directory. -/
theorem finishReindex_ok {faults : FtsFaults}
    (h : (s.finishReindex faults collection indexName).2 = .ok ()) :
    ∃ active shadow modified dir,
      s.instances.lookup (collection, indexName) =
        some (.rebuilding active shadow modified false) ∧
      s.dirs (shadowKey (collection, indexName)) = some dir ∧
      (s.finishReindex faults collection indexName).1.instances.lookup (collection, indexName) =
        some (.active ⟨dir.contentFields, shadow.analyzerName, shadow.entries⟩) ∧
      (s.finishReindex faults collection indexName).1.dirs (collection, indexName) =
        some ⟨dir.contentFields, shadow.entries⟩ ∧
      (s.finishReindex faults collection indexName).1.analyzers = s.analyzers := by
  unfold finishReindex at h ⊢
  dsimp only at h ⊢
  cases hlookup : s.instances.lookup (collection, indexName) with
  | none =>
    rw [hlookup] at h
    cases h
  | some state =>
    rw [hlookup] at h
    cases state with
    | active inst => cases h
    | rebuilding active shadow modified overflow =>
      dsimp only at h ⊢
      cases overflow with
      | true => cases h
      | false =>
        rw [if_neg Bool.false_ne_true] at h ⊢
        have hcommitted := FtsFaults.at_of_ok h
        rw [hcommitted] at h ⊢
        cases hfree : faults .inUse with
        | some e =>
          rw [hfree] at h
          cases h
        | none =>
          rw [hfree] at h
          dsimp only at h ⊢
          obtain ⟨dir', hdir', hmoved⟩ := moveShadow_ok h
          rw [hmoved]
          have hdir := (saveDir_self s.dirs _ shadow).symm.trans hdir'
          obtain ⟨dir, hsome, rfl⟩ := Option.map_eq_some_iff.mp hdir
          exact ⟨active, shadow, modified, dir, rfl, hsome, AList.lookup_insert _,
            Function.update_self .., rfl⟩

theorem getOrCreateIndex_other (s : FtsIndex) {collection indexName : String}
    (fields : List String) (analyzer : Option String) {key : FtsKey}
    (hne : key ≠ (collection, indexName)) :
    (s.getOrCreateIndex collection indexName fields analyzer).1.instances.lookup key =
        s.instances.lookup key ∧
    (s.getOrCreateIndex collection indexName fields analyzer).1.analyzers = s.analyzers := by
  unfold getOrCreateIndex
  split
  · exact ⟨rfl, rfl⟩
  · dsimp only [newInstance]
    split
    · exact ⟨rfl, rfl⟩
    · exact ⟨lookup_setState_ne _ _ hne, rfl⟩

theorem startReindex_cases (s : FtsIndex) (faults : FtsFaults) (collection indexName : String)
    (fields : List String) (analyzer : Option String) :
    (s.startReindex faults collection indexName fields analyzer).1.analyzers = s.analyzers ∧
    ((∃ e, (s.startReindex faults collection indexName fields analyzer).2 = .error e) ∧
        (s.startReindex faults collection indexName fields analyzer).1.instances = s.instances ∨
      (s.startReindex faults collection indexName fields analyzer).2 = .ok () ∧
        ∃ inst shadow, s.instances.lookup (collection, indexName) = some (.active inst) ∧
          analyzer.getD inst.analyzerName ∈ s.analyzers ∧
          (s.startReindex faults collection indexName fields analyzer).1.instances.lookup
            (collection, indexName) = some (.rebuilding inst shadow [] false)) := by
  unfold startReindex
  dsimp only
  cases hlookup : s.instances.lookup (collection, indexName) with
  | none => exact ⟨rfl, Or.inl ⟨⟨_, rfl⟩, rfl⟩⟩
  | some state =>
    cases state with
    | rebuilding => exact ⟨rfl, Or.inl ⟨⟨_, rfl⟩, rfl⟩⟩
    | active inst =>
      dsimp only
      rcases faults.at_cases .removeStale s _ with ⟨e, heq⟩ | heq
      · rw [heq]
        exact ⟨rfl, Or.inl ⟨⟨_, rfl⟩, rfl⟩⟩
      · rw [heq]
        rcases faults.at_cases .createShadow (s.setDir (shadowKey (collection, indexName)) none) _
          with ⟨e, heq⟩ | heq
        · rw [heq]
          exact ⟨rfl, Or.inl ⟨⟨_, rfl⟩, rfl⟩⟩
        · rw [heq]
          dsimp only [newInstance]
          split
          · next hopen =>
            obtain ⟨rfl, -⟩ := Prod.mk.inj hopen
            exact ⟨rfl, Or.inl ⟨⟨_, rfl⟩, rfl⟩⟩
          · next shadow hopen =>
            obtain ⟨rfl, hshadow⟩ := Prod.mk.inj hopen
            exact ⟨rfl, Or.inr ⟨rfl, inst, shadow, rfl, (withAnalyzer_ok hshadow).1,
              lookup_setState ..⟩⟩

/-- A REINDEX begins with an empty shadow. -/
theorem startReindex_none (fields : List String) {inst : FtsInstance} {analyzer : Option String}
    (hactive : s.instances.lookup (collection, indexName) = some (.active inst))
    (hknown : analyzer.getD inst.analyzerName ∈ s.analyzers) :
    s.startReindex .none collection indexName fields analyzer =
      (((s.setDir (shadowKey (collection, indexName)) none).setDir
          (shadowKey (collection, indexName)) (some ⟨fields, fun _ => []⟩)).setState
            (collection, indexName)
            (.rebuilding inst ⟨fields, analyzer.getD inst.analyzerName, fun _ => []⟩ [] false),
        .ok ()) := by
  unfold startReindex
  dsimp only
  rw [hactive]
  simp [FtsFaults.at, FtsFaults.none, newInstance, withAnalyzer, setDir, setState, hknown]

/-- A REINDEX can be started if the index is active and its analyzer known. -/
theorem startReindex_none_ok (s : FtsIndex) (collection indexName : String)
    (fields : List String) (analyzer : Option String) :
    (s.startReindex .none collection indexName fields analyzer).2 = .ok () ↔
      ∃ inst, s.instances.lookup (collection, indexName) = some (.active inst) ∧
        analyzer.getD inst.analyzerName ∈ s.analyzers := by
  constructor
  · intro hok
    rcases (s.startReindex_cases .none collection indexName fields analyzer).2 with
      ⟨⟨e, herror⟩, -⟩ | ⟨-, inst, shadow, hactive, hknown, -⟩
    · rw [hok] at herror
      cases herror
    · exact ⟨inst, hactive, hknown⟩
  · rintro ⟨inst, hactive, hknown⟩
    rw [startReindex_none fields hactive hknown]

theorem moveShadow_error (s : FtsIndex) (faults : FtsFaults) (key : FtsKey) (shadow : FtsInstance)
    {e : StorageError} (h : (s.moveShadow faults key shadow).2 = .error e) :
    (s.moveShadow faults key shadow).1.instances = s.instances := by
  unfold moveShadow at h ⊢
  rcases faults.at_cases .stopActive s _ with ⟨e', heq⟩ | heq
  · rw [heq]
  rw [heq] at h ⊢
  rcases faults.at_cases .stopShadow s _ with ⟨e', heq⟩ | heq
  · rw [heq]
  rw [heq] at h ⊢
  rcases faults.at_cases .removeActive s _ with ⟨e', heq⟩ | heq
  · rw [heq]
  rw [heq] at h ⊢
  dsimp only at h ⊢
  rcases faults.at_cases .rename (s.setDir key none) _ with ⟨e', heq⟩ | heq
  · rw [heq]
    rfl
  rw [heq] at h ⊢
  cases hdir : (s.setDir key none).dirs (shadowKey key) with
  | none => rfl
  | some dir =>
    rw [hdir] at h
    dsimp only at h ⊢
    rcases faults.at_cases .reopen
      (((s.setDir key none).setDir (shadowKey key) none).setDir key (some dir)) _ with
      ⟨e', heq⟩ | heq
    · rw [heq]
      rfl
    rw [heq] at h ⊢
    cases hopen : openInstance _ dir shadow.analyzerName with
    | error e' => rfl
    | ok inst =>
      rw [hopen] at h
      dsimp only at h ⊢
      rcases faults.at_cases .reload
        (((s.setDir key none).setDir (shadowKey key) none).setDir key (some dir))
        ((((s.setDir key none).setDir (shadowKey key) none).setDir key (some dir)).setState key
          (.active inst), .ok ()) with ⟨e', heq⟩ | heq
      · rw [heq]
        rfl
      · rw [heq] at h
        cases h

/-- When `finish_reindex` returns an error during a rebuild, the index is not active. -/
theorem finishReindex_error {s : FtsIndex} {faults : FtsFaults} {collection indexName : String}
    {active shadow : FtsInstance} {modified : List String} {overflow : Bool}
    (hlookup : s.instances.lookup (collection, indexName) =
      some (.rebuilding active shadow modified overflow)) {e : StorageError}
    (h : (s.finishReindex faults collection indexName).2 = .error e) (inst : FtsInstance) :
    (s.finishReindex faults collection indexName).1.instances.lookup (collection, indexName) ≠
      some (.active inst) := by
  have hrebuilding : s.instances.lookup (collection, indexName) ≠ some (.active inst) := by
    rw [hlookup]
    nofun
  unfold finishReindex at h ⊢
  dsimp only at h ⊢
  rw [hlookup] at h ⊢
  dsimp only at h ⊢
  split at h
  · next hover =>
    rw [if_pos hover]
    exact hrebuilding
  · next hover =>
    rw [if_neg hover]
    rcases faults.at_cases .forceCommit s _ with ⟨e', heq⟩ | heq
    · rw [heq]
      exact hrebuilding
    · rw [heq] at h ⊢
      cases hfree : faults .inUse with
      | some e' =>
        dsimp only
        rw [lookup_setState]
        nofun
      | none =>
        rw [hfree] at h
        dsimp only at h ⊢
        rw [moveShadow_error _ _ _ _ h]
        show AList.lookup _ (s.instances.erase _) ≠ _
        rw [AList.lookup_erase]
        nofun

end FtsIndex

/-! ## Documents -/

/-- The documents of a collection, under their ids. -/
structure DocStore where
  docs : Keyspace Document
  keyed : ∀ {k : Bytes} {doc : Document}, docs[k]? = some doc → utf8 doc.id = k

namespace DocStore

def get (s : DocStore) (docId : String) : Option Document := s.docs[utf8 docId]?

def put (s : DocStore) (doc : Document) : DocStore where
  docs := s.docs.insert (utf8 doc.id) doc
  keyed := by
    intro k d h
    rw [getElem?_insert_eq] at h
    split at h
    · next hk =>
      cases h
      exact hk
    · exact s.keyed h

def remove (s : DocStore) (docId : String) : DocStore where
  docs := s.docs.erase (utf8 docId)
  keyed := by
    intro k d h
    rw [getElem?_erase_eq] at h
    split at h
    · cases h
    · exact s.keyed h

/-- What an iterator over the collection yields. -/
def all (s : DocStore) : List Document := s.docs.toList.map Prod.snd

theorem get_put (s : DocStore) (doc : Document) (docId : String) :
    (s.put doc).get docId = if doc.id = docId then some doc else s.get docId := by
  unfold get put
  rw [getElem?_insert_eq]
  simp only [utf8_inj]

theorem get_remove (s : DocStore) (docId docId' : String) :
    (s.remove docId).get docId' = if docId = docId' then none else s.get docId' := by
  unfold get remove
  rw [getElem?_erase_eq]
  simp only [utf8_inj]

theorem id_of_get {s : DocStore} {docId : String} {doc : Document} (h : s.get docId = some doc) :
    doc.id = docId := utf8_injective (s.keyed h)

theorem mem_all {s : DocStore} {doc : Document} : doc ∈ s.all ↔ s.get doc.id = some doc := by
  unfold all get
  rw [List.mem_map]
  constructor
  · rintro ⟨⟨k, d⟩, hmem, rfl⟩
    have hget := Std.ExtTreeMap.mem_toList_iff_getElem?_eq_some.mp hmem
    rw [s.keyed hget]
    exact hget
  · intro hget
    exact ⟨(_, doc), Std.ExtTreeMap.mem_toList_iff_getElem?_eq_some.mpr hget, rfl⟩

theorem nodup_all (s : DocStore) : (s.all.map Document.id).Nodup := by
  unfold all
  rw [List.map_map, List.Nodup, List.pairwise_map]
  refine (Std.ExtTreeMap.distinct_keys_toList (t := s.docs)).imp_of_mem ?_
  intro a b ha hb hne heq
  have hka := s.keyed (Std.ExtTreeMap.mem_toList_iff_getElem?_eq_some.mp ha)
  have hkb := s.keyed (Std.ExtTreeMap.mem_toList_iff_getElem?_eq_some.mp hb)
  refine hne ?_
  rw [← hka, ← hkb, show a.2.id = b.2.id from heq]
  exact Std.ReflCmp.compare_self

end DocStore

end StellarDb
