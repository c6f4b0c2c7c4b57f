import StellarDb.Indexes.FullText

/-!
# StellarDb — a REINDEX that fails (`query/execute/ddl.rs`, `storage/indexes/fts.rs`)

`reindex_single` of a full-text index, with writes between its steps and a failure of any
operation. An error before `finish_reindex` cancels the rebuild, and the index has what it had
and what the writes brought (`reindexSingle_error`). An error of `finish_reindex` cancels nothing:
the index stays in the state of a rebuild, or is not registered at all.
-/

namespace StellarDb

/-! ## Writes -/

/-- A call of `update_document`. -/
structure FtsWrite where
  fields : List String
  oldDoc : Option Document
  newDoc : Option Document

/-- The index that a write is about. -/
def FtsWrite.key (w : FtsWrite) : Option FtsKey :=
  ((w.oldDoc.map Document.collection).or (w.newDoc.map Document.collection)).map
    fun collection => (collection, ftsIndexName w.fields)

section Reindex

variable [External] [Formats]

def FtsIndex.applyWrites (s : FtsIndex) (writes : List FtsWrite) : FtsIndex :=
  writes.foldl (fun s w => (s.updateDocument w.fields w.oldDoc w.newDoc).1) s

/-! ## The statement -/

/-- Where an error comes from. -/
inductive ReindexPoint where
  | start
  | openIterator
  | readDocument
  | checkStored
  | indexDocument
  | finish
  deriving DecidableEq, Repr

/-- One step of the iterator, and what happens until the document is in the shadow. -/
structure ReindexItem where
  /-- Writes before the document is read. -/
  beforeRead : List FtsWrite
  read : Except StorageError Document
  /-- Whether `get` still finds it. -/
  stored : Except StorageError Bool
  beforeIndex : List FtsWrite
  faults : FtsFaults

/-- What a REINDEX meets with. -/
structure ReindexEnv where
  startFaults : FtsFaults
  afterStart : List FtsWrite
  openError : Option StorageError
  items : List ReindexItem
  beforeCancel : List FtsWrite
  beforeFinish : List FtsWrite
  finishFaults : FtsFaults

/-- The backend, and the writes since the start. -/
structure Reindexing where
  index : FtsIndex
  writes : List FtsWrite

def Reindexing.write (s : Reindexing) (writes : List FtsWrite) : Reindexing where
  index := s.index.applyWrites writes
  writes := s.writes ++ writes

def Reindexing.setIndex (s : Reindexing) (index : FtsIndex) : Reindexing :=
  { s with index := index }

abbrev ReindexResult (α : Type) := Except (ReindexPoint × StorageError) α

/-- "state changed unexpectedly" -/
def stateChanged (docId : String) : StorageError :=
  .other ("Failed to index document " ++ docId ++ " to shadow - state changed unexpectedly")

/-- The loop over the documents, with their number so far. -/
def buildShadow (collection indexName : String) (fields : List String) :
    Reindexing → Nat → List ReindexItem → Reindexing × ReindexResult Nat
  | s, count, [] => (s, .ok count)
  | s, count, item :: items =>
    let s := s.write item.beforeRead
    match item.read with
    | .error e => (s, .error (.readDocument, e))
    | .ok doc =>
      match item.stored with
      | .error e => (s, .error (.checkStored, e))
      | .ok false => buildShadow collection indexName fields s count items
      | .ok true =>
        let s := s.write item.beforeIndex
        match s.index.indexToShadow item.faults collection indexName doc fields with
        | (index, .error e) => (s.setIndex index, .error (.indexDocument, e))
        | (index, .ok false) => (s.setIndex index, .error (.indexDocument, stateChanged doc.id))
        | (index, .ok true) =>
          buildShadow collection indexName fields (s.setIndex index) (count + 1) items

/-- Open the iterator and go through the documents. -/
def buildFrom (env : ReindexEnv) (collection indexName : String) (fields : List String)
    (s : Reindexing) : Reindexing × ReindexResult Nat :=
  match env.openError with
  | some e => (s, .error (.openIterator, e))
  | none => buildShadow collection indexName fields s 0 env.items

/-- `reindex_single` of a full-text index with these fields and this analyzer. -/
def reindexSingle (s : FtsIndex) (env : ReindexEnv) (collection : String) (fields : List String)
    (analyzer : Option String) : Reindexing × ReindexResult Nat :=
  let indexName := ftsIndexName fields
  match s.startReindex env.startFaults collection indexName fields analyzer with
  | (s, .error e) => (⟨s, []⟩, .error (.start, e))
  | (s, .ok ()) =>
    let s := Reindexing.write ⟨s, []⟩ env.afterStart
    match buildFrom env collection indexName fields s with
    | (s, .ok count) =>
      let s := s.write env.beforeFinish
      match s.index.finishReindex env.finishFaults collection indexName with
      | (index, .ok ()) => (s.setIndex index, .ok count)
      | (index, .error e) => (s.setIndex index, .error (.finish, e))
    | (s, .error e) =>
      let s := s.write env.beforeCancel
      (s.setIndex (s.index.cancelReindex collection indexName), .error e)

/-! ## The active instance during a rebuild -/

namespace FtsIndex

/-- A write changes an index that is open if it is about it. -/
theorem updateDocument_lookup (s : FtsIndex) (w : FtsWrite) {key : FtsKey} {state : FtsIndexState}
    (h : s.instances.lookup key = some state) :
    (s.updateDocument w.fields w.oldDoc w.newDoc).1.instances.lookup key =
        some (if w.key = some key then state.update w.fields w.oldDoc w.newDoc else state) ∧
    (s.updateDocument w.fields w.oldDoc w.newDoc).1.analyzers = s.analyzers := by
  unfold updateDocument FtsWrite.key
  cases (w.oldDoc.map Document.collection).or (w.newDoc.map Document.collection) with
  | none => exact ⟨h, rfl⟩
  | some collection =>
    dsimp only [Option.map_some]
    by_cases hkey : key = (collection, ftsIndexName w.fields)
    · subst hkey
      rw [h, if_pos rfl]
      exact ⟨lookup_setState .., rfl⟩
    · rw [if_neg fun heq => hkey (Option.some.inj heq).symm]
      split
      · exact ⟨(lookup_setState_ne _ _ hkey).trans h, rfl⟩
      · split
        · exact ⟨h, rfl⟩
        · next new =>
          obtain ⟨hlookup, hanalyzers⟩ := s.getOrCreateIndex_other w.fields none hkey
          split
          · next hcreate =>
            rw [hcreate] at hlookup hanalyzers
            exact ⟨hlookup.trans h, hanalyzers⟩
          · next hcreate =>
            rw [hcreate] at hlookup hanalyzers
            exact ⟨(lookup_setState_ne _ _ hkey).trans (hlookup.trans h), hanalyzers⟩

/-- The rebuild keeps the instance that `ref` has. -/
structure Follows (key : FtsKey) (s ref : FtsIndex) : Prop where
  state : ∃ inst shadow modified overflow,
    s.instances.lookup key = some (.rebuilding inst shadow modified overflow) ∧
      ref.instances.lookup key = some (.active inst)
  analyzers : s.analyzers = ref.analyzers

variable {key : FtsKey} {s ref : FtsIndex}

theorem Follows.updateDocument (h : Follows key s ref) (w : FtsWrite) :
    Follows key (s.updateDocument w.fields w.oldDoc w.newDoc).1
      (ref.updateDocument w.fields w.oldDoc w.newDoc).1 := by
  obtain ⟨⟨inst, shadow, modified, overflow, hs, href⟩, hanalyzers⟩ := h
  obtain ⟨hs', hsa⟩ := s.updateDocument_lookup w hs
  obtain ⟨href', hra⟩ := ref.updateDocument_lookup w href
  refine ⟨?_, hsa.trans (hanalyzers.trans hra.symm)⟩
  rw [hs', href']
  split
  · cases overflow with
    | _ => exact ⟨_, _, _, _, rfl, rfl⟩
  · exact ⟨inst, shadow, modified, overflow, rfl, rfl⟩

theorem Follows.applyWrites (h : Follows key s ref) (writes : List FtsWrite) :
    Follows key (s.applyWrites writes) (ref.applyWrites writes) := by
  induction writes generalizing s ref with
  | nil => exact h
  | cons w writes ih => exact ih (h.updateDocument w)

theorem Follows.indexToShadow {collection indexName : String}
    (h : Follows (collection, indexName) s ref) (faults : FtsFaults) (doc : Document)
    (fields : List String) :
    Follows (collection, indexName) (s.indexToShadow faults collection indexName doc fields).1
      ref := by
  obtain ⟨⟨inst, shadow, modified, overflow, hs, href⟩, hanalyzers⟩ := h
  unfold FtsIndex.indexToShadow
  dsimp only
  rw [hs]
  dsimp only
  split
  · exact ⟨⟨inst, shadow, modified, overflow, hs, href⟩, hanalyzers⟩
  · split
    · exact ⟨⟨inst, shadow, modified, overflow, hs, href⟩, hanalyzers⟩
    · rcases faults.at_cases .addDocument _ _ with ⟨e, heq⟩ | heq
      · rw [heq]
        exact ⟨⟨inst, _, modified, overflow, lookup_setState .., href⟩, hanalyzers⟩
      · rw [heq]
        exact ⟨⟨inst, _, modified, overflow, lookup_setState .., href⟩, hanalyzers⟩

end FtsIndex

/-! ## The phases -/

open FtsIndex

/-- The rebuild keeps the instance that the index would have had after the same writes. -/
def Reindexing.Follows (key : FtsKey) (s₀ : FtsIndex) (s : Reindexing) : Prop :=
  FtsIndex.Follows key s.index (s₀.applyWrites s.writes)

theorem applyWrites_append (s : FtsIndex) (writes writes' : List FtsWrite) :
    s.applyWrites (writes ++ writes') = (s.applyWrites writes).applyWrites writes' :=
  List.foldl_append ..

variable {s₀ : FtsIndex} {s : Reindexing} {collection indexName : String} {fields : List String}

theorem Reindexing.Follows.write {key : FtsKey} (h : s.Follows key s₀) (writes : List FtsWrite) :
    (s.write writes).Follows key s₀ := by
  show FtsIndex.Follows key (s.index.applyWrites writes) (s₀.applyWrites (s.writes ++ writes))
  rw [applyWrites_append]
  exact FtsIndex.Follows.applyWrites h writes

theorem Reindexing.Follows.buildShadow {items : List ReindexItem}
    (h : s.Follows (collection, indexName) s₀) (count : Nat) :
    (buildShadow collection indexName fields s count items).1.Follows (collection, indexName) s₀ ∧
    ∀ e, (buildShadow collection indexName fields s count items).2 = .error e →
      e.1 ≠ .start ∧ e.1 ≠ .finish := by
  induction items generalizing s count with
  | nil => exact ⟨h, nofun⟩
  | cons item items ih =>
    have hread := h.write item.beforeRead
    rw [StellarDb.buildShadow]
    dsimp only
    cases item.read with
    | error e =>
      refine ⟨hread, fun e' he' => ?_⟩
      cases he'
      exact ⟨nofun, nofun⟩
    | ok doc =>
      cases item.stored with
      | error e =>
        refine ⟨hread, fun e' he' => ?_⟩
        cases he'
        exact ⟨nofun, nofun⟩
      | ok stored =>
        cases stored with
        | false => exact ih hread count
        | true =>
          have hindex := (hread.write item.beforeIndex).indexToShadow item.faults doc fields
          cases hcall : ((s.write item.beforeRead).write item.beforeIndex).index.indexToShadow
              item.faults collection indexName doc fields with
          | mk index result =>
            rw [hcall] at hindex
            dsimp only
            rw [hcall]
            cases result with
            | error e =>
              refine ⟨hindex, fun e' he' => ?_⟩
              cases he'
              exact ⟨nofun, nofun⟩
            | ok indexed =>
              cases indexed with
              | false =>
                refine ⟨hindex, fun e' he' => ?_⟩
                cases he'
                exact ⟨nofun, nofun⟩
              | true =>
                refine ih ?_ (count + 1)
                exact hindex

theorem Reindexing.Follows.buildFrom (fields : List String) (env : ReindexEnv)
    (h : s.Follows (collection, indexName) s₀) :
    (buildFrom env collection indexName fields s).1.Follows (collection, indexName) s₀ ∧
    ∀ e, (buildFrom env collection indexName fields s).2 = .error e →
      e.1 ≠ .start ∧ e.1 ≠ .finish := by
  unfold StellarDb.buildFrom
  cases env.openError with
  | none => exact h.buildShadow 0
  | some e =>
    refine ⟨h, fun e' he' => ?_⟩
    cases he'
    exact ⟨nofun, nofun⟩

theorem Reindexing.Follows.cancelReindex (h : s.Follows (collection, indexName) s₀) :
    ∃ inst, (s.index.cancelReindex collection indexName).instances.lookup (collection, indexName) =
        some (.active inst) ∧
      (s₀.applyWrites s.writes).instances.lookup (collection, indexName) = some (.active inst) ∧
      (s.index.cancelReindex collection indexName).analyzers =
        (s₀.applyWrites s.writes).analyzers := by
  obtain ⟨⟨inst, shadow, modified, overflow, hs, href⟩, hanalyzers⟩ := h
  unfold FtsIndex.cancelReindex
  dsimp only
  rw [hs]
  exact ⟨inst, lookup_setState .., href, hanalyzers⟩

/-! ## The claim -/

/-- The index is registered, active and exactly as the writes alone would have left it, and a new
REINDEX can be started. -/
def Usable (s₀ : FtsIndex) (collection : String) (fields : List String) (analyzer : Option String)
    (s : Reindexing) : Prop :=
  (∃ inst, s.index.instances.lookup (collection, ftsIndexName fields) = some (.active inst) ∧
    (s₀.applyWrites s.writes).instances.lookup (collection, ftsIndexName fields) =
      some (.active inst)) ∧
  (s.index.startReindex .none collection (ftsIndexName fields) fields analyzer).2 = .ok ()

/-- The index is active, and its analyzer is known. -/
def Startable (s : FtsIndex) (collection : String) (fields : List String)
    (analyzer : Option String) : Prop :=
  ∃ inst, s.instances.lookup (collection, ftsIndexName fields) = some (.active inst) ∧
    analyzer.getD inst.analyzerName ∈ s.analyzers

theorem update_analyzerName (state : FtsIndexState) (fields : List String)
    (oldDoc newDoc : Option Document) :
    (state.update fields oldDoc newDoc).searched.analyzerName = state.searched.analyzerName := by
  have hreplace : ∀ inst : FtsInstance,
      (inst.replace fields oldDoc newDoc).analyzerName = inst.analyzerName := by
    intro inst
    unfold FtsInstance.replace FtsInstance.deleteFor
    cases oldDoc with
    | some old =>
      cases newDoc with
      | _ => rfl
    | none =>
      cases newDoc with
      | _ => rfl
  cases state with
  | active inst => exact hreplace inst
  | rebuilding inst shadow modified overflow =>
    cases overflow with
    | _ => exact hreplace inst

/-- Writes keep the analyzer of an active index and the analyzers that are known. -/
theorem applyWrites_startable (s₀ : FtsIndex) (writes : List FtsWrite) {inst inst' : FtsInstance}
    {key : FtsKey} (h : s₀.instances.lookup key = some (.active inst))
    (h' : (s₀.applyWrites writes).instances.lookup key = some (.active inst')) :
    inst'.analyzerName = inst.analyzerName ∧ (s₀.applyWrites writes).analyzers = s₀.analyzers := by
  have hgen : ∀ (writes : List FtsWrite) (s : FtsIndex) (state : FtsIndexState),
      s.instances.lookup key = some state → s.analyzers = s₀.analyzers →
      state.searched.analyzerName = inst.analyzerName →
      ∃ state', (s.applyWrites writes).instances.lookup key = some state' ∧
        state'.searched.analyzerName = inst.analyzerName ∧
        (s.applyWrites writes).analyzers = s₀.analyzers := by
    intro writes
    induction writes with
    | nil => exact fun s state hs ha hn => ⟨state, hs, hn, ha⟩
    | cons w writes ih =>
      intro s state hs ha hn
      obtain ⟨hlookup, hanalyzers⟩ := s.updateDocument_lookup w hs
      refine ih _ _ hlookup (hanalyzers.trans ha) ?_
      split
      · exact (update_analyzerName ..).trans hn
      · exact hn
  obtain ⟨state', hlookup, hname, hanalyzers⟩ := hgen writes s₀ _ h rfl rfl
  obtain rfl : FtsIndexState.active inst' = state' := Option.some.inj (h'.symm.trans hlookup)
  exact ⟨hname, hanalyzers⟩

/-- After an error of `reindex_single` the index is usable exactly if a REINDEX could be started
before and the error does not come from `finish_reindex`. -/
theorem reindexSingle_error (s : FtsIndex) (env : ReindexEnv) (collection : String)
    (fields : List String) (analyzer : Option String) {point : ReindexPoint} {e : StorageError}
    (h : (reindexSingle s env collection fields analyzer).2 = .error (point, e)) :
    Usable s collection fields analyzer (reindexSingle s env collection fields analyzer).1 ↔
      Startable s collection fields analyzer ∧ point ≠ .finish := by
  unfold reindexSingle at h ⊢
  dsimp only at h ⊢
  obtain ⟨hknown, hcases⟩ := s.startReindex_cases env.startFaults collection (ftsIndexName fields)
    fields analyzer
  cases hstart : s.startReindex env.startFaults collection (ftsIndexName fields) fields analyzer with
  | mk started result =>
    rw [hstart] at hknown hcases h
    rcases hcases with ⟨⟨e', rfl⟩, hsame⟩ | ⟨rfl, inst, shadow, hactive, hanalyzer, hrebuilding⟩
    · -- nothing has been started
      cases h
      dsimp only at hsame hknown ⊢
      unfold Usable Startable
      rw [startReindex_none_ok]
      dsimp only
      rw [hsame, hknown]
      refine ⟨fun hu => ⟨hu.2, nofun⟩, fun hs => ⟨?_, hs.1⟩⟩
      obtain ⟨inst, hinst, -⟩ := hs.1
      exact ⟨inst, hinst, hinst⟩
    · dsimp only at hrebuilding hknown h ⊢
      have hfollows : Reindexing.Follows (collection, ftsIndexName fields) s ⟨started, []⟩ :=
        ⟨⟨inst, shadow, [], false, hrebuilding, hactive⟩, hknown⟩
      obtain ⟨hbuilt, hpoint⟩ := (hfollows.write env.afterStart).buildFrom fields env
      cases hbuild : buildFrom env collection (ftsIndexName fields) fields
          (Reindexing.write ⟨started, []⟩ env.afterStart) with
      | mk built result =>
        rw [hbuild] at hbuilt hpoint h
        cases result with
        | error e' =>
          -- the rebuild is cancelled
          cases h
          dsimp only at hbuilt ⊢
          obtain ⟨inst', hcancelled, hwritten, hanalyzers⟩ :=
            (hbuilt.write env.beforeCancel).cancelReindex
          obtain ⟨hname, hkept⟩ := applyWrites_startable s _ hactive hwritten
          refine iff_of_true ⟨⟨inst', hcancelled, hwritten⟩, ?_⟩
            ⟨⟨inst, hactive, hanalyzer⟩, (hpoint _ rfl).2⟩
          rw [startReindex_none_ok]
          refine ⟨inst', hcancelled, ?_⟩
          rw [hname]
          show _ ∈ (FtsIndex.cancelReindex _ _ _).analyzers
          rw [hanalyzers, hkept]
          exact hanalyzer
        | ok count =>
          dsimp only at hbuilt h ⊢
          obtain ⟨⟨inst', shadow', modified, overflow, hlookup, -⟩, -⟩ :=
            hbuilt.write env.beforeFinish
          cases hfinish : (built.write env.beforeFinish).index.finishReindex env.finishFaults
              collection (ftsIndexName fields) with
          | mk index result =>
            rw [hfinish] at h
            cases result with
            | ok u => cases h
            | error e' =>
              cases h
              refine iff_of_false (fun hu => ?_) fun hs => hs.2 rfl
              obtain ⟨⟨inst'', hinst, -⟩, -⟩ := hu
              refine finishReindex_error hlookup (congrArg Prod.snd hfinish) inst'' ?_
              rw [hfinish]
              exact hinst

/-! ## A REINDEX that nothing disturbs -/

/-- The documents are there when they are looked up, no write comes and nothing fails. -/
def quietEnv (docs : List Document) : ReindexEnv where
  startFaults := .none
  afterStart := []
  openError := none
  items := docs.map fun doc => ⟨[], .ok doc, .ok true, [], .none⟩
  beforeCancel := []
  beforeFinish := []
  finishFaults := .none

/-- What the loop puts into the shadow. -/
def fillShadow (fields : List String) (shadow : FtsInstance) (docs : List Document) : FtsInstance :=
  docs.foldl (fun shadow doc => (shadow.deleteDoc doc.id).indexDoc fields doc) shadow

theorem fillShadow_other {shadow : FtsInstance} {docs : List Document} {docId : String}
    (h : ∀ doc ∈ docs, doc.id ≠ docId) :
    (fillShadow fields shadow docs).entries docId = shadow.entries docId := by
  induction docs generalizing shadow with
  | nil => rfl
  | cons doc docs ih =>
    obtain ⟨hne, hrest⟩ := List.forall_mem_cons.mp h
    refine (ih hrest).trans ?_
    exact (Function.update_of_ne hne.symm ..).trans (Function.update_of_ne hne.symm ..)

theorem fillShadow_contentFields (fields : List String) (shadow : FtsInstance)
    (docs : List Document) :
    (fillShadow fields shadow docs).contentFields = shadow.contentFields ∧
    (fillShadow fields shadow docs).analyzerName = shadow.analyzerName := by
  induction docs generalizing shadow with
  | nil => exact ⟨rfl, rfl⟩
  | cons doc docs ih => exact ih _

theorem fillShadow_mem {shadow : FtsInstance} {docs : List Document}
    (hnodup : (docs.map Document.id).Nodup) {doc : Document} (hmem : doc ∈ docs) :
    (fillShadow fields shadow docs).entries doc.id =
      [ftsEntry shadow.contentFields fields doc] := by
  induction docs generalizing shadow with
  | nil => cases hmem
  | cons first docs ih =>
    obtain ⟨hnot, hrest⟩ := List.nodup_cons.mp hnodup
    rcases List.mem_cons.mp hmem with rfl | hmem
    · show (fillShadow fields ((shadow.deleteDoc doc.id).indexDoc fields doc) docs).entries _ = _
      refine (fillShadow_other fun d hd hid => hnot ?_).trans ?_
      · rw [← hid]
        exact List.mem_map_of_mem hd
      · show Function.update (Function.update shadow.entries doc.id []) doc.id
          (Function.update shadow.entries doc.id [] doc.id ++ _) doc.id = _
        rw [Function.update_self, Function.update_self]
        rfl
    · exact ih hrest hmem

theorem buildShadow_quiet (fields : List String) (docs : List Document) (count : Nat)
    {inst shadow : FtsInstance}
    (h : s.index.instances.lookup (collection, indexName) =
      some (.rebuilding inst shadow [] false)) :
    ∃ built, buildShadow collection indexName fields s count (quietEnv docs).items =
        (built, .ok (count + docs.length)) ∧
      built.index.instances.lookup (collection, indexName) =
        some (.rebuilding inst (fillShadow fields shadow docs) [] false) ∧
      built.index.dirs = s.index.dirs ∧ built.index.analyzers = s.index.analyzers := by
  induction docs generalizing s shadow count with
  | nil => exact ⟨s, rfl, h, rfl, rfl⟩
  | cons doc docs ih =>
    have hcall : s.index.indexToShadow .none collection indexName doc fields =
        (s.index.setState (collection, indexName)
          (.rebuilding inst ((shadow.deleteDoc doc.id).indexDoc fields doc) [] false),
          .ok true) := by
      unfold FtsIndex.indexToShadow
      dsimp only
      rw [h]
      rfl
    obtain ⟨built, hbuilt, hlookup, hdirs, hanalyzers⟩ :=
      ih (count + 1) (s := ((s.write []).write []).setIndex (s.index.setState
        (collection, indexName)
        (.rebuilding inst ((shadow.deleteDoc doc.id).indexDoc fields doc) [] false)))
        (lookup_setState ..)
    refine ⟨built, ?_, hlookup, hdirs, hanalyzers⟩
    show buildShadow collection indexName fields s count (_ :: (quietEnv docs).items) = _
    rw [buildShadow]
    dsimp only
    rw [show ((s.write []).write []).index = s.index from rfl, hcall]
    dsimp only
    rw [hbuilt, List.length_cons, Nat.add_assoc, Nat.add_comm 1]

/-- A REINDEX without errors goes through its phases. -/
theorem reindexSingle_of_ok (env : ReindexEnv) {s started index : FtsIndex} {built : Reindexing}
    {count : Nat} {analyzer : Option String}
    (hstart : s.startReindex env.startFaults collection (ftsIndexName fields) fields analyzer =
      (started, .ok ()))
    (hbuild : buildFrom env collection (ftsIndexName fields) fields
      (Reindexing.write ⟨started, []⟩ env.afterStart) = (built, .ok count))
    (hfinish : (built.write env.beforeFinish).index.finishReindex env.finishFaults collection
      (ftsIndexName fields) = (index, .ok ())) :
    reindexSingle s env collection fields analyzer =
      ((built.write env.beforeFinish).setIndex index, .ok count) := by
  unfold reindexSingle
  dsimp only
  rw [hstart]
  dsimp only
  rw [hbuild]
  dsimp only
  rw [hfinish]

/-- The index has the entries of the documents. -/
theorem reindexSingle_quiet (docs : List Document) {s : FtsIndex} {inst : FtsInstance}
    {analyzer : Option String}
    (hactive : s.instances.lookup (collection, ftsIndexName fields) = some (.active inst))
    (hknown : analyzer.getD inst.analyzerName ∈ s.analyzers) :
    (reindexSingle s (quietEnv docs) collection fields analyzer).1.index.instances.lookup
        (collection, ftsIndexName fields) =
      some (.active ⟨fields, analyzer.getD inst.analyzerName,
        (fillShadow fields ⟨fields, analyzer.getD inst.analyzerName, fun _ => []⟩ docs).entries⟩) ∧
    (∃ dir, (reindexSingle s (quietEnv docs) collection fields analyzer).1.index.dirs
        (collection, ftsIndexName fields) = some dir ∧ dir.contentFields = fields) ∧
    (reindexSingle s (quietEnv docs) collection fields analyzer).1.index.analyzers =
      s.analyzers := by
  have hstart := startReindex_none fields hactive hknown
  set started := ((s.setDir (shadowKey (collection, ftsIndexName fields)) none).setDir
    (shadowKey (collection, ftsIndexName fields)) (some ⟨fields, fun _ => []⟩)).setState
      (collection, ftsIndexName fields)
      (.rebuilding inst ⟨fields, analyzer.getD inst.analyzerName, fun _ => []⟩ [] false) with hstarted
  have hdir : started.dirs (shadowKey (collection, ftsIndexName fields)) =
      some ⟨fields, fun _ => []⟩ := Function.update_self ..
  obtain ⟨built, hbuilt, hlookup, hdirs, hanalyzers⟩ :=
    buildShadow_quiet fields docs 0 (s := Reindexing.write ⟨started, []⟩ []) (lookup_setState ..)
  obtain ⟨hcontent, hname⟩ := fillShadow_contentFields fields
    ⟨fields, analyzer.getD inst.analyzerName, fun _ => []⟩ docs
  have hbuiltDir : built.index.dirs (shadowKey (collection, ftsIndexName fields)) =
      some ⟨fields, fun _ => []⟩ := (congrFun hdirs _).trans hdir
  have hok : (built.index.finishReindex .none collection (ftsIndexName fields)).2 = .ok () := by
    refine finishReindex_none hlookup hbuiltDir ?_
    rw [hname, hanalyzers]
    exact hknown
  obtain ⟨active, shadow, modified, dir, hbefore, hshadow, hafter, hdirAfter, hkept⟩ :=
    finishReindex_ok hok
  rw [hlookup] at hbefore
  cases hbefore
  rw [hbuiltDir] at hshadow
  cases hshadow
  cases hfinish : built.index.finishReindex .none collection (ftsIndexName fields) with
  | mk index result =>
    rw [hfinish] at hok hafter hdirAfter hkept
    cases hok
    rw [reindexSingle_of_ok (quietEnv docs) hstart hbuilt hfinish]
    rw [hname] at hafter
    exact ⟨hafter, ⟨_, hdirAfter, rfl⟩, hkept.trans hanalyzers⟩

end Reindex

/-! ## A commit that fails at the swap -/

namespace Essays

local instance : External := .standIn
local instance : Formats := .standIn

def essay (id text : String) : Document where
  id := id
  fields := [("text", .string text)]
  wf := rfl

/-- One index on `text`, active and empty. -/
def shelf : FtsIndex where
  instances := AList.singleton ("essays", "text_fts") (.active ⟨["text"], "standard", fun _ => []⟩)
  dirs := fun _ => none
  analyzers := ["standard"]

/-- One document is read, and one written meanwhile. -/
def calm : ReindexEnv where
  startFaults := .none
  afterStart := [⟨["text"], none, some (essay "essays:2" "new")⟩]
  openError := none
  items := [⟨[], .ok (essay "essays:1" "old"), .ok true, [], .none⟩]
  beforeCancel := []
  beforeFinish := []
  finishFaults := .none

def unreadable : ReindexEnv :=
  { calm with items := [⟨[], .error (.serialization "broken"), .ok true, [], .none⟩] }

def uncommitted : ReindexEnv :=
  { calm with
      finishFaults := fun point => if point = .forceCommit then some (.index "disk full") else none }

theorem shelf_startable : Startable shelf "essays" ["text"] none := by
  refine ⟨⟨["text"], "standard", fun _ => []⟩, ?_, by decide⟩
  rw [show ftsIndexName ["text"] = "text_fts" by decide +kernel]
  rfl

theorem unreadable_usable :
    Usable shelf "essays" ["text"] none (reindexSingle shelf unreadable "essays" ["text"] none).1 := by
  have herror : (reindexSingle shelf unreadable "essays" ["text"] none).2 =
      .error (.readDocument, .serialization "broken") := by decide +kernel
  exact (reindexSingle_error shelf unreadable "essays" ["text"] none herror).mpr
    ⟨shelf_startable, nofun⟩

/-- The shadow cannot be committed: the index is left in the state of a rebuild. -/
theorem uncommitted_unusable :
    ¬ ∀ (s : FtsIndex) (env : ReindexEnv) (collection : String) (fields : List String)
      (analyzer : Option String) (point : ReindexPoint) (e : StorageError),
      Startable s collection fields analyzer →
      (reindexSingle s env collection fields analyzer).2 = .error (point, e) →
      Usable s collection fields analyzer (reindexSingle s env collection fields analyzer).1 := by
  intro hall
  have herror : (reindexSingle shelf uncommitted "essays" ["text"] none).2 =
      .error (.finish, .index "disk full") := by decide +kernel
  obtain ⟨-, hstart⟩ := hall shelf uncommitted "essays" ["text"] none .finish _ shelf_startable
    herror
  have hrefused : ((reindexSingle shelf uncommitted "essays" ["text"] none).1.index.startReindex
      .none "essays" (ftsIndexName ["text"]) ["text"] none).2 =
        .error (.index "REINDEX already in progress for this index") := by decide +kernel
  rw [hrefused] at hstart
  cases hstart

end Essays

end StellarDb
