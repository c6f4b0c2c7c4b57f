import StellarDb.Indexes.FullText

/-!
# StellarDb — REINDEX of a full-text index beside writes (`fts.rs`, `query/execute/ddl.rs`)

A write commits, waits for the commit gate and then updates the index under a read lock. A REINDEX
reads a snapshot of the documents into the shadow, under the same read lock, and swaps under the
write lock. A write notes the id of its document before it touches the shadow, and the REINDEX
skips ids that are noted; but it looks first and writes the shadow later, in two more steps, and
a write can come in between. Nor do writes pass the gate in the order of their commits.

`RaceState` has the writes and the REINDEX one step at a time.
-/

namespace StellarDb

/-! ## The steps of a write -/

inductive UpdateOp where
  | track
  | deleteActive
  | deleteShadow
  | indexActive
  | indexShadow
  deriving DecidableEq, Repr

/-- A committed write of a document, before or after it has come to the index. -/
structure IndexWrite where
  docId : String
  oldDoc : Option Document
  newDoc : Option Document
  /-- Number of the commit among those of the document. -/
  version : Nat
  old_id : ∀ d, oldDoc = some d → d.id = docId
  new_id : ∀ d, newDoc = some d → d.id = docId
  present : oldDoc.isSome ∨ newDoc.isSome

namespace FtsIndexState

def mapActive (f : FtsInstance → FtsInstance) : FtsIndexState → FtsIndexState
  | .active inst => .active (f inst)
  | .rebuilding inst shadow concurrentModified overflow =>
    .rebuilding (f inst) shadow concurrentModified overflow

def mapShadow (f : FtsInstance → FtsInstance) : FtsIndexState → FtsIndexState
  | .active inst => .active inst
  | .rebuilding inst shadow concurrentModified overflow =>
    .rebuilding inst (f shadow) concurrentModified overflow

end FtsIndexState

namespace IndexWrite

/-- The steps of `update_document` on the index as it is when the read lock is taken. -/
def ops (w : IndexWrite) : FtsIndexState → List UpdateOp
  | .rebuilding _ _ _ false =>
    .track :: .deleteActive :: .deleteShadow ::
      if w.newDoc.isSome then [.indexActive, .indexShadow] else []
  | _ => .deleteActive :: if w.newDoc.isSome then [.indexActive] else []

variable [External] [Formats]

/-- One step, on the index and the flag `should_skip_shadow`. -/
def run (w : IndexWrite) (fields : List String) :
    FtsIndexState × Bool → UpdateOp → FtsIndexState × Bool
  | (.rebuilding active shadow concurrentModified overflow, _), .track =>
    let t := StellarDb.track concurrentModified w.oldDoc w.newDoc
    (.rebuilding active shadow t.concurrentModified (overflow || t.overflow), t.shouldSkipShadow)
  | (state, skip), .track => (state, skip)
  | (state, skip), .deleteActive => (state.mapActive (·.deleteFor w.oldDoc w.newDoc), skip)
  | (state, skip), .deleteShadow =>
    (if skip then state else state.mapShadow (·.deleteFor w.oldDoc w.newDoc), skip)
  | (state, skip), .indexActive => (state.mapActive (·.indexFor fields w.newDoc), skip)
  | (state, skip), .indexShadow =>
    (if skip then state else state.mapShadow (·.indexFor fields w.newDoc), skip)

end IndexWrite

/-! ## The steps of a REINDEX -/

inductive RebuildStage where
  | idle
  /-- The shadow is registered. -/
  | started
  /-- The documents that the iterator has still to yield. -/
  | reading (rest : List Document)
  | fetched (doc : Document) (rest : List Document)
  /-- It is still stored. -/
  | found (doc : Document) (rest : List Document)
  /-- No write has noted it. -/
  | admitted (doc : Document) (rest : List Document)
  /-- The shadow has no entry of it. -/
  | cleared (doc : Document) (rest : List Document)
  /-- An error in the loop. -/
  | failed
  | cancelled
  /-- `finish_reindex` has returned an error. -/
  | unfinished
  | finished

namespace RebuildStage

/-- The documents that may still go to the shadow. -/
def pending : RebuildStage → List Document
  | reading rest => rest
  | fetched doc rest | found doc rest | admitted doc rest | cleared doc rest => doc :: rest
  | _ => []

/-- The document that the REINDEX has let through and not yet inserted. -/
def inserting : RebuildStage → Option Document
  | admitted doc _ | cleared doc _ => some doc
  | _ => none

/-- The shadow is being filled. -/
def filling : RebuildStage → Bool
  | started | reading _ | fetched .. | found .. | admitted .. | cleared .. => true
  | _ => false

/-- The shadow is being filled, or it has become the index. -/
def followed : RebuildStage → Bool
  | finished => true
  | stage => stage.filling

theorem followed_of_filling {stage : RebuildStage} (h : stage.filling) : stage.followed := by
  cases stage with
  | finished => rfl
  | _ => exact h

theorem eq_finished {stage : RebuildStage} (hfollowed : stage.followed)
    (hfilling : stage.filling = false) : stage = .finished := by
  cases stage with
  | finished => rfl
  | _ => simp_all [followed, filling]

end RebuildStage

/-- The write that holds the commit gate, with the steps it has still to make. -/
structure RunningWrite where
  write : IndexWrite
  ops : List UpdateOp
  shouldSkipShadow : Bool

structure RaceState where
  stored : DocStore
  /-- Number of commits of each document. -/
  version : String → Nat
  /-- Committed writes that have not come to the index. -/
  waiting : List IndexWrite
  current : Option RunningWrite
  index : FtsIndexState
  stage : RebuildStage

inductive RaceStep where
  | put (doc : Document)
  | remove (docId : String)
  /-- A waiting write takes the commit gate and the read lock. -/
  | enter (i : Nat)
  /-- The next step of the running write; after the last it lets go. -/
  | advance
  | start
  | openIterator
  | fetch
  | checkStored
  | checkModified
  | clearShadow
  | insertShadow
  /-- An error in the loop. -/
  | fail
  | cancel
  | finish

namespace RaceState

/-- A create or an update, as the index will see it. -/
def putWrite (s : RaceState) (doc : Document) : IndexWrite where
  docId := doc.id
  oldDoc := s.stored.get doc.id
  newDoc := some doc
  version := s.version doc.id + 1
  old_id _ h := DocStore.id_of_get h
  new_id _ h := congrArg Document.id (Option.some.inj h).symm
  present := Or.inr rfl

def removeWrite (s : RaceState) {docId : String} (old : Document)
    (h : s.stored.get docId = some old) : IndexWrite where
  docId := docId
  oldDoc := some old
  newDoc := none
  version := s.version docId + 1
  old_id _ h' := DocStore.id_of_get (h.trans h')
  new_id := nofun
  present := Or.inl rfl

section Step

variable [External] [Formats]

/-- The write lock waits for the running write. -/
def step (fields : List String) (analyzer : String) (s : RaceState) : RaceStep → RaceState
  | .put doc =>
    { s with
        stored := s.stored.put doc
        version := Function.update s.version doc.id (s.version doc.id + 1)
        waiting := s.waiting ++ [s.putWrite doc] }
  | .remove docId =>
    match h : s.stored.get docId with
    | none => s
    | some old =>
      { s with
          stored := s.stored.remove docId
          version := Function.update s.version docId (s.version docId + 1)
          waiting := s.waiting ++ [s.removeWrite old h] }
  | .enter i =>
    match s.current, s.waiting[i]? with
    | none, some w =>
      { s with
          waiting := s.waiting.eraseIdx i
          current := some ⟨w, w.ops s.index, false⟩ }
    | _, _ => s
  | .advance =>
    match s.current with
    | none => s
    | some ⟨_, [], _⟩ => { s with current := none }
    | some ⟨w, op :: ops, skip⟩ =>
      let next := w.run fields (s.index, skip) op
      { s with index := next.1, current := some ⟨w, ops, next.2⟩ }
  | .start =>
    match s.stage, s.current, s.index with
    | .idle, none, .active inst =>
      { s with
          index := .rebuilding inst ⟨fields, analyzer, fun _ => []⟩ [] false
          stage := .started }
    | _, _, _ => s
  | .openIterator =>
    match s.stage with
    | .started => { s with stage := .reading s.stored.all }
    | _ => s
  | .fetch =>
    match s.stage with
    | .reading (doc :: rest) => { s with stage := .fetched doc rest }
    | _ => s
  | .checkStored =>
    match s.stage with
    | .fetched doc rest =>
      { s with stage := if (s.stored.get doc.id).isSome then .found doc rest else .reading rest }
    | _ => s
  | .checkModified =>
    match s.stage, s.index with
    | .found doc rest, .rebuilding _ _ concurrentModified overflow =>
      { s with
          stage :=
            if overflow then .failed
            else if doc.id ∈ concurrentModified then .reading rest
            else .admitted doc rest }
    | _, _ => s
  | .clearShadow =>
    match s.stage with
    | .admitted doc rest =>
      { s with index := s.index.mapShadow (·.deleteDoc doc.id), stage := .cleared doc rest }
    | _ => s
  | .insertShadow =>
    match s.stage with
    | .cleared doc rest =>
      { s with index := s.index.mapShadow (·.indexDoc fields doc), stage := .reading rest }
    | _ => s
  | .fail => if s.stage.filling then { s with stage := .failed } else s
  | .cancel =>
    match s.stage, s.current, s.index with
    | .failed, none, .rebuilding inst .. => { s with index := .active inst, stage := .cancelled }
    | _, _, _ => s
  | .finish =>
    match s.stage, s.current, s.index with
    | .reading [], none, .rebuilding _ shadow _ overflow =>
      if overflow then { s with stage := .unfinished }
      else { s with index := .active shadow, stage := .finished }
    | _, _, _ => s

end Step

/-- Before the REINDEX. -/
structure Initial (s : RaceState) : Prop where
  stage : s.stage = .idle
  waiting : s.waiting = []
  current : s.current = none

/-- The last write of a document has not come to the index. -/
def LastWaiting (s : RaceState) (docId : String) : Prop :=
  ∃ w ∈ s.waiting, w.docId = docId ∧ w.version = s.version docId

instance (s : RaceState) (docId : String) : Decidable (s.LastWaiting docId) :=
  inferInstanceAs (Decidable (∃ w ∈ s.waiting, w.docId = docId ∧ w.version = s.version docId))

/-- A step that the REINDEX can follow. -/
def Orderly (s : RaceState) : RaceStep → Prop
  | .enter i =>
    s.stage.followed → ∀ w ∈ s.waiting[i]?,
      w.version = s.version w.docId ∨ s.LastWaiting w.docId
  | .advance =>
    ∀ r ∈ s.current, r.ops.head? = some .deleteShadow →
      s.stage.inserting.map Document.id = some r.write.docId → s.LastWaiting r.write.docId
  | _ => True

instance (s : RaceState) : ∀ a, Decidable (s.Orderly a)
  | .enter i =>
    inferInstanceAs (Decidable (s.stage.followed → ∀ w ∈ s.waiting[i]?,
      w.version = s.version w.docId ∨ s.LastWaiting w.docId))
  | .advance =>
    inferInstanceAs (Decidable (∀ r ∈ s.current, r.ops.head? = some .deleteShadow →
      s.stage.inserting.map Document.id = some r.write.docId → s.LastWaiting r.write.docId))
  | .put _ | .remove _ | .start | .openIterator | .fetch | .checkStored | .checkModified
  | .clearShadow | .insertShadow | .fail | .cancel | .finish => inferInstanceAs (Decidable True)

/-! ## The operations of the backend -/

section Backend

variable [External] [Formats] {fields : List String} {analyzer : String} {s : RaceState}

end Backend

end RaceState

end StellarDb
