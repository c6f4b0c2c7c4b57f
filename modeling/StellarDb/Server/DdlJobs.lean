import StellarDb.Schema.CreateIndex
import StellarDb.Indexes.Backfill
import Mathlib.Data.List.AList

/-!
# StellarDb — background jobs for CREATE INDEX (`server/ddl_jobs.rs`)

A `DdlJobManager` keeps a table of jobs in memory and in a durable store. A request puts a job
in the table; its worker builds the index under the DDL lock of the database, publishes it in
the schema and marks the job ready. Each access to the table takes the table's lock for itself
alone, so between two of them a cancel call, another worker or another request may come: the
worker is a state machine (`Worker`) whose steps are those accesses and the calls in between.

Synchronous CREATE INDEX and DROP INDEX (`query/execute/ddl.rs`) hold the DDL lock from begin to
end and are one step each. What storage and the job store answer is the `Outcome` of a step.
-/

namespace StellarDb

open Keyspaces

/-! ## Jobs -/

inductive DdlJobState where
  | queued
  | building
  | ready
  | failed
  | cancelling
  | cancelled
  deriving DecidableEq, Repr

def DdlJobState.isActive : DdlJobState → Bool
  | .queued | .building | .cancelling => true
  | .ready | .failed | .cancelled => false

inductive DdlJobPhase where
  | queued
  | recovering
  | initializing
  | building
  | validatingUnique
  | committing
  | registering
  | persisting
  | cleaningUp
  | complete
  deriving DecidableEq, Repr

def DdlJobPhase.cancellationIsSafe : DdlJobPhase → Bool
  | .queued | .recovering | .initializing | .building | .validatingUnique | .cleaningUp => true
  | .committing | .registering | .persisting | .complete => false

/-- A job; its operation id is its key in the table. Jobs are made of prepared definitions. -/
structure DdlJob where
  database : String
  collection : String
  index : IndexDefinition
  prepared : ∃ request : CreateIndex, index = request.definition collection
  state : DdlJobState
  phase : DdlJobPhase
  processedItems : Nat
  totalItems : Nat
  error : Option StorageError
  deriving DecidableEq, Repr

namespace DdlJob

def new (database collection : String) (request : CreateIndex) (totalItems : Nat) : DdlJob where
  database := database
  collection := collection
  index := request.definition collection
  prepared := ⟨request, rfl⟩
  state := .queued
  phase := .queued
  processedItems := 0
  totalItems := totalItems
  error := none

/-- What `find` and `matches_create_index` compare. -/
def target (job : DdlJob) : String × String × IndexDefinition :=
  (job.database, job.collection, job.index)

end DdlJob

inductive CancelError where
  | notFound
  | unsafePhase (phase : DdlJobPhase)
  | terminal (state : DdlJobState)
  | storage (e : StorageError)
  deriving DecidableEq, Repr

/-- The jobs, by operation id, in memory and in the job store. -/
structure DdlJobManager where
  jobs : AList fun _ : String => DdlJob
  stored : AList fun _ : String => DdlJob

namespace DdlJobManager

def empty : DdlJobManager := ⟨∅, ∅⟩

def get (m : DdlJobManager) (id : String) : Option DdlJob := m.jobs.lookup id

/-- Put a job in the table and save it; the table has it also when saving fails. -/
def put (m : DdlJobManager) (id : String) (job : DdlJob) (saved : Bool) : DdlJobManager where
  jobs := m.jobs.insert id job
  stored := if saved then m.stored.insert id job else m.stored

def saveFailed : StorageError := .fjall "save"

def operationNotFound (id : String) : StorageError := .notFound ("DDL operation '" ++ id ++ "'")

def update (m : DdlJobManager) (id : String) (saved : Bool) (f : DdlJob → DdlJob) :
    DdlJobManager × Except StorageError Unit :=
  match m.get id with
  | none => (m, .error (operationNotFound id))
  | some job => (m.put id (f job) saved, if saved then .ok () else .error saveFailed)

def isCancelling (m : DdlJobManager) (id : String) : Bool :=
  match m.get id with
  | some job => job.state = .cancelling
  | none => false

/-- `ready` -/
def ready (m : DdlJobManager) (id : String) (saved : Bool) :
    DdlJobManager × Except StorageError Unit :=
  m.update id saved fun job =>
    { job with state := .ready, phase := .complete, processedItems := job.totalItems }

def cancelled (m : DdlJobManager) (id : String) (saved : Bool) :
    DdlJobManager × Except StorageError Unit :=
  m.update id saved fun job => { job with state := .cancelled, phase := .complete }

/-- A failure is not recorded on a job that is ready or cancelled. -/
def fail (m : DdlJobManager) (id : String) (saved : Bool) (error : StorageError) :
    DdlJobManager × Except StorageError Unit :=
  m.update id saved fun job =>
    if job.state = .ready ∨ job.state = .cancelled then job
    else { job with state := .failed, phase := .complete, error := some error }

/-- The shape of `begin_build` and `enter_noncancellable_phase`: unless the job is being
cancelled, change it. -/
def unlessCancelling (m : DdlJobManager) (id : String) (saved : Bool) (f : DdlJob → DdlJob) :
    DdlJobManager × Except StorageError Bool :=
  match m.get id with
  | none => (m, .error (operationNotFound id))
  | some job =>
    if job.state = .cancelling then (m, .ok false)
    else (m.put id (f job) saved, if saved then .ok true else .error saveFailed)

def enterNoncancellablePhase (m : DdlJobManager) (id : String) (saved : Bool)
    (phase : DdlJobPhase) : DdlJobManager × Except StorageError Bool :=
  m.unlessCancelling id saved fun job => { job with phase := phase }

def beginBuild (m : DdlJobManager) (id : String) (saved : Bool) (totalItems : Nat) :
    DdlJobManager × Except StorageError Bool :=
  m.unlessCancelling id saved fun job =>
    { job with
      state := .building, phase := .initializing, totalItems := totalItems, processedItems := 0,
      error := none }

/-- What `cancel` does to a job; the error says that the job stays as it is. -/
def cancelJob (job : DdlJob) : Except CancelError DdlJob :=
  match job.state with
  | .queued => .ok { job with state := .cancelled, phase := .complete }
  | .building =>
    if job.phase.cancellationIsSafe then .ok { job with state := .cancelling }
    else .error (.unsafePhase job.phase)
  | .cancelling | .cancelled => .ok job
  | .ready | .failed => .error (.terminal job.state)

def cancel (m : DdlJobManager) (id : String) (saved : Bool) :
    DdlJobManager × Except CancelError DdlJob :=
  match m.get id with
  | none => (m, .error .notFound)
  | some job =>
    match cancelJob job with
    | .error e => (m, .error e)
    | .ok job' =>
      -- a job that is on its way out already is returned without being saved
      if job.state = .cancelling ∨ job.state = .cancelled then (m, .ok job)
      else (m.put id job' saved, if saved then .ok job' else .error (.storage saveFailed))

/-- `enqueue_create_index_with_operation_id`; `fresh` is the id made for a request without one.
Returns the job with its id and says whether it is a new one. -/
def enqueue (m : DdlJobManager) (operationId : Option String) (fresh database collection : String)
    (request : CreateIndex) (totalItems : Nat) (saved : Bool) :
    DdlJobManager × Except StorageError (String × DdlJob × Bool) :=
  let id := operationId.getD fresh
  let index := request.definition collection
  match operationId.bind m.get with
  | some existing =>
    if existing.target = (database, collection, index) then (m, .ok (id, existing, false))
    else (m, .error (.conflict ("operation_id '" ++ id ++
      "' is already bound to a different operation")))
  | none =>
    match m.jobs.entries.find? fun entry =>
        entry.2.target = (database, collection, index) && entry.2.state.isActive with
    | some entry => (m, .ok (entry.1, entry.2, false))
    | none =>
      let job := DdlJob.new database collection request totalItems
      if saved then (m.put id job true, .ok (id, job, true)) else (m, .error saveFailed)

end DdlJobManager

/-! ## Workers -/

/-- Where a worker stands in `run_blocking`. -/
inductive WorkerPoint where
  /-- About to look at the job and at the registered indexes. -/
  | start
  /-- The index is there already: about to mark the job ready. -/
  | readyExisting
  /-- About to take the DDL lock. -/
  | locking
  /-- Has the lock, about to look at the job again. -/
  | looking
  | marking
  | cleaning
  | checking
  | preparing
  | beginning (totalItems : Nat)
  | initializing
  | building
  /-- In `record_build_event`: before, at and after the update. -/
  | eventCheck (event : IndexBuildEvent)
  | eventSave (event : IndexBuildEvent)
  | eventRecheck (event : IndexBuildEvent)
  | committing
  | built (completed : Bool)
  | markCancelling
  | persisting
  | syncing
  | entering
  | leaving
  /-- The clean-up before the job is marked cancelled. -/
  | abandoning
  | cancelling
  | promoting
  | publishing
  | readying
  | unpublishing
  /-- In `cleanup_after_error`: the update and the clean-up. -/
  | afterError (e : StorageError)
  | errorCleaning (e : StorageError)
  /-- `run_blocking` has returned this error; the lock is free again. -/
  | failing (e : StorageError)
  | done
  deriving DecidableEq, Repr

/-- A worker with its copy of the job. -/
structure Worker where
  point : WorkerPoint
  job : DdlJob
  deriving DecidableEq, Repr

/-- The definition that the worker prepares and publishes. -/
def Worker.index (w : Worker) : IndexDefinition :=
  (CreateIndex.ofDefinition w.job.index).definition w.job.collection

theorem Worker.index_eq (w : Worker) : w.index = w.job.index := by
  obtain ⟨request, hindex⟩ := w.job.prepared
  rw [Worker.index, hindex]
  exact request.definition_ofDefinition w.job.collection

/-- What the calls of a step answer. -/
inductive Outcome where
  | ok
  | error (e : StorageError)
  /-- An error after schema and registry have been changed. -/
  | late (e : StorageError)
  | counted (items : Nat)
  | event (event : IndexBuildEvent)
  deriving DecidableEq, Repr

def Outcome.isOk : Outcome → Bool
  | .ok => true
  | _ => false

/-! ## The system -/

structure DdlSystem where
  manager : DdlJobManager
  /-- The indexes in the schema of a collection, by database and collection. -/
  schema : String × String → List IndexDefinition
  /-- The registered indexes of a collection. -/
  registry : String × String → List IndexDefinition
  /-- The job whose worker holds the DDL lock of a database. -/
  lock : String → Option String
  workers : String → Option Worker
  /-- History: jobs for which a cancel call has returned `Cancelling` or `Cancelled`. -/
  cancelAnswered : Finset String
  /-- History: jobs whose worker has published the index. -/
  published : Finset String
  /-- History: creations reported as successful and not dropped since. -/
  reported : Finset (String × String × IndexDefinition)

namespace DdlSystem

/-- The worker goes on at `point`. -/
def goto (s : DdlSystem) (id : String) (w : Worker) (point : WorkerPoint) : DdlSystem :=
  { s with workers := Function.update s.workers id (some { w with point := point }) }

/-- `run_blocking` returns, and the guard of the DDL lock with it. -/
def leave (s : DdlSystem) (id : String) (w : Worker) (point : WorkerPoint) : DdlSystem :=
  let s := s.goto id w point
  { s with
    lock := if s.lock w.job.database = some id then Function.update s.lock w.job.database none
      else s.lock }

def fails (s : DdlSystem) (id : String) (w : Worker) (e : StorageError) : DdlSystem :=
  s.leave id w (.failing e)

/-- Go on after a fallible call on the job table. -/
def after {α : Type} (s : DdlSystem) (id : String) (w : Worker)
    (r : DdlJobManager × Except StorageError α) (next : α → WorkerPoint) : DdlSystem :=
  let s := { s with manager := r.1 }
  match r.2 with
  | .ok a => s.goto id w (next a)
  | .error e => s.fails id w e

def report (s : DdlSystem) (place : String × String) (index : IndexDefinition) : DdlSystem :=
  { s with reported := insert (place.1, place.2, index) s.reported }

/-- `cleanup_unpublished_index`, as far as schema and registry go. -/
def cleanupUnpublishedIndex (s : DdlSystem) (place : String × String) (index : IndexDefinition) :
    DdlSystem :=
  { s with
    schema := if index ∈ s.schema place then
        Function.update s.schema place (removeIndexFrom (s.schema place) index.fields)
      else s.schema
    registry := Function.update s.registry place (removeIndexFrom (s.registry place) index.fields) }

/-- The durable half of `publish_ready_index`. -/
def addToSchema (s : DdlSystem) (place : String × String) (index : IndexDefinition) : DdlSystem :=
  { s with schema := Function.update s.schema place (addIndexTo (s.schema place) index) }

/-- `publish_ready_index` -/
def publishReadyIndex (s : DdlSystem) (place : String × String) (index : IndexDefinition) :
    DdlSystem :=
  let s := s.addToSchema place index
  { s with registry := Function.update s.registry place (addIndexTo (s.registry place) index) }

/-- `cleanup`: the build artifact first, then what has its final name. -/
def cleanup (s : DdlSystem) (place : String × String) (index : IndexDefinition) : Outcome → DdlSystem
  | .ok | .late _ => s.cleanupUnpublishedIndex place index
  | _ => s

def hasIndex (s : DdlSystem) (place : String × String) (fields : List String) : Bool :=
  (s.registry place).any (·.fields = fields)

def indexExists : StorageError := .invalidOperation "index already exists"

end DdlSystem

/-- The collection of a job. -/
def DdlJob.place (job : DdlJob) : String × String := (job.database, job.collection)

namespace DdlSystem

variable (s : DdlSystem) (id : String) (w : Worker)

/-- A clean-up and, unless it fails, the next point. -/
def cleanThen (index : IndexDefinition) (o : Outcome) (next : WorkerPoint) : DdlSystem :=
  let s := s.cleanup w.job.place index o
  match o with
  | .ok => s.goto id w next
  | .error e | .late e => s.fails id w e
  | _ => s

/-- The registered index in the way of a job: one with its name or its fields. -/
def existing (job : DdlJob) : Option IndexDefinition :=
  (s.registry job.place).find? fun i => i.name = job.index.name || i.fields = job.index.fields

/-- The first look: at the job, then at the registered indexes. -/
def workStart (o : Outcome) : DdlSystem :=
  match s.manager.get id with
  | none => s.fails id w (DdlJobManager.operationNotFound id)
  | some job =>
    let w := { w with job := job }
    if job.state = .cancelled then s.leave id w .done
    else match o with
    | .error e => s.fails id w e
    | _ =>
      match s.existing job with
      | some index =>
        if index = job.index then s.goto id w .readyExisting
        else s.fails id w (.alreadyExists ("index '" ++ job.index.name ++
          "' with a different definition"))
      | none => s.goto id w .locking

/-- The DDL lock is taken when it is free. -/
def workLocking : DdlSystem :=
  match s.lock w.job.database with
  | some _ => s
  | none =>
    let s := s.goto id w .looking
    { s with lock := Function.update s.lock w.job.database (some id) }

def workLooking : DdlSystem :=
  match s.manager.get id with
  | none => s.fails id w (DdlJobManager.operationNotFound id)
  | some job => if job.state = .cancelled then s.leave id w .done else s.goto id w .marking

def workPreparing (o : Outcome) : DdlSystem :=
  match o with
  | .counted n =>
    if s.hasIndex w.job.place w.job.index.fields then s.fails id w indexExists
    else s.goto id w (.beginning n)
  | .error e | .late e => s.fails id w e
  | _ => s

/-- The build reports an event, ends with an error or goes on. -/
def workBuilding (o : Outcome) : DdlSystem :=
  match o with
  | .event event => s.goto id w (.eventCheck event)
  | .error e | .late e => s.goto id w (.afterError e)
  | _ => s

def eventUpdate (event : IndexBuildEvent) (job : DdlJob) : DdlJob :=
  match event with
  | .building processed => { job with phase := .building, processedItems := processed }
  | .committing => { job with phase := .committing }
  | .validatingUnique => { job with phase := .validatingUnique }

/-- A step of storage that goes on or ends in `cleanup_after_error`. -/
def orAfterError (o : Outcome) (next : WorkerPoint) : DdlSystem :=
  match o with
  | .ok => s.goto id w next
  | .error e | .late e => s.goto id w (.afterError e)
  | _ => s

def workPublishing (o : Outcome) : DdlSystem :=
  match o with
  | .ok =>
    let s := s.publishReadyIndex w.job.place w.index
    { s.goto id w .readying with published := insert id s.published }
  | .late e => (s.addToSchema w.job.place w.index).goto id w (.afterError e)
  | .error e => s.goto id w (.afterError e)
  | _ => s

/-- `ready`: once it is in the table, clients see it, saved or not. -/
def markReady (saved : Bool) (index : IndexDefinition) : DdlSystem :=
  ({ s with manager := (s.manager.ready id saved).1 } : DdlSystem).report w.job.place index

def workReadyExisting (o : Outcome) : DdlSystem :=
  let marked := s.markReady id w o.isOk w.job.index
  match (s.manager.ready id o.isOk).2 with
  | .ok () => marked.leave id w .done
  | .error e => marked.fails id w e

def workReadying (o : Outcome) : DdlSystem :=
  let marked := s.markReady id w o.isOk w.index
  match (s.manager.ready id o.isOk).2 with
  | .ok () => marked.leave id w .done
  | .error _ => marked.goto id w .unpublishing

def workCancelling (o : Outcome) : DdlSystem :=
  let marked := { s with manager := (s.manager.cancelled id o.isOk).1 }
  match (s.manager.cancelled id o.isOk).2 with
  | .ok () => marked.leave id w .done
  | .error e => marked.fails id w e

/-- One step of the worker of a job. -/
def work (o : Outcome) : DdlSystem :=
  match w.point with
  | .start => s.workStart id w o
  | .readyExisting => s.workReadyExisting id w o
  | .locking => s.workLocking id w
  | .looking => s.workLooking id w
  | .marking => s.after id w (s.manager.update id o.isOk fun job =>
      { job with
        state := if job.state = .cancelling then .cancelling else .building, phase := .cleaningUp })
      fun _ => .cleaning
  | .cleaning => s.cleanThen id w w.job.index o .checking
  | .checking => s.goto id w (if s.manager.isCancelling id then .cancelling else .preparing)
  | .preparing => s.workPreparing id w o
  | .beginning n => s.after id w (s.manager.beginBuild id o.isOk n)
      fun begun => if begun then .initializing else .abandoning
  | .initializing => s.orAfterError id w o .building
  | .building => s.workBuilding id w o
  | .eventCheck event =>
    s.goto id w (if s.manager.isCancelling id then .built false else .eventSave event)
  | .eventSave event =>
    let r := s.manager.update id o.isOk (eventUpdate event)
    ({ s with manager := r.1 } : DdlSystem).goto id w
      (if r.2.isOk then .eventRecheck event else .built false)
  | .eventRecheck event =>
    s.goto id w (if s.manager.isCancelling id then .built false
      else if event = .committing then .committing else .building)
  | .committing => s.orAfterError id w o (.built true)
  | .built completed =>
    s.goto id w (if !completed || s.manager.isCancelling id then .markCancelling else .persisting)
  | .markCancelling => s.after id w (s.manager.update id o.isOk fun job =>
      { job with state := .cancelling, phase := .cleaningUp }) fun _ => .abandoning
  | .persisting => s.after id w (s.manager.update id o.isOk fun job =>
      { job with phase := .persisting }) fun _ => .syncing
  | .syncing => s.orAfterError id w o .entering
  | .entering => s.after id w (s.manager.enterNoncancellablePhase id o.isOk .registering)
      fun entered => if entered then .promoting else .leaving
  | .leaving => s.after id w (s.manager.update id o.isOk fun job =>
      { job with phase := .cleaningUp }) fun _ => .abandoning
  | .abandoning => s.cleanThen id w w.index o .cancelling
  | .cancelling => s.workCancelling id w o
  | .promoting => s.orAfterError id w o .publishing
  | .publishing => s.workPublishing id w o
  | .readying => s.workReadying id w o
  | .unpublishing => (s.cleanup w.job.place w.index o).fails id w DdlJobManager.saveFailed
  | .afterError e =>
    let r := s.manager.update id o.isOk fun job => { job with phase := .cleaningUp }
    ({ s with manager := r.1 } : DdlSystem).goto id w (.errorCleaning e)
  | .errorCleaning e => (s.cleanup w.job.place w.index o).fails id w e
  | .failing e =>
    ({ s with manager := (s.manager.fail id o.isOk e).1 } : DdlSystem).goto id w .done
  | .done => s

end DdlSystem

/-! ## Steps of the system -/

inductive DdlAct where
  | enqueue (operationId : Option String) (fresh database collection : String) (request : CreateIndex)
      (totalItems : Nat) (saved : Bool)
  | cancel (id : String) (saved : Bool)
  | work (id : String) (outcome : Outcome)
  /-- Synchronous CREATE INDEX. -/
  | createIndex (database collection : String) (request : CreateIndex) (outcome : Outcome)
  | dropIndex (database collection name : String) (outcome : Outcome)
  deriving DecidableEq, Repr

namespace DdlSystem

/-- A request for a job, and the worker of a new one. -/
def enqueue (s : DdlSystem) (operationId : Option String) (fresh database collection : String)
    (request : CreateIndex) (totalItems : Nat) (saved : Bool) : DdlSystem :=
  let r := s.manager.enqueue operationId fresh database collection request totalItems saved
  let s := { s with manager := r.1 }
  match r.2 with
  | .ok (id, job, true) => { s with workers := Function.update s.workers id (some ⟨.start, job⟩) }
  | _ => s

def cancel (s : DdlSystem) (id : String) (saved : Bool) : DdlSystem :=
  let r := s.manager.cancel id saved
  let s := { s with manager := r.1 }
  match r.2 with
  | .ok _ => { s with cancelAnswered := insert id s.cancelAnswered }
  | .error _ => s

/-- `execute_create_index`; it waits for the DDL lock. A failed publication leaves the schema as
it is. -/
def createIndex (s : DdlSystem) (database collection : String) (request : CreateIndex)
    (o : Outcome) : DdlSystem :=
  let index := request.definition collection
  let place := (database, collection)
  if (s.lock database).isSome || s.hasIndex place request.fields then s
  else match o with
  | .ok => (s.publishReadyIndex place index).report place index
  | .late _ => s.addToSchema place index
  | _ => s

/-- `execute_drop_index`: the registry first, the schema last. -/
def dropIndex (s : DdlSystem) (database collection name : String) (o : Outcome) : DdlSystem :=
  let place := (database, collection)
  if (s.lock database).isSome then s
  else match (s.registry place).find? (·.name = name) with
  | none => s
  | some index =>
    { s with
      registry := Function.update s.registry place (removeIndexFrom (s.registry place) index.fields)
      schema := if o.isOk then
          Function.update s.schema place (removeIndexFrom (s.schema place) index.fields)
        else s.schema
      reported := s.reported.filter fun r => ¬ ((r.1, r.2.1) = place ∧ r.2.2.fields = index.fields) }

def step (s : DdlSystem) : DdlAct → DdlSystem
  | .enqueue operationId fresh database collection request totalItems saved =>
    s.enqueue operationId fresh database collection request totalItems saved
  | .cancel id saved => s.cancel id saved
  | .work id outcome =>
    match s.workers id with
    | some w => s.work id w outcome
    | none => s
  | .createIndex database collection request outcome =>
    s.createIndex database collection request outcome
  | .dropIndex database collection name outcome => s.dropIndex database collection name outcome

def run (s : DdlSystem) (acts : List DdlAct) : DdlSystem := acts.foldl step s

end DdlSystem

end StellarDb
