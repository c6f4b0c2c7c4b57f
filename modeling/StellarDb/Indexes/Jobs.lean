import StellarDb.Indexes.External
import StellarDb.Lib.Run

/-!
# StellarDb — jobs for external indexes (`storage/database.rs`)

A write of documents puts a job for each of them in the store, in the same transaction. After the
commit it takes the gate of the full-text committer, applies the jobs to every external index of
the collection, commits the external indexes and removes the jobs; an error on the way leaves
them. When the database is opened, the jobs that are left are read back from JSON and applied
again.

Jobs are kept by document, so a write takes the place of an earlier job of its documents. An
external index keeps of a crash what was committed; of documents changed since then it keeps
anything.
-/

namespace StellarDb

open Keyspaces

/-! ## State -/

/-- A write of one document; one of the two versions is there. -/
structure ExternalIndexJob where
  docId : String
  oldDoc : Option Document
  newDoc : Option Document
  oldNamed : ∀ d, oldDoc = some d → d.id = docId
  newNamed : ∀ d, newDoc = some d → d.id = docId
  present : oldDoc.isSome ∨ newDoc.isSome

/-- The write of a batch: each document once. -/
structure JobBatch where
  jobs : List ExternalIndexJob
  distinct : (jobs.map (·.docId)).Nodup

inductive JobPoint where
  /-- The primary commit is done. -/
  | waiting
  | applying (todo : List (ExternalIndexJob × IndexDefinition))
  | committing
  | removing
  /-- Opening the database failed. -/
  | failed

structure JobProcess where
  jobs : List ExternalIndexJob
  point : JobPoint

structure ExternalSystem where
  collection : String
  /-- The external indexes of the collection. -/
  indexes : List IndexDefinition
  /-- The primary store, by document id. -/
  stored : Keyspace Document
  /-- `index_jobs` -/
  jobs : Keyspace ExternalIndexJob
  live : ExternalTables
  durable : ExternalTables
  /-- Documents of an index changed since its last commit. -/
  changed : ExternalId → String → Bool
  gate : Option Nat
  processes : Nat → Option JobProcess
  opened : Bool

namespace ExternalIndexJob

def key (job : ExternalIndexJob) : Bytes := utf8 job.docId

/-- A job read back from its JSON. -/
def reread [External] [Formats] (order : IterOrder) (job : ExternalIndexJob) :
    ExternalIndexJob where
  docId := job.docId
  oldDoc := job.oldDoc.map (Document.reread order)
  newDoc := job.newDoc.map (Document.reread order)
  oldNamed := by
    intro d hd
    obtain ⟨d', hd', rfl⟩ := Option.map_eq_some_iff.mp hd
    exact job.oldNamed d' hd'
  newNamed := by
    intro d hd
    obtain ⟨d', hd', rfl⟩ := Option.map_eq_some_iff.mp hd
    exact job.newNamed d' hd'
  present := by
    rw [Option.isSome_map, Option.isSome_map]
    exact job.present

end ExternalIndexJob

/-! ## Steps -/

/-- How a step of a process ends. -/
inductive JobOutcome where
  | ok
  /-- With an error: an update may have removed the old entry by then, a commit may have committed
  some of the indexes. -/
  | err (removed : Bool) (committed : ExternalId → Bool)

inductive JobAct where
  /-- The primary commit of a write. -/
  | write (i : Nat) (batch : JobBatch)
  /-- The next step of a process. -/
  | move (i : Nat) (outcome : JobOutcome)
  /-- The committer of the full-text indexes in the background. -/
  | autoCommit (committed : ExternalId → Bool)
  /-- A crash; `kept` is what is left of entries changed since the last commit. -/
  | crash (kept : ExternalTables)
  /-- `replay_external_index_jobs` -/
  | replay (i : Nat) (order : IterOrder)

namespace ExternalSystem

variable [External] [Formats] (s : ExternalSystem)

def goto (i : Nat) (p : JobProcess) (point : JobPoint) : ExternalSystem :=
  { s with processes := Function.update s.processes i (some { p with point := point }) }

/-- A process ends and gives the gate back. -/
def leave (i : Nat) : ExternalSystem :=
  { s with
    processes := Function.update s.processes i none
    gate := none }

/-- A step fails: a write goes on without its jobs, opening the database does not go on. -/
def fails (i : Nat) (p : JobProcess) : ExternalSystem :=
  if s.opened then s.leave i else s.goto i p .failed

/-- The entry of a document in one index is changed. -/
def withLive (job : ExternalIndexJob) (index : IndexDefinition) (live : ExternalTables) :
    ExternalSystem :=
  let x := index.externalId s.collection
  { s with
    live := live
    changed := Function.update s.changed x (Function.update (s.changed x) job.docId true) }

/-- `update_document` of the backend of one index. -/
def applyJob (job : ExternalIndexJob) (index : IndexDefinition) : ExternalSystem :=
  s.withLive job index (s.live.updateDocument s.collection index job.oldDoc job.newDoc)

/-- An update that got no further than the removal. -/
def removeOnly (job : ExternalIndexJob) (index : IndexDefinition) : ExternalSystem :=
  s.withLive job index
    (s.live.removeEntry (index.externalId s.collection) job.oldDoc job.newDoc)

/-- Commit some of the indexes. -/
def commitSome (committed : ExternalId → Bool) : ExternalSystem :=
  { s with
    durable := fun x => if committed x then s.live x else s.durable x
    changed := fun x docId => !committed x && s.changed x docId }

/-- `commit_all` -/
def commitAll : ExternalSystem := s.commitSome fun _ => true

/-- All jobs for all indexes, job by job. -/
def todo (jobs : List ExternalIndexJob) : List (ExternalIndexJob × IndexDefinition) :=
  jobs.flatMap fun job => s.indexes.map (Prod.mk job)

def move (i : Nat) (p : JobProcess) (outcome : JobOutcome) : ExternalSystem :=
  match p.point with
  | .waiting =>
    match s.gate with
    | some _ => s
    | none =>
      let s := s.goto i p (.applying (s.todo p.jobs))
      { s with gate := some i }
  | .applying [] => s.goto i p .committing
  | .applying ((job, index) :: rest) =>
    match outcome with
    | .ok => (s.applyJob job index).goto i p (.applying rest)
    | .err removed _ => (if removed then s.removeOnly job index else s).fails i p
  | .committing =>
    match outcome with
    | .ok => s.commitAll.goto i p .removing
    | .err _ committed => (s.commitSome committed).fails i p
  | .removing =>
    match outcome with
    | .ok =>
      { s.leave i with
        jobs := s.jobs.applyWrites (p.jobs.map fun job => (job.key, none))
        opened := true }
    | .err .. => s.fails i p
  | .failed => s

def step : JobAct → ExternalSystem
  | .write i batch =>
    match s.processes i with
    | some _ => s
    | none =>
      if s.opened then
        { s with
          stored := s.stored.applyWrites (batch.jobs.map fun job => (job.key, job.newDoc))
          jobs := s.jobs.applyWrites (batch.jobs.map fun job => (job.key, some job))
          processes := Function.update s.processes i (some ⟨batch.jobs, .waiting⟩) }
      else s
  | .move i outcome =>
    match s.processes i with
    | none => s
    | some p => s.move i p outcome
  -- opening the database does not hold the gate while it applies the jobs
  | .autoCommit committed => if s.gate.isNone || !s.opened then s.commitSome committed else s
  | .crash kept =>
    let left : ExternalTables := fun x docId =>
      if s.changed x docId then kept x docId else s.durable x docId
    { s with
      live := left
      durable := left
      changed := fun _ _ => false
      gate := none
      processes := fun _ => none
      opened := false }
  | .replay i order =>
    if s.opened || s.gate.isSome then s
    else
      let jobs := s.jobs.toList.map fun e => e.2.reread order
      if jobs.isEmpty then { s with opened := true }
      else
        { s with
          gate := some i
          processes := Function.update s.processes i (some ⟨jobs, .applying (s.todo jobs)⟩) }

def run (acts : List JobAct) : ExternalSystem := acts.foldl step s

/-! ## What the indexes should have -/

/-- The entry of the stored version of a document. -/
def entryFor (index : IndexDefinition) (docId : String) : Option ExternalEntry :=
  s.stored[utf8 docId]?.bind (externalEntry index)

/-- Every external index has the entry of the stored version. -/
def Indexed (docId : String) : Prop :=
  ∀ index ∈ s.indexes, s.live (index.externalId s.collection) docId = s.entryFor index docId

/-- And a crash does not change that. -/
def Settled (docId : String) : Prop :=
  s.Indexed docId ∧ ∀ index ∈ s.indexes,
    s.durable (index.externalId s.collection) docId = s.live (index.externalId s.collection) docId ∧
      s.changed (index.externalId s.collection) docId = false

end ExternalSystem

section Versions

variable [External] [Formats]

/-- Two versions with the same entries. -/
def SameEntries (indexes : List IndexDefinition) (v w : Option Document) : Prop :=
  ∀ index ∈ indexes, v.bind (externalEntry index) = w.bind (externalEntry index)

/-- Indexes that share a backend instance index the same. -/
def Separate (indexes : List IndexDefinition) (collection : String) : Prop :=
  ∀ i ∈ indexes, ∀ j ∈ indexes, i.externalId collection = j.externalId collection →
    ∀ d, externalEntry i d = externalEntry j d

end Versions

namespace ExternalSystem

variable [External] [Formats]

/-! ## The invariant -/

structure Tracked (s : ExternalSystem) : Prop where
  filed : ∀ (k : Bytes) (job : ExternalIndexJob), s.jobs[k]? = some job → k = job.key
  /-- A job is about the stored version. -/
  current : ∀ (k : Bytes) (job : ExternalIndexJob), s.jobs[k]? = some job → job.newDoc = s.stored[k]?
  settled : ∀ docId, s.jobs[utf8 docId]? = none → s.Settled docId
  gated : ∀ i p, s.processes i = some p → p.point ≠ .waiting → s.gate = some i
  recorded : ∀ i p, s.processes i = some p → ∀ job ∈ p.jobs, s.jobs[job.key]?.isSome
  carried : ∀ i p, s.processes i = some p → ∀ job ∈ p.jobs,
    SameEntries s.indexes job.newDoc s.stored[job.key]?
  /-- No two processes are about one document. -/
  apart : ∀ i j p q, s.processes i = some p → s.processes j = some q → i ≠ j →
    ∀ a ∈ p.jobs, ∀ b ∈ q.jobs, a.docId ≠ b.docId
  applying : ∀ i p todo, s.processes i = some p → p.point = .applying todo →
    (∀ e ∈ todo, e.1 ∈ p.jobs ∧ e.2 ∈ s.indexes) ∧
      ∀ job ∈ p.jobs, ∀ index ∈ s.indexes, (job, index) ∉ todo →
        s.live (index.externalId s.collection) job.docId = s.entryFor index job.docId
  committing : ∀ i p, s.processes i = some p → p.point = .committing →
    ∀ job ∈ p.jobs, s.Indexed job.docId
  removing : ∀ i p, s.processes i = some p → p.point = .removing →
    ∀ job ∈ p.jobs, s.Settled job.docId
  /-- While the database is not open, a process has all jobs. -/
  closed : s.opened = false → ∀ i p, s.processes i = some p → p.point ≠ .waiting ∧
    ∀ (k : Bytes) (job : ExternalIndexJob), s.jobs[k]? = some job → ∃ j ∈ p.jobs, j.docId = job.docId

variable {s : ExternalSystem} {i : Nat} {p : JobProcess}

omit [External] [Formats] in
theorem processes_update {procs : Nat → Option JobProcess} {i j : Nat} {p q : JobProcess}
    (h : Function.update procs i (some q) j = some p) :
    (j = i ∧ p = q) ∨ (j ≠ i ∧ procs j = some p) := by
  by_cases hj : j = i
  · subst hj
    rw [Function.update_self] at h
    exact Or.inl ⟨rfl, (Option.some.inj h).symm⟩
  · rw [Function.update_of_ne hj] at h
    exact Or.inr ⟨hj, h⟩

omit [External] [Formats] in
theorem processes_removed {procs : Nat → Option JobProcess} {i j : Nat} {p : JobProcess}
    (h : Function.update procs i none j = some p) : j ≠ i ∧ procs j = some p := by
  by_cases hj : j = i
  · subst hj
    rw [Function.update_self] at h
    cases h
  · rw [Function.update_of_ne hj] at h
    exact ⟨hj, h⟩

/-- A process goes on to a point of the gate's holder. -/
theorem Tracked.goto (h : Tracked s) (hp : s.processes i = some p) (hgate : s.gate = some i)
    {point : JobPoint} (hpoint : point ≠ .waiting)
    (happlying : ∀ todo, point = .applying todo →
      (∀ e ∈ todo, e.1 ∈ p.jobs ∧ e.2 ∈ s.indexes) ∧
        ∀ job ∈ p.jobs, ∀ index ∈ s.indexes, (job, index) ∉ todo →
          s.live (index.externalId s.collection) job.docId = s.entryFor index job.docId)
    (hcommitting : point = .committing → ∀ job ∈ p.jobs, s.Indexed job.docId)
    (hremoving : point = .removing → ∀ job ∈ p.jobs, s.Settled job.docId) :
    Tracked (s.goto i p point) where
  filed := h.filed
  current := h.current
  settled := h.settled
  gated j q hq hne := by
    rcases processes_update hq with ⟨rfl, -⟩ | ⟨-, hq⟩
    · exact hgate
    · exact h.gated j q hq hne
  recorded j q hq := by
    rcases processes_update hq with ⟨rfl, rfl⟩ | ⟨-, hq⟩
    · exact h.recorded j p hp
    · exact h.recorded j q hq
  carried j q hq := by
    rcases processes_update hq with ⟨rfl, rfl⟩ | ⟨-, hq⟩
    · exact h.carried j p hp
    · exact h.carried j q hq
  apart j j' q q' hq hq' hne := by
    rcases processes_update hq with ⟨rfl, rfl⟩ | ⟨-, hother⟩
    · rcases processes_update hq' with ⟨rfl, rfl⟩ | ⟨-, hq'⟩
      · exact absurd rfl hne
      · exact h.apart j j' p q' hp hq' hne
    · rcases processes_update hq' with ⟨rfl, rfl⟩ | ⟨-, hother'⟩
      · exact h.apart j j' q p hother hp hne
      · exact h.apart j j' q q' hother hother' hne
  applying j q todo hq htodo := by
    rcases processes_update hq with ⟨rfl, rfl⟩ | ⟨-, hq⟩
    · exact happlying todo htodo
    · exact h.applying j q todo hq htodo
  committing j q hq hpoint' := by
    rcases processes_update hq with ⟨rfl, rfl⟩ | ⟨-, hq⟩
    · exact hcommitting hpoint'
    · exact h.committing j q hq hpoint'
  removing j q hq hpoint' := by
    rcases processes_update hq with ⟨rfl, rfl⟩ | ⟨-, hq⟩
    · exact hremoving hpoint'
    · exact h.removing j q hq hpoint'
  closed hclosed j q hq := by
    rcases processes_update hq with ⟨rfl, rfl⟩ | ⟨-, hq⟩
    · exact ⟨hpoint, (h.closed hclosed j p hp).2⟩
    · exact h.closed hclosed j q hq

/-- The process that holds the gate is the only one beyond `waiting`. -/
theorem Tracked.holder (h : Tracked s) (hgate : s.gate = some i) {j : Nat} {q : JobProcess}
    (hq : s.processes j = some q) (hpoint : q.point ≠ .waiting) : j = i := by
  have hj := h.gated j q hq hpoint
  rw [hgate] at hj
  exact (Option.some.inj hj).symm

/-- A process ends without removing its jobs. -/
theorem Tracked.leave (h : Tracked s) (hgate : s.gate = some i) : Tracked (s.leave i) where
  filed := h.filed
  current := h.current
  settled := h.settled
  gated j q hq hne := by
    obtain ⟨hj, hq⟩ := processes_removed hq
    exact absurd (h.holder hgate hq hne) hj
  recorded j q hq := h.recorded j q (processes_removed hq).2
  carried j q hq := h.carried j q (processes_removed hq).2
  apart j j' q q' hq hq' :=
    h.apart j j' q q' (processes_removed hq).2 (processes_removed hq').2
  applying j q todo hq := h.applying j q todo (processes_removed hq).2
  committing j q hq := h.committing j q (processes_removed hq).2
  removing j q hq := h.removing j q (processes_removed hq).2
  closed hclosed j q hq := h.closed hclosed j q (processes_removed hq).2

theorem Tracked.fails (h : Tracked (s.goto i p .failed)) : Tracked (s.fails i p) := by
  have hgate : s.gate = some i :=
    h.gated i { p with point := .failed } (Function.update_self ..) nofun
  unfold ExternalSystem.fails
  split
  · have hleft : (s.goto i p .failed).leave i = s.leave i := by
      unfold ExternalSystem.leave ExternalSystem.goto
      rw [Function.update_idem]
    exact hleft ▸ h.leave hgate
  · exact h

/-- An error that changes nothing. -/
theorem Tracked.stops (h : Tracked s) (hp : s.processes i = some p) (hpoint : p.point ≠ .waiting) :
    Tracked (s.fails i p) := by
  have hfailed : Tracked (s.goto i p .failed) :=
    h.goto hp (h.gated i p hp hpoint) nofun nofun nofun nofun
  exact hfailed.fails

/-! ## Steps of a process -/

theorem Tracked.withGate (h : Tracked s) (hgate : s.gate = none) (i : Nat) :
    Tracked { s with gate := some i } :=
  { h with
    gated := by
      intro j q hq hpoint
      have hj := h.gated j q hq hpoint
      rw [hgate] at hj
      cases hj }

omit [External] [Formats] in
theorem mem_todo {jobs : List ExternalIndexJob} {job : ExternalIndexJob} {index : IndexDefinition} :
    (job, index) ∈ s.todo jobs ↔ job ∈ jobs ∧ index ∈ s.indexes := by
  unfold todo
  rw [List.mem_flatMap]
  constructor
  · rintro ⟨job', hjob, hpair⟩
    obtain ⟨index', hindex, heq⟩ := List.mem_map.mp hpair
    obtain ⟨rfl, rfl⟩ := Prod.mk.inj heq
    exact ⟨hjob, hindex⟩
  · rintro ⟨hjob, hindex⟩
    exact ⟨job, hjob, List.mem_map_of_mem hindex⟩

/-- Nothing has been applied yet. -/
theorem todo_applying (s : ExternalSystem) (jobs : List ExternalIndexJob) :
    (∀ e ∈ s.todo jobs, e.1 ∈ jobs ∧ e.2 ∈ s.indexes) ∧
      ∀ job ∈ jobs, ∀ index ∈ s.indexes, (job, index) ∉ s.todo jobs →
        s.live (index.externalId s.collection) job.docId = s.entryFor index job.docId :=
  ⟨fun _ he => mem_todo.mp he,
    fun _ hjob _ hindex hnot => absurd (mem_todo.mpr ⟨hjob, hindex⟩) hnot⟩

/-- The entries of one document change, in a step of the process that has its job. -/
theorem Tracked.touch (h : Tracked s) (hp : s.processes i = some p) {job : ExternalIndexJob}
    {index : IndexDefinition} {rest : List (ExternalIndexJob × IndexDefinition)}
    (hpoint : p.point = .applying ((job, index) :: rest)) {live : ExternalTables}
    (hlive : ∀ x docId, docId ≠ job.docId → live x docId = s.live x docId) {point : JobPoint}
    (hwaiting : point ≠ .waiting) (hcommitting : point ≠ .committing) (hremoving : point ≠ .removing)
    (happlying : ∀ todo, point = .applying todo →
      (∀ e ∈ todo, e.1 ∈ p.jobs ∧ e.2 ∈ s.indexes) ∧
        ∀ job' ∈ p.jobs, ∀ index' ∈ s.indexes, (job', index') ∉ todo →
          live (index'.externalId s.collection) job'.docId = s.entryFor index' job'.docId) :
    Tracked ((s.withLive job index live).goto i p point) := by
  have hgate : s.gate = some i := h.gated i p hp (by rw [hpoint]; exact nofun)
  have hjob : job ∈ p.jobs := ((h.applying i p _ hp hpoint).1 (job, index) List.mem_cons_self).1
  -- documents without a job are not this one
  have hframe : ∀ docId, docId ≠ job.docId → s.Settled docId →
      (s.withLive job index live).Settled docId := by
    intro docId hne hsettled
    refine ⟨fun index' hindex' => (hlive _ _ hne).trans (hsettled.1 index' hindex'), ?_⟩
    intro index' hindex'
    refine ⟨(hsettled.2 index' hindex').1.trans (hlive _ _ hne).symm, ?_⟩
    show Function.update s.changed _ (Function.update _ job.docId true)
      (index'.externalId s.collection) docId = false
    by_cases hx : index'.externalId s.collection = index.externalId s.collection
    · rw [hx, Function.update_self, Function.update_of_ne hne, ← hx]
      exact (hsettled.2 index' hindex').2
    · rw [Function.update_of_ne hx]
      exact (hsettled.2 index' hindex').2
  exact {
    filed := h.filed
    current := h.current
    settled := by
      intro docId hnone
      refine hframe docId ?_ (h.settled docId hnone)
      rintro rfl
      have hsome := h.recorded i p hp job hjob
      have hnone : s.jobs[job.key]? = none := hnone
      rw [hnone] at hsome
      cases hsome
    gated := by
      intro j q hq hne
      rcases processes_update hq with ⟨rfl, -⟩ | ⟨-, hq⟩
      · exact hgate
      · exact h.gated j q hq hne
    recorded := by
      intro j q hq
      rcases processes_update hq with ⟨rfl, rfl⟩ | ⟨-, hq⟩
      · exact h.recorded j p hp
      · exact h.recorded j q hq
    carried := by
      intro j q hq
      rcases processes_update hq with ⟨rfl, rfl⟩ | ⟨-, hq⟩
      · exact h.carried j p hp
      · exact h.carried j q hq
    apart := by
      intro j j' q q' hq hq' hne
      rcases processes_update hq with ⟨rfl, rfl⟩ | ⟨-, hother⟩
      · rcases processes_update hq' with ⟨rfl, rfl⟩ | ⟨-, hq'⟩
        · exact absurd rfl hne
        · exact h.apart j j' p q' hp hq' hne
      · rcases processes_update hq' with ⟨rfl, rfl⟩ | ⟨-, hother'⟩
        · exact h.apart j j' q p hother hp hne
        · exact h.apart j j' q q' hother hother' hne
    applying := by
      intro j q todo hq htodo
      rcases processes_update hq with ⟨rfl, rfl⟩ | ⟨hj, hq⟩
      · exact happlying todo htodo
      · exact absurd (h.holder hgate hq (by rw [htodo]; exact nofun)) hj
    committing := by
      intro j q hq hq'
      rcases processes_update hq with ⟨rfl, rfl⟩ | ⟨hj, hq⟩
      · exact absurd hq' hcommitting
      · exact absurd (h.holder hgate hq (by rw [hq']; exact nofun)) hj
    removing := by
      intro j q hq hq'
      rcases processes_update hq with ⟨rfl, rfl⟩ | ⟨hj, hq⟩
      · exact absurd hq' hremoving
      · exact absurd (h.holder hgate hq (by rw [hq']; exact nofun)) hj
    closed := by
      intro hclosed j q hq
      rcases processes_update hq with ⟨rfl, rfl⟩ | ⟨-, hq⟩
      · exact ⟨hwaiting, (h.closed hclosed j p hp).2⟩
      · exact h.closed hclosed j q hq }

/-- One job applied to one index: the entry of its document, and no other. -/
theorem Tracked.applyJob_live (h : Tracked s) (hseparate : Separate s.indexes s.collection)
    (hp : s.processes i = some p) {job : ExternalIndexJob} (hjob : job ∈ p.jobs)
    {index : IndexDefinition} (hindex : index ∈ s.indexes) {index' : IndexDefinition}
    (hindex' : index' ∈ s.indexes) (docId : String) :
    (s.applyJob job index).live (index'.externalId s.collection) docId =
      if index'.externalId s.collection = index.externalId s.collection ∧ docId = job.docId then
        s.entryFor index' docId
      else s.live (index'.externalId s.collection) docId := by
  have hupdate := ExternalTables.updateDocument_apply s.live s.collection index job.oldNamed
    job.newNamed job.present (index'.externalId s.collection) docId
  refine hupdate.trans ?_
  by_cases hplace : index'.externalId s.collection = index.externalId s.collection ∧
      docId = job.docId
  · rw [if_pos hplace, if_pos hplace, h.carried i p hp job hjob index hindex, hplace.2, entryFor]
    exact congrArg s.stored[job.key]?.bind
      (funext (hseparate index hindex index' hindex' hplace.1.symm))
  · rw [if_neg hplace, if_neg hplace]

theorem Tracked.applyJob (h : Tracked s) (hseparate : Separate s.indexes s.collection)
    (hp : s.processes i = some p) {job : ExternalIndexJob} {index : IndexDefinition}
    {rest : List (ExternalIndexJob × IndexDefinition)}
    (hpoint : p.point = .applying ((job, index) :: rest)) :
    Tracked ((s.applyJob job index).goto i p (.applying rest)) := by
  obtain ⟨hmem, happlied⟩ := h.applying i p _ hp hpoint
  obtain ⟨hjob, hindex⟩ := hmem (job, index) List.mem_cons_self
  refine h.touch hp hpoint ?_ nofun nofun nofun ?_
  · intro x docId hne
    have hupdate := ExternalTables.updateDocument_apply s.live s.collection index job.oldNamed
      job.newNamed job.present x docId
    exact hupdate.trans (if_neg fun hplace => hne hplace.2)
  intro todo htodo
  obtain rfl := JobPoint.applying.inj htodo
  refine ⟨fun e he => hmem e (List.mem_cons_of_mem _ he), ?_⟩
  intro job' hjob' index' hindex' hnot
  refine (h.applyJob_live hseparate hp hjob hindex hindex' job'.docId).trans ?_
  split
  · rfl
  · next hplace =>
    refine happlied job' hjob' index' hindex' ?_
    intro hmem'
    rcases List.mem_cons.mp hmem' with heq | hmem'
    · obtain ⟨rfl, rfl⟩ := Prod.mk.inj heq
      exact hplace ⟨rfl, rfl⟩
    · exact hnot hmem'

/-- An update that fails, before or after it removed the old entry. -/
theorem Tracked.applyFails (h : Tracked s) (hp : s.processes i = some p) {job : ExternalIndexJob}
    {index : IndexDefinition} {rest : List (ExternalIndexJob × IndexDefinition)}
    (hpoint : p.point = .applying ((job, index) :: rest)) (removed : Bool) :
    Tracked ((if removed then s.removeOnly job index else s).fails i p) := by
  cases removed with
  | false => exact h.stops hp (by rw [hpoint]; exact nofun)
  | true =>
    have hfailed : Tracked ((s.removeOnly job index).goto i p .failed) := by
      refine h.touch hp hpoint ?_ nofun nofun nofun nofun
      intro x docId hne
      rw [ExternalTables.removeEntry_eq s.live _ job.oldNamed job.newNamed job.present,
        ExternalTables.put_apply, if_neg fun hplace => hne hplace.2]
    exact hfailed.fails

theorem commitSome_settled (committed : ExternalId → Bool) {docId : String}
    (h : s.Settled docId) : (s.commitSome committed).Settled docId := by
  refine ⟨h.1, fun index hindex => ⟨?_, ?_⟩⟩
  · show (if committed (index.externalId s.collection) then s.live (index.externalId s.collection)
      else s.durable (index.externalId s.collection)) docId = _
    split
    · rfl
    · exact (h.2 index hindex).1
  · show (!committed _ && s.changed (index.externalId s.collection) docId) = false
    rw [(h.2 index hindex).2, Bool.and_false]

theorem Tracked.commitSome (h : Tracked s) (committed : ExternalId → Bool) :
    Tracked (s.commitSome committed) :=
  { filed := h.filed
    current := h.current
    settled := fun docId hnone => commitSome_settled committed (h.settled docId hnone)
    gated := h.gated
    recorded := h.recorded
    carried := h.carried
    apart := h.apart
    applying := h.applying
    committing := h.committing
    removing := fun i p hp hpoint job hjob =>
      commitSome_settled committed (h.removing i p hp hpoint job hjob)
    closed := h.closed }

omit [External] [Formats] in
/-- The jobs without those of a process. -/
theorem getElem?_removed (jobs : Keyspace ExternalIndexJob) (done : List ExternalIndexJob)
    (k : Bytes) :
    (jobs.applyWrites (done.map fun job => (job.key, none)))[k]? =
      if ∃ job ∈ done, job.key = k then none else jobs[k]? := by
  by_cases hk : ∃ job ∈ done, job.key = k
  · obtain ⟨job, hjob, rfl⟩ := hk
    rw [if_pos ⟨job, hjob, rfl⟩]
    apply Keyspace.getElem?_applyWrites_of_same
    · exact List.mem_map.mpr ⟨job, hjob, rfl⟩
    · intro w hw _
      obtain ⟨job', -, rfl⟩ := List.mem_map.mp hw
      rfl
  · rw [if_neg hk]
    apply Keyspace.getElem?_applyWrites_of_untouched
    intro w hw hwk
    obtain ⟨job', hjob', rfl⟩ := List.mem_map.mp hw
    exact hk ⟨job', hjob', hwk⟩

/-- A process ends; its documents are settled and lose their jobs. -/
theorem Tracked.finish (h : Tracked s) (hp : s.processes i = some p)
    (hpoint : p.point = .removing) :
    Tracked { s.leave i with
      jobs := s.jobs.applyWrites (p.jobs.map fun job => (job.key, none))
      opened := true } := by
  have hgate : s.gate = some i := h.gated i p hp (by rw [hpoint]; exact nofun)
  have hleft := h.leave hgate
  have hjobs : ∀ (k : Bytes) (job : ExternalIndexJob),
      (s.jobs.applyWrites (p.jobs.map fun job => (job.key, none)))[k]? = some job →
        s.jobs[k]? = some job := by
    intro k job hk
    rw [getElem?_removed] at hk
    split at hk
    · cases hk
    · exact hk
  exact {
    filed := fun k job hk => h.filed k job (hjobs k job hk)
    current := fun k job hk => h.current k job (hjobs k job hk)
    settled := by
      intro docId hnone
      rw [getElem?_removed] at hnone
      split at hnone
      · next hdone =>
        obtain ⟨job, hjob, hkey⟩ := hdone
        have hdoc : job.docId = docId := utf8_injective hkey
        exact hdoc ▸ h.removing i p hp hpoint job hjob
      · exact h.settled docId hnone
    gated := hleft.gated
    recorded := by
      intro j q hq job hjob
      obtain ⟨hj, hq'⟩ := processes_removed hq
      show ((s.jobs.applyWrites (p.jobs.map fun job => (job.key, none)))[job.key]?).isSome
      rw [getElem?_removed, if_neg]
      · exact h.recorded j q hq' job hjob
      · rintro ⟨done, hdone, hkey⟩
        exact h.apart j i q p hq' hp hj job hjob done hdone (utf8_injective hkey).symm
    carried := hleft.carried
    apart := hleft.apart
    applying := hleft.applying
    committing := hleft.committing
    removing := hleft.removing
    closed := nofun }

theorem Tracked.move (h : Tracked s) (hseparate : Separate s.indexes s.collection)
    (hp : s.processes i = some p) (outcome : JobOutcome) : Tracked (s.move i p outcome) := by
  unfold ExternalSystem.move
  cases hpoint : p.point with
  | waiting =>
    cases hgate : s.gate with
    | some j => exact h
    | none =>
      exact (h.withGate hgate i).goto hp rfl nofun
        (fun todo htodo => JobPoint.applying.inj htodo ▸ todo_applying s p.jobs) nofun nofun
  | applying todo =>
    have hgate : s.gate = some i := h.gated i p hp (by rw [hpoint]; exact nofun)
    cases todo with
    | nil =>
      refine h.goto hp hgate nofun nofun ?_ nofun
      intro _ job hjob index hindex
      exact (h.applying i p [] hp hpoint).2 job hjob index hindex List.not_mem_nil
    | cons e rest =>
      obtain ⟨job, index⟩ := e
      cases outcome with
      | ok => exact h.applyJob hseparate hp hpoint
      | err removed committed => exact h.applyFails hp hpoint removed
  | committing =>
    have hgate : s.gate = some i := h.gated i p hp (by rw [hpoint]; exact nofun)
    cases outcome with
    | ok =>
      refine (h.commitSome _).goto hp hgate nofun nofun nofun ?_
      intro _ job hjob
      exact ⟨h.committing i p hp hpoint job hjob, fun _ _ => ⟨rfl, rfl⟩⟩
    | err removed committed =>
      exact (h.commitSome committed).stops hp (by rw [hpoint]; exact nofun)
  | removing =>
    cases outcome with
    | ok => exact h.finish hp hpoint
    | err removed committed => exact h.stops hp (by rw [hpoint]; exact nofun)
  | failed => exact h

/-! ## The other steps -/

omit [External] [Formats] in
/-- A write of the batch, read at one of its documents. -/
theorem getElem?_written {V : Type} (batch : JobBatch) (version : ExternalIndexJob → Option V)
    (ks : Keyspace V) {job : ExternalIndexJob} (hjob : job ∈ batch.jobs) :
    (ks.applyWrites (batch.jobs.map fun job => (job.key, version job)))[job.key]? =
      version job := by
  have hnodup : ((batch.jobs.map fun job => (job.key, version job)).map Prod.fst).Nodup := by
    have hkeys := batch.distinct.map utf8_injective
    rw [List.map_map] at hkeys ⊢
    exact hkeys
  exact Keyspace.getElem?_applyWrites_of_mem hnodup (List.mem_map_of_mem hjob) ks

omit [External] [Formats] in
/-- And at any other one. -/
theorem getElem?_unwritten {V : Type} {batch : JobBatch} {k : Bytes}
    (h : ∀ job ∈ batch.jobs, job.key ≠ k) (version : ExternalIndexJob → Option V)
    (ks : Keyspace V) :
    (ks.applyWrites (batch.jobs.map fun job => (job.key, version job)))[k]? = ks[k]? := by
  apply Keyspace.getElem?_applyWrites_of_untouched
  intro w hw
  obtain ⟨job, hjob, rfl⟩ := List.mem_map.mp hw
  exact h job hjob

/-- No process has a job of a document of the batch. -/
def Clear (s : ExternalSystem) (batch : JobBatch) : Prop :=
  ∀ i p, s.processes i = some p → ∀ a ∈ p.jobs, ∀ b ∈ batch.jobs, a.docId ≠ b.docId

theorem Tracked.write (h : Tracked s) {batch : JobBatch} (hclear : s.Clear batch)
    (hopened : s.opened = true) :
    Tracked { s with
      stored := s.stored.applyWrites (batch.jobs.map fun job => (job.key, job.newDoc))
      jobs := s.jobs.applyWrites (batch.jobs.map fun job => (job.key, some job))
      processes := Function.update s.processes i (some ⟨batch.jobs, .waiting⟩) } := by
  -- the documents of processes under way are none of the batch
  have hother : ∀ {j q}, s.processes j = some q → ∀ {job}, job ∈ q.jobs →
      ∀ b ∈ batch.jobs, b.key ≠ job.key := by
    intro j q hq job hjob b hb hkey
    exact hclear j q hq job hjob b hb (utf8_injective hkey).symm
  have hrecord : ∀ (k : Bytes) (job : ExternalIndexJob),
      (s.jobs.applyWrites (batch.jobs.map fun job => (job.key, some job)))[k]? = some job →
        (job ∈ batch.jobs ∧ k = job.key) ∨
          (∀ b ∈ batch.jobs, b.key ≠ k) ∧ s.jobs[k]? = some job := by
    intro k job hk
    by_cases hin : ∃ b ∈ batch.jobs, b.key = k
    · obtain ⟨b, hb, rfl⟩ := hin
      rw [getElem?_written batch some s.jobs hb] at hk
      obtain rfl := Option.some.inj hk
      exact Or.inl ⟨hb, rfl⟩
    · have hnot : ∀ b ∈ batch.jobs, b.key ≠ k := fun b hb hbk => hin ⟨b, hb, hbk⟩
      rw [getElem?_unwritten hnot some s.jobs] at hk
      exact Or.inr ⟨hnot, hk⟩
  have hentry : ∀ docId, (∀ b ∈ batch.jobs, b.key ≠ utf8 docId) →
      (s.stored.applyWrites (batch.jobs.map fun job => (job.key, job.newDoc)))[utf8 docId]? =
        s.stored[utf8 docId]? :=
    fun docId hnot => getElem?_unwritten hnot ExternalIndexJob.newDoc s.stored
  refine ⟨?_, ?_, ?_, ?_, ?_, ?_, ?_, ?_, ?_, ?_, ?_⟩
  · intro k job hk
    rcases hrecord k job hk with ⟨-, hkey⟩ | ⟨-, hk⟩
    · exact hkey
    · exact h.filed k job hk
  · intro k job hk
    rcases hrecord k job hk with ⟨hjob, rfl⟩ | ⟨hnot, hk⟩
    · exact (getElem?_written batch ExternalIndexJob.newDoc s.stored hjob).symm
    · exact (h.current k job hk).trans
        (getElem?_unwritten hnot ExternalIndexJob.newDoc s.stored).symm
  · intro docId hnone
    have hnot : ∀ b ∈ batch.jobs, b.key ≠ utf8 docId := by
      intro b hb hkey
      have hsome := getElem?_written batch some s.jobs hb
      rw [hkey] at hsome
      cases hsome.symm.trans hnone
    have hsettled := h.settled docId ((getElem?_unwritten hnot some s.jobs).symm.trans hnone)
    refine ⟨fun index hindex => (hsettled.1 index hindex).trans ?_, hsettled.2⟩
    exact congrArg (·.bind (externalEntry index)) (hentry docId hnot).symm
  · intro j q hq hpoint
    rcases processes_update hq with ⟨-, rfl⟩ | ⟨-, hq⟩
    · exact absurd rfl hpoint
    · exact h.gated j q hq hpoint
  · intro j q hq job hjob
    rcases processes_update hq with ⟨-, rfl⟩ | ⟨-, hq⟩
    · exact Option.isSome_iff_exists.mpr ⟨job, getElem?_written batch some s.jobs hjob⟩
    · refine Eq.trans ?_ (h.recorded j q hq job hjob)
      exact congrArg Option.isSome (getElem?_unwritten (hother hq hjob) some s.jobs)
  · intro j q hq job hjob
    rcases processes_update hq with ⟨-, rfl⟩ | ⟨-, hq⟩
    · intro index _
      exact congrArg (·.bind (externalEntry index))
        (getElem?_written batch ExternalIndexJob.newDoc s.stored hjob).symm
    · intro index hindex
      refine (h.carried j q hq job hjob index hindex).trans ?_
      exact congrArg (·.bind (externalEntry index)) (hentry job.docId (hother hq hjob)).symm
  · intro j j' q q' hq hq' hne a ha b hb
    rcases processes_update hq with ⟨rfl, rfl⟩ | ⟨-, hold⟩
    · rcases processes_update hq' with ⟨rfl, rfl⟩ | ⟨-, hold'⟩
      · exact absurd rfl hne
      · exact (hclear j' q' hold' b hb a ha).symm
    · rcases processes_update hq' with ⟨rfl, rfl⟩ | ⟨-, hold'⟩
      · exact hclear j q hold a ha b hb
      · exact h.apart j j' q q' hold hold' hne a ha b hb
  · intro j q todo hq htodo
    rcases processes_update hq with ⟨-, rfl⟩ | ⟨-, hq⟩
    · cases htodo
    · refine ⟨(h.applying j q todo hq htodo).1, ?_⟩
      intro job hjob index hindex hnot
      refine ((h.applying j q todo hq htodo).2 job hjob index hindex hnot).trans ?_
      exact congrArg (·.bind (externalEntry index)) (hentry job.docId (hother hq hjob)).symm
  · intro j q hq hpoint job hjob index hindex
    rcases processes_update hq with ⟨-, rfl⟩ | ⟨-, hq⟩
    · cases hpoint
    · refine (h.committing j q hq hpoint job hjob index hindex).trans ?_
      exact congrArg (·.bind (externalEntry index)) (hentry job.docId (hother hq hjob)).symm
  · intro j q hq hpoint job hjob
    rcases processes_update hq with ⟨-, rfl⟩ | ⟨-, hq⟩
    · cases hpoint
    · have hsettled := h.removing j q hq hpoint job hjob
      refine ⟨fun index hindex => (hsettled.1 index hindex).trans ?_, hsettled.2⟩
      exact congrArg (·.bind (externalEntry index)) (hentry job.docId (hother hq hjob)).symm
  · intro hclosed
    exact absurd (hclosed.symm.trans hopened) nofun

/-- Of a crash, a settled document keeps its entries. -/
theorem crash_settled (kept : ExternalTables) {docId : String} (h : s.Settled docId) :
    (s.step (.crash kept)).Settled docId := by
  have hlive : ∀ index ∈ s.indexes,
      (s.step (.crash kept)).live (index.externalId s.collection) docId =
        s.live (index.externalId s.collection) docId := by
    intro index hindex
    show (if s.changed (index.externalId s.collection) docId then _ else _) = _
    rw [(h.2 index hindex).2]
    exact (h.2 index hindex).1
  exact ⟨fun index hindex => (hlive index hindex).trans (h.1 index hindex), fun _ _ => ⟨rfl, rfl⟩⟩

theorem Tracked.crash (h : Tracked s) (kept : ExternalTables) :
    Tracked (s.step (.crash kept)) where
  filed := h.filed
  current := h.current
  settled docId hnone := crash_settled kept (h.settled docId hnone)
  gated := nofun
  recorded := nofun
  carried := nofun
  apart := nofun
  applying := nofun
  committing := nofun
  removing := nofun
  closed := nofun

/-- The jobs that are left have the same entries after they were read back. -/
def RereadsAlike (s : ExternalSystem) (order : IterOrder) : Prop :=
  ∀ (k : Bytes) (job : ExternalIndexJob), s.jobs[k]? = some job →
    SameEntries s.indexes (job.reread order).newDoc job.newDoc

theorem Tracked.replay (h : Tracked s) {order : IterOrder} (halike : s.RereadsAlike order)
    (i : Nat) : Tracked (s.step (.replay i order)) := by
  show Tracked (if s.opened || s.gate.isSome then s else _)
  split
  · exact h
  next hidle =>
  rw [Bool.or_eq_true, not_or, Bool.not_eq_true, Bool.not_eq_true, Option.isSome_eq_false_iff,
    Option.isNone_iff_eq_none] at hidle
  split
  · exact { h with closed := nofun }
  -- the process has every job, and there was none before it
  have hjob : ∀ job ∈ s.jobs.toList.map (fun e => e.2.reread order),
      ∃ record : ExternalIndexJob, s.jobs[record.key]? = some record ∧
        job = record.reread order := by
    intro job hmem
    obtain ⟨e, he, rfl⟩ := List.mem_map.mp hmem
    have hrecord := Std.ExtTreeMap.mem_toList_iff_getElem?_eq_some.mp he
    exact ⟨e.2, h.filed e.1 e.2 hrecord ▸ hrecord, rfl⟩
  have hnone : ∀ j, s.processes j = none := by
    intro j
    cases hq : s.processes j with
    | none => rfl
    | some q =>
      have hgate := h.gated j q hq (h.closed hidle.1 j q hq).1
      cases hidle.2.symm.trans hgate
  have honly : ∀ {j : Nat} {q new : JobProcess},
      Function.update s.processes i (some new) j = some q → j = i ∧ q = new := by
    intro j q new hq
    rcases processes_update hq with hnew | ⟨-, hq⟩
    · exact hnew
    · cases (hnone j).symm.trans hq
  refine ⟨h.filed, h.current, h.settled, ?_, ?_, ?_, ?_, ?_, ?_, ?_, ?_⟩
  · intro j q hq _
    exact congrArg some (honly hq).1.symm
  · intro j q hq job hmem
    obtain ⟨-, rfl⟩ := honly hq
    obtain ⟨record, hrecord, rfl⟩ := hjob job hmem
    exact Option.isSome_iff_exists.mpr ⟨record, hrecord⟩
  · intro j q hq job hmem index hindex
    obtain ⟨-, rfl⟩ := honly hq
    obtain ⟨record, hrecord, rfl⟩ := hjob job hmem
    have hcurrent := h.current record.key record hrecord
    exact (halike record.key record hrecord index hindex).trans
      (congrArg (·.bind (externalEntry index)) hcurrent)
  · intro j j' q q' hq hq' hne
    exact absurd ((honly hq).1.trans (honly hq').1.symm) hne
  · intro j q todo hq htodo
    obtain ⟨-, rfl⟩ := honly hq
    obtain rfl := JobPoint.applying.inj htodo
    exact todo_applying s _
  · intro j q hq hpoint
    obtain ⟨-, rfl⟩ := honly hq
    cases hpoint
  · intro j q hq hpoint
    obtain ⟨-, rfl⟩ := honly hq
    cases hpoint
  · intro _ j q hq
    obtain ⟨-, rfl⟩ := honly hq
    refine ⟨nofun, ?_⟩
    intro k job hk
    refine ⟨job.reread order, List.mem_map.mpr ⟨(k, job), ?_, rfl⟩, rfl⟩
    exact Std.ExtTreeMap.mem_toList_iff_getElem?_eq_some.mpr hk

end ExternalSystem

end StellarDb
