import StellarDb.Server.Cancel

/-!
# StellarDb — DDL jobs after a restart

After a crash the table is read from the job store, the registry from the schema, and three
passes run: jobs whose definition is in the schema become ready or, if they had failed or were
cancelled, their index is taken out again (`reconcile_job_publications`); build artifacts go;
unfinished jobs are queued again and get their workers.

The job table alone does not tell whose an index in the schema is. `Orderly` lists what must not
happen for every reported index to stay (`Kept`): a failed or cancelled job with the definition
of an index that somebody else created; an index created, or dropped, between a worker's look
and its next step; leftovers of a failed DROP or publication under the same fields; a READY that
cannot be saved.
-/

namespace StellarDb

open Runs

/-! ## Opening -/

namespace DdlSystem

/-- `reconcile_job_publications` for one job. -/
def reconcileJob (jobs : List DdlJob) (entry : Σ _ : String, DdlJob) (s : DdlSystem) : DdlSystem :=
  let job := entry.2
  if job.index ∈ s.registry job.place then
    match job.state with
    | .queued | .building | .cancelling =>
      ({ s with manager := (s.manager.ready entry.1 true).1 } : DdlSystem).report job.place job.index
    | .failed | .cancelled =>
      if jobs.any fun c => c.state = .ready && c.target = job.target then s
      else s.cleanupUnpublishedIndex job.place job.index
    | .ready => s
  else s

/-- `recover_unfinished` for one job. -/
def recoverJob (id : String) (s : DdlSystem) : DdlSystem :=
  match s.manager.get id with
  | some job =>
    match job.state with
    | .building =>
      { s with manager := s.manager.put id { job with state := .queued, phase := .recovering } true }
    | .cancelling => { s with manager := s.manager.put id { job with phase := .recovering } true }
    | _ => s
  | none => s

/-- The process is gone; what it kept in memory is read from the stores. -/
def reload (s : DdlSystem) : DdlSystem :=
  { s with
    manager := ⟨s.manager.stored, s.manager.stored⟩
    registry := s.schema
    lock := fun _ => none
    workers := fun _ => none }

def spawnWorkers (s : DdlSystem) : DdlSystem :=
  { s with
    workers := fun id =>
      match s.manager.get id with
      | some job => if job.state.isActive then some ⟨.start, job⟩ else none
      | none => none }

/-- The passes of `open`, job by job. -/
def openingSteps (order : IterOrder) (s : DdlSystem) : List (DdlSystem → DdlSystem) :=
  let entries := order.iter s.manager.jobs.entries
  entries.map (reconcileJob (entries.map (·.2))) ++ entries.map fun entry => recoverJob entry.1

/-- A crash and the next start; with `cut` the start is cut short after so many steps. -/
def reopen (s : DdlSystem) (order : IterOrder) (cut : Option Nat) : DdlSystem :=
  let s := s.reload
  let steps := s.openingSteps order
  match cut with
  | some n => (steps.take n).foldl (fun s f => f s) s
  | none => (steps.foldl (fun s f => f s) s).spawnWorkers

end DdlSystem

inductive ServerAct where
  | act (a : DdlAct)
  | reopen (order : IterOrder) (cut : Option Nat)

namespace DdlSystem

def serverStep (s : DdlSystem) : ServerAct → DdlSystem
  | .act a => s.step a
  | .reopen order cut => s.reopen order cut

def serverRun (s : DdlSystem) (acts : List ServerAct) : DdlSystem := acts.foldl serverStep s

end DdlSystem

/-! ## Reported indexes -/

/-- The worker has the DDL lock and its index is not published. -/
def WorkerPoint.Critical : WorkerPoint → Prop
  | .start | .readyExisting | .locking | .readying | .unpublishing | .failing _ | .done => False
  | _ => True

namespace DdlSystem

/-- A worker with the lock: nothing else has the fields of its index until it is published. -/
structure HolderOk (s : DdlSystem) (id : String) (w : Worker) : Prop where
  critical : w.point.Critical → s.lock w.job.database = some id ∧
    ∀ i ∈ s.registry w.job.place, i.fields ≠ w.job.index.fields
  readying : w.point = .readying → s.lock w.job.database = some id ∧
    w.job.index ∈ s.registry w.job.place
  saved : w.point ≠ .unpublishing

/-- Reported indexes are registered, registered ones are in the schema, and no two indexes of a
schema have the same fields. -/
structure Listed (s : DdlSystem) : Prop where
  reported : ∀ r ∈ s.reported, r.2.2 ∈ s.registry (r.1, r.2.1)
  registered : ∀ place, s.registry place ⊆ s.schema place
  distinct : ∀ place, (s.schema place).Pairwise fun i j => i.fields ≠ j.fields

structure Kept (s : DdlSystem) : Prop extends Listed s where
  holders : ∀ id w, s.workers id = some w → HolderOk s id w

/-- What the steps of a run must not meet. -/
def Orderly (s : DdlSystem) : ServerAct → Prop
  | .act (.work id o) => ∀ w, s.workers id = some w →
    (w.point = .locking → ∀ i ∈ s.registry w.job.place, i.fields ≠ w.job.index.fields) ∧
    (w.point = .readyExisting → w.job.index ∈ s.registry w.job.place) ∧
    (w.point = .publishing → ∀ i ∈ s.schema w.job.place, i.fields = w.job.index.fields →
      i = w.job.index) ∧
    (w.point = .readying → (s.manager.ready id o.isOk).2 = .ok ())
  | .act (.createIndex database collection request _) =>
    ∀ i ∈ s.schema (database, collection), i.fields = request.fields →
      i = request.definition collection
  | .act _ => True
  | .reopen _ _ => ∀ id job, s.manager.stored.lookup id = some job →
    job.state = .failed ∨ job.state = .cancelled → job.index ∈ s.schema job.place →
    (∀ id' job', s.manager.stored.lookup id' = some job' → job'.state = .ready →
      job'.target ≠ job.target) →
    job.target ∉ s.reported ∧ ∀ id' job', s.manager.stored.lookup id' = some job' →
      job'.state.isActive = true → job'.target ≠ job.target

/-! ## Lists of indexes -/

theorem mem_removeIndexFrom {l : List IndexDefinition} {fields : List String} {i : IndexDefinition} :
    i ∈ removeIndexFrom l fields ↔ i ∈ l ∧ i.fields ≠ fields := by
  unfold removeIndexFrom
  rw [List.mem_filter, decide_eq_true_iff]

theorem mem_addIndexTo_of_mem {l : List IndexDefinition} {i x : IndexDefinition} (h : i ∈ l) :
    i ∈ addIndexTo l x := by
  unfold addIndexTo
  split
  · exact h
  · exact List.mem_append_left _ h

/-- The new index is there unless another one has its fields. -/
theorem mem_addIndexTo_self {l : List IndexDefinition} {x : IndexDefinition}
    (h : ∀ i ∈ l, i.fields = x.fields → i = x) : x ∈ addIndexTo l x := by
  unfold addIndexTo
  split
  · next hany =>
    obtain ⟨i, hi, hfields⟩ := List.any_eq_true.mp hany
    rw [decide_eq_true_iff] at hfields
    exact h i hi hfields ▸ hi
  · exact List.mem_append_right _ List.mem_cons_self

theorem pairwise_addIndexTo {l : List IndexDefinition} {x : IndexDefinition}
    (h : l.Pairwise fun i j => i.fields ≠ j.fields) :
    (addIndexTo l x).Pairwise fun i j => i.fields ≠ j.fields := by
  unfold addIndexTo
  split
  · exact h
  · next hany =>
    refine List.pairwise_append.mpr ⟨h, List.pairwise_singleton _ _, fun i hi j hj heq => hany ?_⟩
    rw [List.mem_singleton.mp hj] at heq
    exact List.any_eq_true.mpr ⟨i, hi, by simpa using heq⟩

theorem pairwise_removeIndexFrom {l : List IndexDefinition} {fields : List String}
    (h : l.Pairwise fun i j => i.fields ≠ j.fields) :
    (removeIndexFrom l fields).Pairwise fun i j => i.fields ≠ j.fields :=
  h.sublist List.filter_sublist

/-! ## Steps keep what is reported -/

section Steps

variable {s s' : DdlSystem} {id : String} {w : Worker} {p : WorkerPoint}

/-- Locks and registry of databases that these workers hold are left alone. -/
def Spares (s s' : DdlSystem) (who : String → Prop) : Prop :=
  ∀ d j, who j → s.lock d = some j → s'.lock d = some j ∧ ∀ c, s'.registry (d, c) = s.registry (d, c)

theorem HolderOk.spared (h : HolderOk s id w) (who : String → Prop) (hid : who id)
    (hs : Spares s s' who) : HolderOk s' id w := by
  refine ⟨fun hc => ?_, fun hr => ?_, h.saved⟩
  · obtain ⟨hlock, hfields⟩ := h.critical hc
    obtain ⟨hlock', hsame⟩ := hs _ id hid hlock
    refine ⟨hlock', fun i hi => hfields i ?_⟩
    rwa [DdlJob.place, hsame] at hi
  · obtain ⟨hlock, hregistry⟩ := h.readying hr
    obtain ⟨hlock', hsame⟩ := hs _ id hid hlock
    refine ⟨hlock', ?_⟩
    rw [DdlJob.place, hsame]
    exact hregistry

/-- A worker without the lock. -/
theorem HolderOk.idle (hp : ¬ w.point.Critical) (hr : w.point ≠ .readying)
    (hu : w.point ≠ .unpublishing) : HolderOk s id w :=
  ⟨fun hc => absurd hc hp, fun h => absurd h hr, hu⟩

/-- The job table does not matter here. -/
theorem Kept.manager (h : s.Kept) (m : DdlJobManager) : ({ s with manager := m } : DdlSystem).Kept :=
  ⟨⟨h.reported, h.registered, h.distinct⟩, fun id w hw =>
    ⟨(h.holders id w hw).critical, (h.holders id w hw).readying, (h.holders id w hw).saved⟩⟩

theorem Kept.goto (h : s.Kept) {w' : Worker} (hok : HolderOk s id { w' with point := p }) :
    (s.goto id w' p).Kept := by
  refine ⟨⟨h.reported, h.registered, h.distinct⟩, fun j x hx => ?_⟩
  replace hx : Function.update s.workers id (some { w' with point := p }) j = some x := hx
  by_cases hj : j = id
  · subst hj
    rw [Function.update_self] at hx
    obtain rfl := Option.some.inj hx
    exact ⟨hok.critical, hok.readying, hok.saved⟩
  · rw [Function.update_of_ne hj] at hx
    have hx' := h.holders j x hx
    exact ⟨hx'.critical, hx'.readying, hx'.saved⟩

/-- On its way out a worker gives back its own lock only. -/
theorem Kept.leave (h : s.Kept) {w' : Worker} (hp : ¬ p.Critical) (hr : p ≠ .readying)
    (hu : p ≠ .unpublishing) : (s.leave id w' p).Kept := by
  have hgoto : (s.goto id w' p).Kept := h.goto (.idle hp hr hu)
  refine ⟨⟨h.reported, h.registered, h.distinct⟩, fun j x hx => ?_⟩
  have hx' : Function.update s.workers id (some { w' with point := p }) j = some x := hx
  by_cases hj : j = id
  · subst hj
    rw [Function.update_self] at hx'
    obtain rfl := Option.some.inj hx'
    exact .idle hp hr hu
  · refine (hgoto.holders j x hx').spared (· ≠ id) hj fun d k hk hlock => ⟨?_, fun c => rfl⟩
    show (if s.lock w'.job.database = some id then Function.update s.lock w'.job.database none
      else s.lock) d = some k
    split
    · next hheld =>
      have hd : d ≠ w'.job.database := by
        rintro rfl
        rw [show s.lock w'.job.database = some k from hlock] at hheld
        exact hk (Option.some.inj hheld)
      rw [Function.update_of_ne hd]
      exact hlock
    · exact hlock

theorem Kept.fails (h : s.Kept) {w' : Worker} (e : StorageError) : (s.fails id w' e).Kept :=
  h.leave (fun hc => hc) nofun nofun

theorem Kept.after {α : Type} (h : s.Kept) {r : DdlJobManager × Except StorageError α}
    {next : α → WorkerPoint} (hok : ∀ a, HolderOk s id { w with point := next a }) :
    (s.after id w r next).Kept := by
  have hm := h.manager r.1
  unfold DdlSystem.after
  split
  · next a _ => exact hm.goto ⟨(hok a).critical, (hok a).readying, (hok a).saved⟩
  · exact hm.fails _

/-- A worker with the lock cleans up under its own fields, where nothing is registered. -/
theorem Kept.cleanup (h : s.Kept) (hw : s.workers id = some w) (hc : w.point.Critical)
    {index : IndexDefinition} (hindex : index.fields = w.job.index.fields) (o : Outcome) :
    (s.cleanup w.job.place index o).Kept := by
  have hkept : (s.cleanupUnpublishedIndex w.job.place index).Kept := by
    obtain ⟨hlock, hfields⟩ := (h.holders id w hw).critical hc
    have hsame : removeIndexFrom (s.registry w.job.place) index.fields = s.registry w.job.place := by
      refine List.filter_eq_self.mpr fun i hi => ?_
      rw [decide_eq_true_iff, hindex]
      exact hfields i hi
    have hregistry : (s.cleanupUnpublishedIndex w.job.place index).registry = s.registry := by
      show Function.update s.registry w.job.place _ = s.registry
      rw [hsame, Function.update_eq_self]
    refine ⟨⟨?_, ?_, ?_⟩, ?_⟩
    · rw [hregistry]
      exact h.reported
    · intro place i hi
      rw [hregistry] at hi
      have hmem := h.registered place hi
      show i ∈ (if index ∈ s.schema w.job.place then _ else s.schema) place
      split
      · by_cases hplace : place = w.job.place
        · subst hplace
          rw [Function.update_self, mem_removeIndexFrom, hindex]
          exact ⟨hmem, hfields i hi⟩
        · rw [Function.update_of_ne hplace]
          exact hmem
      · exact hmem
    · intro place
      show ((if index ∈ s.schema w.job.place then _ else s.schema) place).Pairwise _
      split
      · by_cases hplace : place = w.job.place
        · subst hplace
          rw [Function.update_self]
          exact pairwise_removeIndexFrom (h.distinct _)
        · rw [Function.update_of_ne hplace]
          exact h.distinct place
      · exact h.distinct place
    · intro j x hx
      refine (h.holders j x hx).spared (fun _ => True) trivial fun d k _ hk => ⟨hk, fun c => ?_⟩
      rw [hregistry]
  cases o with
  | ok => exact hkept
  | late e => exact hkept
  | error e => exact h
  | counted n => exact h
  | event event => exact h

theorem Kept.addToSchema (h : s.Kept) (place : String × String) (index : IndexDefinition) :
    (s.addToSchema place index).Kept := by
  refine ⟨⟨h.reported, fun place' i hi => ?_, fun place' => ?_⟩, fun j x hx => ?_⟩
  · have hmem := h.registered place' hi
    show i ∈ Function.update s.schema place _ place'
    by_cases hplace : place' = place
    · subst hplace
      rw [Function.update_self]
      exact mem_addIndexTo_of_mem hmem
    · rw [Function.update_of_ne hplace]
      exact hmem
  · show (Function.update s.schema place _ place').Pairwise _
    by_cases hplace : place' = place
    · subst hplace
      rw [Function.update_self]
      exact pairwise_addIndexTo (h.distinct _)
    · rw [Function.update_of_ne hplace]
      exact h.distinct place'
  · have hx' := h.holders j x hx
    exact ⟨hx'.critical, hx'.readying, hx'.saved⟩

/-- An index under fields that nothing registered has, and in the schema only itself. -/
theorem Listed.publish (h : s.Kept) {place : String × String} {index : IndexDefinition}
    (hleft : ∀ i ∈ s.schema place, i.fields = index.fields → i = index) :
    (s.publishReadyIndex place index).Listed := by
  have hschema := h.addToSchema place index
  refine ⟨fun r hr => ?_, fun place' i hi => ?_, hschema.distinct⟩
  · have hmem := h.reported r hr
    show r.2.2 ∈ Function.update s.registry place _ (r.1, r.2.1)
    by_cases hplace : (r.1, r.2.1) = place
    · subst hplace
      rw [Function.update_self]
      exact mem_addIndexTo_of_mem hmem
    · rw [Function.update_of_ne hplace]
      exact hmem
  · replace hi : i ∈ Function.update s.registry place (addIndexTo (s.registry place) index) place' := hi
    by_cases hplace : place' = place
    · subst hplace
      rw [Function.update_self] at hi
      show i ∈ Function.update s.schema place' (addIndexTo (s.schema place') index) place'
      rw [Function.update_self]
      unfold addIndexTo at hi
      split at hi
      · exact mem_addIndexTo_of_mem (h.registered place' hi)
      · rcases List.mem_append.mp hi with hi | hi
        · exact mem_addIndexTo_of_mem (h.registered place' hi)
        · rw [List.mem_singleton.mp hi]
          exact mem_addIndexTo_self hleft
    · rw [Function.update_of_ne hplace] at hi
      exact hschema.registered place' hi

theorem spares_publish (s : DdlSystem) (place : String × String) (index : IndexDefinition) :
    Spares s (s.publishReadyIndex place index) fun j => s.lock place.1 ≠ some j := by
  intro d j hj hlock
  refine ⟨hlock, fun c => Function.update_of_ne ?_ _ _⟩
  rintro rfl
  exact hj hlock

theorem registry_publish (s : DdlSystem) {place : String × String} {index : IndexDefinition}
    (hfree : ∀ i ∈ s.registry place, i.fields ≠ index.fields) :
    index ∈ (s.publishReadyIndex place index).registry place := by
  show index ∈ Function.update s.registry place _ place
  rw [Function.update_self]
  exact mem_addIndexTo_self fun i hi heq => absurd heq (hfree i hi)

/-- What is reported must be registered. -/
theorem Kept.report (h : s.Kept) {place : String × String} {index : IndexDefinition}
    (hindex : index ∈ s.registry place) : (s.report place index).Kept := by
  refine ⟨⟨fun r hr => ?_, h.registered, h.distinct⟩, fun id w hw =>
    ⟨(h.holders id w hw).critical, (h.holders id w hw).readying, (h.holders id w hw).saved⟩⟩
  rcases Finset.mem_insert.mp hr with rfl | hr
  · exact hindex
  · exact h.reported r hr

theorem Kept.publishing (h : s.Kept) (hw : s.workers id = some w) (hp : w.point = .publishing)
    (hleft : ∀ i ∈ s.schema w.job.place, i.fields = w.job.index.fields → i = w.job.index)
    (o : Outcome) : (s.workPublishing id w o).Kept := by
  have hc : w.point.Critical := by
    rw [hp]
    trivial
  obtain ⟨hlock, hfields⟩ := (h.holders id w hw).critical hc
  have hafter : ∀ e, HolderOk s id { w with point := .afterError e } := fun e =>
    ⟨fun _ => ⟨hlock, hfields⟩, nofun, nofun⟩
  unfold workPublishing
  cases o with
  | ok =>
    have hlisted : (s.publishReadyIndex w.job.place w.index).Listed :=
      Listed.publish h (by rw [w.index_eq]; exact hleft)
    refine ⟨⟨hlisted.reported, hlisted.registered, hlisted.distinct⟩, fun j x hx => ?_⟩
    replace hx : Function.update s.workers id (some { w with point := .readying }) j = some x := hx
    by_cases hj : j = id
    · subst hj
      rw [Function.update_self] at hx
      obtain rfl := Option.some.inj hx
      refine ⟨fun hcrit => hcrit.elim, fun _ => ⟨hlock, ?_⟩, nofun⟩
      show w.job.index ∈ (s.publishReadyIndex w.job.place w.index).registry w.job.place
      rw [w.index_eq]
      exact registry_publish s hfields
    · rw [Function.update_of_ne hj] at hx
      have hne : s.lock w.job.place.1 ≠ some j := by
        show s.lock w.job.database ≠ some j
        rw [hlock]
        exact fun heq => hj (Option.some.inj heq).symm
      have hx' := (h.holders j x hx).spared _ hne (spares_publish s w.job.place w.index)
      exact ⟨hx'.critical, hx'.readying, hx'.saved⟩
  | late e => exact (h.addToSchema _ _).goto ⟨(hafter e).critical, nofun, nofun⟩
  | error e => exact h.goto (hafter e)
  | counted n => exact h
  | event event => exact h

theorem Kept.cleanThen (h : s.Kept) (hw : s.workers id = some w) (hc : w.point.Critical)
    {index : IndexDefinition} (hindex : index.fields = w.job.index.fields) (next : WorkerPoint)
    (hr : next ≠ .readying) (hu : next ≠ .unpublishing) (o : Outcome) :
    (s.cleanThen id w index o next).Kept := by
  have hclean := h.cleanup hw hc hindex o
  have hsame : (s.cleanup w.job.place index o).workers = s.workers := by
    cases o <;> rfl
  have hheld := (hclean.holders id w (hsame ▸ hw)).critical hc
  unfold DdlSystem.cleanThen
  cases o with
  | ok => exact hclean.goto ⟨fun _ => hheld, fun h => absurd h hr, hu⟩
  | error e => exact hclean.fails e
  | late e => exact hclean.fails e
  | counted n => exact hclean
  | event event => exact hclean

theorem Kept.orAfterError (h : s.Kept) (next : WorkerPoint) (o : Outcome)
    (hok : ∀ q, q ≠ .readying → q ≠ .unpublishing → HolderOk s id { w with point := q })
    (hr : next ≠ .readying) (hu : next ≠ .unpublishing) : (s.orAfterError id w o next).Kept := by
  unfold DdlSystem.orAfterError
  cases o with
  | ok => exact h.goto (hok _ hr hu)
  | error e => exact h.goto (hok _ nofun nofun)
  | late e => exact h.goto (hok _ nofun nofun)
  | counted n => exact h
  | event event => exact h

theorem Kept.start (h : s.Kept) (o : Outcome) : (s.workStart id w o).Kept := by
  unfold workStart
  split
  · exact h.fails _
  · dsimp only
    split
    · exact h.leave (fun hc => hc) nofun nofun
    · split
      · exact h.fails _
      · split
        · split
          · exact h.goto (.idle (fun hc => hc) nofun nofun)
          · exact h.fails _
        · exact h.goto (.idle (fun hc => hc) nofun nofun)

theorem Kept.locking (h : s.Kept)
    (hfree : ∀ i ∈ s.registry w.job.place, i.fields ≠ w.job.index.fields) :
    (s.workLocking id w).Kept := by
  unfold workLocking
  split
  · exact h
  · next hnone =>
    refine ⟨⟨h.reported, h.registered, h.distinct⟩, fun j x hx => ?_⟩
    replace hx : Function.update s.workers id (some { w with point := .looking }) j = some x := hx
    by_cases hj : j = id
    · subst hj
      rw [Function.update_self] at hx
      obtain rfl := Option.some.inj hx
      exact ⟨fun _ => ⟨Function.update_self _ _ _, hfree⟩, (fun h => by cases h), fun h => by cases h⟩
    · rw [Function.update_of_ne hj] at hx
      refine (h.holders j x hx).spared (fun _ => True) trivial fun d k _ hlock => ⟨?_, fun c => rfl⟩
      -- another worker holds another lock
      have hd : d ≠ w.job.database := by
        rintro rfl
        rw [hnone] at hlock
        cases hlock
      exact (Function.update_of_ne hd _ _).trans hlock

theorem Kept.looking (h : s.Kept)
    (hok : ∀ q, q ≠ .readying → q ≠ .unpublishing → HolderOk s id { w with point := q }) :
    (s.workLooking id w).Kept := by
  unfold workLooking
  split
  · exact h.fails _
  · split
    · exact h.leave (fun hc => hc) nofun nofun
    · exact h.goto (hok _ nofun nofun)

theorem Kept.markReady (h : s.Kept) {index : IndexDefinition} (hindex : index ∈ s.registry w.job.place)
    (saved : Bool) : (s.markReady id w saved index).Kept :=
  (h.manager _).report hindex

theorem Kept.readyExisting (h : s.Kept) (hindex : w.job.index ∈ s.registry w.job.place) (o : Outcome) :
    (s.workReadyExisting id w o).Kept := by
  have hmark : (s.markReady id w o.isOk w.job.index).Kept := h.markReady hindex _
  unfold workReadyExisting
  dsimp only
  split
  · exact hmark.leave (fun hc => hc) nofun nofun
  · exact hmark.fails _

theorem Kept.readying (h : s.Kept) (hindex : w.job.index ∈ s.registry w.job.place) {o : Outcome}
    (hsaved : (s.manager.ready id o.isOk).2 = .ok ()) : (s.workReadying id w o).Kept := by
  have hmark : (s.markReady id w o.isOk w.index).Kept :=
    h.markReady (by rw [w.index_eq]; exact hindex) _
  unfold workReadying
  rw [hsaved]
  exact hmark.leave (fun hc => hc) nofun nofun

theorem Kept.cancelling (h : s.Kept) (o : Outcome) : (s.workCancelling id w o).Kept := by
  unfold workCancelling
  dsimp only
  split
  · exact (h.manager _).leave (fun hc => hc) nofun nofun
  · exact (h.manager _).fails _

/-- The steps of a worker, one case for each point. -/
theorem Kept.work (h : s.Kept) (hw : s.workers id = some w) {o : Outcome}
    (horderly : s.Orderly (.act (.work id o))) : (s.work id w o).Kept := by
  obtain ⟨hlocking, hexisting, hpublishing, hreadying⟩ := horderly w hw
  have hholder := h.holders id w hw
  -- under the lock the worker may go on anywhere but to `readying`
  have hheld : w.point.Critical → ∀ q, q ≠ .readying → q ≠ .unpublishing →
      HolderOk s id { w with point := q } := fun hc q hr hu =>
    ⟨fun _ => hholder.critical hc, fun h => absurd h hr, hu⟩
  have hindex : w.index.fields = w.job.index.fields := rfl
  unfold DdlSystem.work
  cases hp : w.point with
  | start => exact h.start o
  | readyExisting => exact h.readyExisting (hexisting hp) o
  | locking => exact h.locking (hlocking hp)
  | looking => exact h.looking (hheld (by rw [hp]; trivial))
  | marking => exact h.after fun _ => hheld (by rw [hp]; trivial) _ nofun nofun
  | cleaning => exact h.cleanThen hw (by rw [hp]; trivial) rfl .checking nofun nofun o
  | checking =>
    dsimp only
    split
    · exact h.goto (hheld (by rw [hp]; trivial) _ nofun nofun)
    · exact h.goto (hheld (by rw [hp]; trivial) _ nofun nofun)
  | preparing =>
    show (s.workPreparing id w o).Kept
    unfold workPreparing
    cases o with
    | counted n =>
      dsimp only
      split
      · exact h.fails _
      · exact h.goto (hheld (by rw [hp]; trivial) _ nofun nofun)
    | error e => exact h.fails e
    | late e => exact h.fails e
    | ok => exact h
    | event event => exact h
  | beginning n =>
    refine h.after fun begun => ?_
    split
    · exact hheld (by rw [hp]; trivial) _ nofun nofun
    · exact hheld (by rw [hp]; trivial) _ nofun nofun
  | initializing => exact h.orAfterError .building o (hheld (by rw [hp]; trivial)) nofun nofun
  | building =>
    show (s.workBuilding id w o).Kept
    unfold workBuilding
    cases o with
    | event event => exact h.goto (hheld (by rw [hp]; trivial) _ nofun nofun)
    | error e => exact h.goto (hheld (by rw [hp]; trivial) _ nofun nofun)
    | late e => exact h.goto (hheld (by rw [hp]; trivial) _ nofun nofun)
    | ok => exact h
    | counted n => exact h
  | eventCheck event =>
    refine h.goto (hheld (by rw [hp]; trivial) _ ?_ ?_)
    · split <;> exact nofun
    · split <;> exact nofun
  | eventSave event =>
    refine (h.manager _).goto ?_
    have hok := hheld (by rw [hp]; trivial)
      (if (s.manager.update id o.isOk (eventUpdate event)).2.isOk then .eventRecheck event
        else .built false) (by split <;> exact nofun) (by split <;> exact nofun)
    exact ⟨hok.critical, hok.readying, hok.saved⟩
  | eventRecheck event =>
    refine h.goto (hheld (by rw [hp]; trivial) _ ?_ ?_)
    · split
      · exact nofun
      · split <;> exact nofun
    · split
      · exact nofun
      · split <;> exact nofun
  | committing => exact h.orAfterError (.built true) o (hheld (by rw [hp]; trivial)) nofun nofun
  | built completed =>
    refine h.goto (hheld (by rw [hp]; trivial) _ ?_ ?_)
    · split <;> exact nofun
    · split <;> exact nofun
  | markCancelling => exact h.after fun _ => hheld (by rw [hp]; trivial) _ nofun nofun
  | persisting => exact h.after fun _ => hheld (by rw [hp]; trivial) _ nofun nofun
  | syncing => exact h.orAfterError .entering o (hheld (by rw [hp]; trivial)) nofun nofun
  | entering =>
    refine h.after fun entered => ?_
    split
    · exact hheld (by rw [hp]; trivial) _ nofun nofun
    · exact hheld (by rw [hp]; trivial) _ nofun nofun
  | leaving => exact h.after fun _ => hheld (by rw [hp]; trivial) _ nofun nofun
  | abandoning => exact h.cleanThen hw (by rw [hp]; trivial) hindex .cancelling nofun nofun o
  | cancelling => exact h.cancelling o
  | promoting => exact h.orAfterError .publishing o (hheld (by rw [hp]; trivial)) nofun nofun
  | publishing => exact h.publishing hw hp (hpublishing hp) o
  | readying => exact h.readying (hholder.readying hp).2 (hreadying hp)
  | unpublishing => exact absurd hp hholder.saved
  | afterError e =>
    have hok := hheld (by rw [hp]; trivial) (.errorCleaning e) nofun nofun
    exact (h.manager _).goto ⟨hok.critical, hok.readying, hok.saved⟩
  | errorCleaning e => exact (h.cleanup hw (by rw [hp]; trivial) hindex o).fails e
  | failing e => exact (h.manager _).goto (.idle (fun hc => hc) nofun nofun)
  | done => exact h

theorem Kept.enqueue (h : s.Kept) (operationId : Option String) (fresh database collection : String)
    (request : CreateIndex) (totalItems : Nat) (saved : Bool) :
    (s.enqueue operationId fresh database collection request totalItems saved).Kept := by
  unfold DdlSystem.enqueue
  dsimp only
  split
  · next newId job _ =>
    refine ⟨⟨h.reported, h.registered, h.distinct⟩, fun j x hx => ?_⟩
    replace hx : Function.update s.workers newId (some ⟨.start, job⟩) j = some x := hx
    by_cases hj : j = newId
    · subst hj
      rw [Function.update_self] at hx
      obtain rfl := Option.some.inj hx
      exact .idle (fun hc => hc) nofun nofun
    · rw [Function.update_of_ne hj] at hx
      have hx' := h.holders j x hx
      exact ⟨hx'.critical, hx'.readying, hx'.saved⟩
  · exact h.manager _

theorem Kept.cancel (h : s.Kept) (cancelId : String) (saved : Bool) : (s.cancel cancelId saved).Kept := by
  unfold DdlSystem.cancel
  dsimp only
  split
  · have hm := h.manager (s.manager.cancel cancelId saved).1
    exact ⟨⟨hm.reported, hm.registered, hm.distinct⟩, fun j x hx =>
      ⟨(hm.holders j x hx).critical, (hm.holders j x hx).readying, (hm.holders j x hx).saved⟩⟩
  · exact h.manager _

theorem Kept.createIndex (h : s.Kept) {database collection : String} {request : CreateIndex}
    (hleft : ∀ i ∈ s.schema (database, collection), i.fields = request.fields →
      i = request.definition collection) (o : Outcome) :
    (s.createIndex database collection request o).Kept := by
  unfold DdlSystem.createIndex
  dsimp only
  split
  · exact h
  · next hfree =>
    rw [Bool.or_eq_true, not_or] at hfree
    have hunlocked : s.lock database = none := by simpa using hfree.1
    have hfields : ∀ i ∈ s.registry (database, collection),
        i.fields ≠ (request.definition collection).fields := by
      intro i hi heq
      exact hfree.2 (List.any_eq_true.mpr ⟨i, hi, decide_eq_true (heq : i.fields = request.fields)⟩)
    cases o with
    | ok =>
      have hlisted : (s.publishReadyIndex (database, collection) (request.definition collection)).Listed :=
        Listed.publish h hleft
      have hkept : (s.publishReadyIndex (database, collection) (request.definition collection)).Kept :=
        ⟨hlisted, fun j x hx => (h.holders j x hx).spared _
          (by rw [show s.lock (database, collection).1 = none from hunlocked]; exact nofun)
          (spares_publish s _ _)⟩
      exact hkept.report (registry_publish s hfields)
    | late e => exact h.addToSchema _ _
    | error e => exact h
    | counted n => exact h
    | event event => exact h

theorem Kept.dropIndex (h : s.Kept) (database collection name : String) (o : Outcome) :
    (s.dropIndex database collection name o).Kept := by
  unfold DdlSystem.dropIndex
  dsimp only
  split
  · exact h
  · next hfree =>
    have hunlocked : s.lock database = none := by simpa using hfree
    split
    · exact h
    · next index hfind =>
      refine ⟨⟨fun r hr => ?_, fun place i hi => ?_, fun place => ?_⟩, fun j x hx => ?_⟩
      · obtain ⟨hr, hkeep⟩ := Finset.mem_filter.mp hr
        have hmem := h.reported r hr
        show r.2.2 ∈ Function.update s.registry (database, collection) _ (r.1, r.2.1)
        by_cases hplace : (r.1, r.2.1) = (database, collection)
        · rw [hplace] at hmem ⊢
          rw [Function.update_self, mem_removeIndexFrom]
          exact ⟨hmem, fun heq => hkeep ⟨hplace, heq⟩⟩
        · rw [Function.update_of_ne hplace]
          exact hmem
      · replace hi : i ∈ Function.update s.registry (database, collection) _ place := hi
        show i ∈ (if o.isOk then _ else s.schema) place
        by_cases hplace : place = (database, collection)
        · subst hplace
          rw [Function.update_self, mem_removeIndexFrom] at hi
          have hmem := h.registered _ hi.1
          split
          · rw [Function.update_self, mem_removeIndexFrom]
            exact ⟨hmem, hi.2⟩
          · exact hmem
        · rw [Function.update_of_ne hplace] at hi
          split
          · rw [Function.update_of_ne hplace]
            exact h.registered place hi
          · exact h.registered place hi
      · show ((if o.isOk then _ else s.schema) place).Pairwise _
        split
        · by_cases hplace : place = (database, collection)
          · subst hplace
            rw [Function.update_self]
            exact pairwise_removeIndexFrom (h.distinct _)
          · rw [Function.update_of_ne hplace]
            exact h.distinct place
        · exact h.distinct place
      · refine (h.holders j x hx).spared (fun _ => True) trivial fun d k _ hlock => ⟨hlock, fun c => ?_⟩
        refine Function.update_of_ne (fun heq => ?_) _ _
        rw [(Prod.mk.inj heq).1, hunlocked] at hlock
        cases hlock

theorem Kept.step (h : s.Kept) {act : DdlAct} (horderly : s.Orderly (.act act)) :
    (s.step act).Kept := by
  cases act with
  | enqueue operationId fresh database collection request totalItems saved =>
    exact h.enqueue _ _ _ _ _ _ _
  | cancel cancelId saved => exact h.cancel _ _
  | work workId o =>
    unfold DdlSystem.step
    dsimp only
    cases hw : s.workers workId with
    | some w => exact h.work hw horderly
    | none => exact h
  | createIndex database collection request o => exact h.createIndex horderly o
  | dropIndex database collection name o => exact h.dropIndex _ _ _ _

end Steps

/-! ## Opening keeps what is reported -/

/-- How far the passes of `open` have come, from what the crash left. -/
structure Opening (s t : DdlSystem) : Prop extends Listed t where
  same : t.registry = t.schema
  workers : ∀ id, t.workers id = none
  shrinks : ∀ place, t.schema place ⊆ s.schema place
  added : ∀ r ∈ t.reported, r ∈ s.reported ∨ ∃ id job, s.manager.stored.lookup id = some job ∧
    job.state.isActive = true ∧ job.target = r
  table : ∀ id job, t.manager.get id = some job → ∃ job₀, s.manager.stored.lookup id = some job₀ ∧
    job.target = job₀.target ∧ (job.state = .ready → job₀.state = .ready ∨ job.target ∈ t.reported)

section Opening

variable {s t : DdlSystem} {id : String}

theorem Opening.reload (h : s.Kept) : Opening s s.reload where
  reported r hr := h.registered _ (h.reported r hr)
  registered _ := List.Subset.refl _
  distinct := h.distinct
  same := rfl
  workers _ := rfl
  shrinks _ := List.Subset.refl _
  added _ hr := Or.inl hr
  table _ job hget := ⟨job, hget, rfl, Or.inl⟩

/-- Indexes of a schema with the same fields are the same. -/
theorem Listed.eq_of_fields (h : t.Listed) {place : String × String} {i j : IndexDefinition}
    (hi : i ∈ t.schema place) (hj : j ∈ t.schema place) (heq : i.fields = j.fields) : i = j := by
  have hnodup : ((t.schema place).map (·.fields)).Nodup := List.pairwise_map.mpr (h.distinct place)
  exact List.inj_on_of_nodup_map hnodup hi hj heq

/-- A job becomes ready as its index is there. -/
theorem Opening.ready (h : Opening s t) {job : DdlJob} (hstored : s.manager.stored.lookup id = some job)
    (hactive : job.state.isActive = true) (hindex : job.index ∈ t.registry job.place) :
    Opening s (({ t with manager := (t.manager.ready id true).1 } : DdlSystem).report job.place
      job.index) := by
  refine ⟨⟨fun r hr => ?_, h.registered, h.distinct⟩, h.same, h.workers, h.shrinks, fun r hr => ?_,
    fun j x hx => ?_⟩
  · rcases Finset.mem_insert.mp hr with rfl | hr
    · exact hindex
    · exact h.reported r hr
  · rcases Finset.mem_insert.mp hr with rfl | hr
    · exact Or.inr ⟨id, job, hstored, hactive, rfl⟩
    · exact h.added r hr
  · have hgrows : ∀ {target : String × String × IndexDefinition}, target ∈ t.reported →
        target ∈ insert (job.place.1, job.place.2, job.index) t.reported := Finset.mem_insert_of_mem
    cases hget : t.manager.get id with
    | none =>
      have hsame : (t.manager.ready id true).1 = t.manager := by
        unfold DdlJobManager.ready DdlJobManager.update
        rw [hget]
      replace hx : (t.manager.ready id true).1.get j = some x := hx
      rw [hsame] at hx
      obtain ⟨x₀, hx₀, htarget, hready⟩ := h.table j x hx
      exact ⟨x₀, hx₀, htarget, fun hr => (hready hr).imp_right hgrows⟩
    | some y =>
      replace hx : (t.manager.ready id true).1.get j = some x := hx
      rw [DdlJobManager.ready, DdlJobManager.update_eq hget, DdlJobManager.get_put] at hx
      split at hx
      · next hj =>
        subst hj
        obtain rfl := Option.some.inj hx
        obtain ⟨y₀, hy₀, htarget, -⟩ := h.table j y hget
        refine ⟨y₀, hy₀, htarget, fun _ => Or.inr ?_⟩
        have hy : y.target = job.target := by
          rw [htarget]
          rw [hstored] at hy₀
          rw [Option.some.inj hy₀]
        show y.target ∈ _
        rw [hy]
        exact Finset.mem_insert_self _ _
      · obtain ⟨x₀, hx₀, htarget, hready⟩ := h.table j x hx
        exact ⟨x₀, hx₀, htarget, fun hr => (hready hr).imp_right hgrows⟩

/-- An index that nobody has reported is taken out. -/
theorem Opening.cleanup (h : Opening s t) {job : DdlJob} (hindex : job.index ∈ t.registry job.place)
    (hnot : job.target ∉ t.reported) :
    Opening s (t.cleanupUnpublishedIndex job.place job.index) := by
  have hmem : job.index ∈ t.schema job.place := h.same ▸ hindex
  have hschema : (t.cleanupUnpublishedIndex job.place job.index).schema =
      Function.update t.schema job.place (removeIndexFrom (t.schema job.place) job.index.fields) :=
    if_pos hmem
  have hsame : (t.cleanupUnpublishedIndex job.place job.index).registry =
      (t.cleanupUnpublishedIndex job.place job.index).schema := by
    rw [hschema, ← h.same]
    rfl
  refine ⟨⟨fun r hr => ?_, fun place => ?_, fun place => ?_⟩, hsame, h.workers, fun place => ?_, h.added,
    h.table⟩
  · have hr' : r.2.2 ∈ t.schema (r.1, r.2.1) := h.same ▸ h.reported r hr
    rw [hsame, hschema]
    by_cases hplace : (r.1, r.2.1) = job.place
    · rw [hplace] at hr' ⊢
      rw [Function.update_self, mem_removeIndexFrom]
      refine ⟨hr', fun heq => hnot ?_⟩
      have htarget : r = job.target := by
        obtain ⟨d, c, i⟩ := r
        obtain ⟨rfl, rfl⟩ := Prod.mk.inj hplace
        have hi : i = job.index := h.toListed.eq_of_fields hr' hmem heq
        rw [hi]
        rfl
      exact htarget ▸ hr
    · rw [Function.update_of_ne hplace]
      exact hr'
  · rw [hsame]
    exact List.Subset.refl _
  · rw [hschema]
    by_cases hplace : place = job.place
    · subst hplace
      rw [Function.update_self]
      exact pairwise_removeIndexFrom (h.distinct _)
    · rw [Function.update_of_ne hplace]
      exact h.distinct place
  · rw [hschema]
    by_cases hplace : place = job.place
    · subst hplace
      rw [Function.update_self]
      exact fun i hi => h.shrinks _ (List.mem_of_mem_filter hi)
    · rw [Function.update_of_ne hplace]
      exact h.shrinks place

theorem Opening.recoverJob (h : Opening s t) (id : String) : Opening s (t.recoverJob id) := by
  have hput : ∀ job job' : DdlJob, t.manager.get id = some job → job'.target = job.target →
      job'.state ≠ .ready → Opening s { t with manager := t.manager.put id job' true } := by
    intro job job' hget htarget hready
    refine ⟨⟨h.reported, h.registered, h.distinct⟩, h.same, h.workers, h.shrinks, h.added,
      fun j x hx => ?_⟩
    replace hx : (t.manager.put id job' true).get j = some x := hx
    rw [DdlJobManager.get_put] at hx
    split at hx
    · next hj =>
      subst hj
      obtain rfl := Option.some.inj hx
      obtain ⟨job₀, hjob₀, htarget₀, -⟩ := h.table j job hget
      exact ⟨job₀, hjob₀, htarget.trans htarget₀, fun hr => absurd hr hready⟩
    · exact h.table j x hx
  unfold DdlSystem.recoverJob
  split
  · next job hget =>
    split
    · exact hput job _ hget rfl nofun
    · next hstate => exact hput job _ hget rfl (by rw [hstate]; exact nofun)
    · exact h
  · exact h

theorem Opening.reconcileJob (h : Opening s t) {entries : List (Σ _ : String, DdlJob)}
    (hentries : ∀ entry, entry ∈ entries ↔ s.manager.stored.lookup entry.1 = some entry.2)
    {order : IterOrder} {cut : Option Nat} (horderly : s.Orderly (.reopen order cut))
    {entry : Σ _ : String, DdlJob} (hentry : entry ∈ entries) :
    Opening s (t.reconcileJob (entries.map (·.2)) entry) := by
  obtain ⟨id, job⟩ := entry
  have hstored : s.manager.stored.lookup id = some job := (hentries ⟨id, job⟩).mp hentry
  unfold DdlSystem.reconcileJob
  dsimp only
  split
  · next hindex =>
    have hclean : job.state = .failed ∨ job.state = .cancelled →
        Opening s (if (entries.map (·.2)).any fun c => c.state = .ready && c.target = job.target then t
          else t.cleanupUnpublishedIndex job.place job.index) := by
      intro hstate
      split
      · exact h
      · next hany =>
        have hready : ∀ id' job', s.manager.stored.lookup id' = some job' → job'.state = .ready →
            job'.target ≠ job.target := by
          intro id' job' hlookup hready htarget
          refine hany (List.any_eq_true.mpr ⟨job', List.mem_map.mpr ⟨⟨id', job'⟩, ?_, rfl⟩, ?_⟩)
          · exact (hentries ⟨id', job'⟩).mpr hlookup
          · simp [hready, htarget]
        have hschema : job.index ∈ s.schema job.place := h.shrinks _ (h.same ▸ hindex)
        obtain ⟨hnot, hactive⟩ := horderly id job hstored hstate hschema hready
        refine h.cleanup hindex fun hreported => ?_
        rcases h.added _ hreported with hold | ⟨id', job', hlookup, hact, htarget⟩
        · exact hnot hold
        · exact hactive id' job' hlookup hact htarget
    cases hstate : job.state with
    | queued => exact h.ready hstored (by rw [hstate]; rfl) hindex
    | building => exact h.ready hstored (by rw [hstate]; rfl) hindex
    | cancelling => exact h.ready hstored (by rw [hstate]; rfl) hindex
    | failed => exact hclean (Or.inl hstate)
    | cancelled => exact hclean (Or.inr hstate)
    | ready => exact h
  · exact h

/-- The passes up to any point. -/
theorem Opening.steps (h : s.Kept) {order : IterOrder} {cut : Option Nat}
    (horderly : s.Orderly (.reopen order cut)) {done : List (DdlSystem → DdlSystem)}
    (hdone : done <+: s.reload.openingSteps order) :
    Opening s (done.foldl (fun t f => f t) s.reload) := by
  have hentries : ∀ entry, entry ∈ order.iter s.reload.manager.jobs.entries ↔
      s.manager.stored.lookup entry.1 = some entry.2 := by
    intro entry
    rw [(order.perm _).mem_iff]
    exact AList.mem_lookup_iff.symm
  have hsteps : ∀ f ∈ done, ∀ t, Opening s t → Opening s (f t) := by
    intro f hf t ht
    rcases List.mem_append.mp (hdone.subset hf) with hf | hf
    · obtain ⟨entry, hentry, rfl⟩ := List.mem_map.mp hf
      exact ht.reconcileJob hentries horderly hentry
    · obtain ⟨entry, -, rfl⟩ := List.mem_map.mp hf
      exact ht.recoverJob entry.1
  clear hdone
  have hstart := Opening.reload h
  generalize s.reload = t at hstart
  induction done generalizing t with
  | nil => exact hstart
  | cons f done ih =>
    exact ih (fun g hg => hsteps g (List.mem_cons_of_mem _ hg)) (f t)
      (hsteps f List.mem_cons_self t hstart)

theorem Opening.reopen (h : s.Kept) {order : IterOrder} {cut : Option Nat}
    (horderly : s.Orderly (.reopen order cut)) :
    (s.reopen order cut).Kept ∧ ∀ id job, (s.reopen order cut).manager.get id = some job →
      job.state = .ready → (∀ job₀, s.manager.stored.lookup id = some job₀ → job₀.state ≠ .ready) →
      job.index ∈ (s.reopen order cut).schema job.place := by
  -- a job made ready is a reported one
  have hready : ∀ {t : DdlSystem}, Opening s t → ∀ id job, t.manager.get id = some job →
      job.state = .ready → (∀ job₀, s.manager.stored.lookup id = some job₀ → job₀.state ≠ .ready) →
      job.index ∈ t.schema job.place := by
    intro t ht id job hget hstate hnot
    obtain ⟨job₀, hjob₀, -, hor⟩ := ht.table id job hget
    have hreported := (hor hstate).resolve_left (hnot job₀ hjob₀)
    exact ht.registered _ (ht.reported _ hreported)
  unfold DdlSystem.reopen
  cases cut with
  | some n =>
    have ht : Opening s (((s.reload.openingSteps order).take n).foldl (fun t f => f t) s.reload) :=
      .steps h horderly (List.take_prefix n _)
    refine ⟨⟨ht.toListed, fun id w hw => ?_⟩, hready ht⟩
    rw [ht.workers] at hw
    cases hw
  | none =>
    have ht : Opening s ((s.reload.openingSteps order).foldl (fun t f => f t) s.reload) :=
      .steps h horderly (List.prefix_refl _)
    refine ⟨⟨⟨ht.reported, ht.registered, ht.distinct⟩, fun id w hw => ?_⟩,
      fun id job hget => hready ht id job hget⟩
    -- the new workers are at the start
    have hstart : w.point = .start := by
      replace hw : (match DdlJobManager.get _ id with
        | some job => if job.state.isActive then some (⟨.start, job⟩ : Worker) else none
        | none => none) = some w := hw
      split at hw
      · split at hw
        · rw [← Option.some.inj hw]
        · cases hw
      · cases hw
    exact .idle (by rw [hstart]; exact fun hc => hc) (by rw [hstart]; exact nofun)
      (by rw [hstart]; exact nofun)

end Opening

/-! ## Whole histories -/

/-- A server before its first request: no jobs, and the registry is that of the schema. -/
structure Fresh (s : DdlSystem) : Prop where
  workers : ∀ id, s.workers id = none
  reported : s.reported = ∅
  registry : s.registry = s.schema
  distinct : ∀ place, (s.schema place).Pairwise fun i j => i.fields ≠ j.fields

theorem Fresh.kept {s : DdlSystem} (h : s.Fresh) : s.Kept := by
  refine ⟨⟨fun r hr => ?_, fun place => ?_, h.distinct⟩, fun id w hw => ?_⟩
  · rw [h.reported] at hr
    exact absurd hr (Finset.notMem_empty r)
  · rw [h.registry]
    exact List.Subset.refl _
  · rw [h.workers] at hw
    cases hw

/-- In an orderly history every index that is reported and not dropped since is in the schema, and
so is the index of a job that a restart finds unfinished and makes ready. -/
theorem reported_in_schema {s : DdlSystem} (hfresh : s.Fresh) {acts : List ServerAct}
    (hmeets : Meets serverStep Orderly s acts) :
    (∀ done, done <+: acts → ∀ r ∈ (s.serverRun done).reported,
      r.2.2 ∈ (s.serverRun done).schema (r.1, r.2.1)) ∧
    ∀ done order cut, done ++ [.reopen order cut] <+: acts → ∀ id job,
      (s.serverRun (done ++ [.reopen order cut])).manager.get id = some job → job.state = .ready →
      (∀ job₀, (s.serverRun done).manager.stored.lookup id = some job₀ → job₀.state ≠ .ready) →
      job.index ∈ (s.serverRun (done ++ [.reopen order cut])).schema job.place := by
  have hkept : ∀ done, done <+: acts → (s.serverRun done).Kept := by
    refine foldl_invariant Kept (fun t a ht ha => ?_) hfresh.kept hmeets
    cases a with
    | act act => exact ht.step ha
    | reopen order cut => exact (Opening.reopen ht ha).1
  refine ⟨fun done hdone r hr => ?_, fun done order cut hdone => ?_⟩
  · exact (hkept done hdone).registered _ ((hkept done hdone).reported r hr)
  · obtain ⟨rest, rfl⟩ := hdone
    have hmeets' := (meets_append.mp (meets_append.mp hmeets).1).2
    have hrun : s.serverRun (done ++ [.reopen order cut]) = (s.serverRun done).reopen order cut := by
      unfold serverRun
      rw [List.foldl_append]
      rfl
    rw [hrun]
    exact (Opening.reopen (hkept done ((List.prefix_append _ _).trans (List.prefix_append _ _)))
      hmeets'.1).2


end DdlSystem

/-! ## An index that is taken for a leftover -/

namespace Leftover

open UserIndex (idle byEmail ask)

theorem idle_fresh : idle.Fresh where
  workers _ := rfl
  reported := rfl
  registry := rfl
  distinct _ := List.Pairwise.nil

/-- A job fails in its build. -/
def failedJob : List ServerAct :=
  (ask "op_1" :: [.ok, .ok, .ok, .ok, .ok, .ok, .counted 0, .ok, .ok,
    .error (.alreadyExists "email"), .ok, .ok, .ok].map (.work "op_1" ·)).map .act

def createByEmail : ServerAct := .act (.createIndex "main" "users" byEmail .ok)

/-- An index is created after a job for it has failed; the next start takes it out. -/
theorem created_index_lost :
    idle.Fresh ∧
      ((idle.serverRun (failedJob ++ [createByEmail])).manager.stored.lookup "op_1").map (·.state) =
        some .failed ∧
      byEmail.definition "users" ∈
        (idle.serverRun (failedJob ++ [createByEmail])).schema ("main", "users") ∧
      ("main", "users", byEmail.definition "users") ∈
        (idle.serverRun (failedJob ++ [createByEmail] ++ [.reopen .asKept none])).reported ∧
      byEmail.definition "users" ∉
        (idle.serverRun (failedJob ++ [createByEmail] ++ [.reopen .asKept none])).schema
          ("main", "users") := by
  refine ⟨idle_fresh, ?_, ?_, ?_, ?_⟩ <;> decide +kernel

/-- Without the failed job it stays. -/
theorem created_index_kept :
    ("main", "users", byEmail.definition "users") ∈
        (idle.serverRun [createByEmail, .reopen .asKept none]).reported ∧
      byEmail.definition "users" ∈
        (idle.serverRun [createByEmail, .reopen .asKept none]).schema ("main", "users") := by
  have hmeets : Meets DdlSystem.serverStep DdlSystem.Orderly idle
      [createByEmail, .reopen .asKept none] :=
    ⟨fun i hi => (nomatch hi), fun id job hjob => (nomatch hjob), trivial⟩
  have hreported : ("main", "users", byEmail.definition "users") ∈
      (idle.serverRun [createByEmail, .reopen .asKept none]).reported := by decide +kernel
  exact ⟨hreported, (DdlSystem.reported_in_schema idle_fresh hmeets).1 _ (List.prefix_refl _) _ hreported⟩

end Leftover

end StellarDb
