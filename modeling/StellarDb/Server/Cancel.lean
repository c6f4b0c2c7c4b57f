import StellarDb.Server.DdlJobs
import StellarDb.Lib.Run

/-!
# StellarDb — cancelling a DDL job

A worker looks at its job and acts on it later, in another access to the job table. What may
happen to the job in between is what a cancel call can do: `WorkerPoint.Allows` says in which
states the job can be at each point of the worker. Two points are not safe: a queued job that is
cancelled after the worker's last look is revived by the next update (`marking`), or marked
ready (`readyExisting`). Runs in which no cancel call comes there keep the invariant `Sound`;
then a job that has ended stays as it is, a cancelled one is never ready or published, and no
index has two active jobs.
-/

namespace StellarDb

open Runs

/-! ## The job table -/

namespace DdlJobManager

variable {m : DdlJobManager} {id : String} {job : DdlJob}

@[simp] theorem get_put (m : DdlJobManager) (id j : String) (job : DdlJob) (saved : Bool) :
    (m.put id job saved).get j = if j = id then some job else m.get j := by
  show AList.lookup j (m.jobs.insert id job) = if j = id then some job else AList.lookup j m.jobs
  split
  · next h => rw [h, AList.lookup_insert]
  · next h => exact AList.lookup_insert_ne h

theorem update_eq (hget : m.get id = some job) (saved : Bool) (f : DdlJob → DdlJob) :
    m.update id saved f = (m.put id (f job) saved, if saved then .ok () else .error saveFailed) := by
  unfold update
  rw [hget]

theorem unlessCancelling_eq (hget : m.get id = some job) (saved : Bool) (f : DdlJob → DdlJob) :
    m.unlessCancelling id saved f = if job.state = .cancelling then (m, .ok false)
      else (m.put id (f job) saved, if saved then .ok true else .error saveFailed) := by
  unfold unlessCancelling
  rw [hget]

theorem isCancelling_eq (hget : m.get id = some job) :
    m.isCancelling id = decide (job.state = .cancelling) := by
  unfold isCancelling
  rw [hget]

end DdlJobManager

/-! ## What each point allows -/

/-- On the way to the end, but not to an index. -/
def DdlJobState.Out : DdlJobState → Prop
  | .cancelling | .cancelled | .failed => True
  | _ => False

/-- The states of its job that a worker may meet. -/
def WorkerPoint.Allows (p : WorkerPoint) (job : DdlJob) : Prop :=
  match p with
  | .start | .locking | .looking =>
    job.state = .queued ∨ job.state = .cancelling ∨ job.state = .cancelled
  | .readyExisting => job.state = .queued
  | .marking => job.state = .queued ∨ job.state = .cancelling
  | .leaving | .abandoning | .cancelling => job.state = .cancelling
  | .promoting | .publishing | .readying => job.state = .building ∧ job.phase = .registering
  | .unpublishing => job.state = .ready
  | .failing _ => job.state ≠ .failed
  | .done => job.state.isActive = false
  | _ => job.state = .building ∨ job.state = .cancelling

/-- A step of the worker from one point to another, as far as its job goes. -/
structure LocalStep (p : WorkerPoint) (job : DdlJob) (p' : WorkerPoint) (job' : DdlJob) : Prop where
  allows : p'.Allows job'
  target : job'.target = job.target
  final : job.state.isActive = false → job'.state = job.state
  out : job.state.Out → job'.state.Out
  published : (job.state = .ready ∨ p = .readying) → (job'.state = .ready ∨ p' = .readying)

/-- Going on without touching the job. -/
theorem LocalStep.keep {p p' : WorkerPoint} {job : DdlJob} (h : p'.Allows job)
    (hp : p ≠ .readying) : LocalStep p job p' job :=
  ⟨h, rfl, fun _ => rfl, id, fun hor => Or.inl (hor.resolve_right hp)⟩

/-- Changing an active job. -/
theorem LocalStep.change {p p' : WorkerPoint} {job job' : DdlJob} (h : p'.Allows job')
    (htarget : job'.target = job.target) (hactive : job.state.isActive = true)
    (hout : job.state.Out → job'.state.Out) (hready : p = .readying → job'.state = .ready) :
    LocalStep p job p' job' := by
  refine ⟨h, htarget, fun hf => ?_, hout, ?_⟩
  · rw [hactive] at hf
    cases hf
  · rintro (hr | hp)
    · rw [hr] at hactive
      cases hactive
    · exact Or.inl (hready hp)

structure JobOk (s : DdlSystem) (id : String) (job : DdlJob) (p : WorkerPoint) : Prop where
  allows : p.Allows job
  published : id ∈ s.published → job.state = .ready ∨ p = .readying
  answered : id ∈ s.cancelAnswered → job.state.Out

namespace DdlSystem

/-- A job without a worker has been dealt with. -/
def pointOf (s : DdlSystem) (id : String) : WorkerPoint :=
  match s.workers id with
  | some w => w.point
  | none => .done

theorem pointOf_worker {s : DdlSystem} {id : String} {w : Worker} (h : s.workers id = some w) :
    s.pointOf id = w.point := by
  unfold pointOf
  rw [h]

theorem pointOf_congr {s s' : DdlSystem} {id : String} (h : s'.workers id = s.workers id) :
    s'.pointOf id = s.pointOf id := by
  unfold pointOf
  rw [h]

theorem pointOf_goto (s : DdlSystem) (id : String) (w : Worker) (p : WorkerPoint) :
    (s.goto id w p).pointOf id = p := by
  have h : (s.goto id w p).workers id = some { w with point := p } := Function.update_self _ _ _
  rw [pointOf_worker h]

/-- Every job is in a state that its worker allows, and no index has two active jobs. -/
structure Sound (s : DdlSystem) : Prop where
  jobs : ∀ id job, s.manager.get id = some job → JobOk s id job (s.pointOf id)
  worked : ∀ id w, s.workers id = some w → ∃ job, s.manager.get id = some job
  single : ∀ id₁ id₂ job₁ job₂, s.manager.get id₁ = some job₁ → s.manager.get id₂ = some job₂ →
    job₁.state.isActive = true → job₂.state.isActive = true → job₁.target = job₂.target → id₁ = id₂
  history : ∀ id, id ∈ s.cancelAnswered ∨ id ∈ s.published → ∃ job, s.manager.get id = some job

/-- A step that concerns one job. -/
structure Steps (s s' : DdlSystem) (id : String) (job : DdlJob) : Prop where
  here : ∃ job', s'.manager.get id = some job' ∧ JobOk s' id job' (s'.pointOf id) ∧
    job'.target = job.target ∧ (job.state.isActive = false → job'.state = job.state)
  get : ∀ j, j ≠ id → s'.manager.get j = s.manager.get j
  workers : ∀ j, j ≠ id → s'.workers j = s.workers j
  answered : ∀ j, j ≠ id → (j ∈ s'.cancelAnswered ↔ j ∈ s.cancelAnswered)
  published : ∀ j, j ≠ id → (j ∈ s'.published ↔ j ∈ s.published)
  grows : s.cancelAnswered ⊆ s'.cancelAnswered

theorem Sound.steps {s s' : DdlSystem} {id : String} {job : DdlJob} (h : s.Sound)
    (hget : s.manager.get id = some job) (hs : Steps s s' id job) : s'.Sound := by
  obtain ⟨job', hget', hok', htarget, hfinal⟩ := hs.here
  have hjobs : ∀ j, (∃ x, s.manager.get j = some x) → ∃ x, s'.manager.get j = some x := by
    intro j hj
    by_cases hji : j = id
    · exact ⟨job', hji ▸ hget'⟩
    · rwa [hs.get j hji]
  -- an active job was active before, with the same target
  have hback : ∀ j x, s'.manager.get j = some x → x.state.isActive = true →
      ∃ y, s.manager.get j = some y ∧ y.state.isActive = true ∧ y.target = x.target := by
    intro j x hx hact
    by_cases hji : j = id
    · subst hji
      rw [hget'] at hx
      obtain rfl := Option.some.inj hx
      refine ⟨job, hget, ?_, htarget.symm⟩
      by_contra hne
      rw [hfinal (by simpa using hne)] at hact
      exact hne hact
    · rw [hs.get j hji] at hx
      exact ⟨x, hx, hact, rfl⟩
  refine ⟨?_, ?_, ?_, ?_⟩
  · intro j x hx
    by_cases hji : j = id
    · subst hji
      rw [hget'] at hx
      obtain rfl := Option.some.inj hx
      exact hok'
    · rw [hs.get j hji] at hx
      have hok := h.jobs j x hx
      rw [pointOf_congr (hs.workers j hji)]
      exact ⟨hok.allows, fun hp => hok.published ((hs.published j hji).mp hp),
        fun ha => hok.answered ((hs.answered j hji).mp ha)⟩
  · intro j w hw
    by_cases hji : j = id
    · exact ⟨job', hji ▸ hget'⟩
    · rw [hs.workers j hji] at hw
      exact hjobs j (h.worked j w hw)
  · intro j₁ j₂ x₁ x₂ hx₁ hx₂ hact₁ hact₂ heq
    obtain ⟨y₁, hy₁, hya₁, hyt₁⟩ := hback j₁ x₁ hx₁ hact₁
    obtain ⟨y₂, hy₂, hya₂, hyt₂⟩ := hback j₂ x₂ hx₂ hact₂
    exact h.single j₁ j₂ y₁ y₂ hy₁ hy₂ hya₁ hya₂ (by rw [hyt₁, hyt₂, heq])
  · intro j hj
    by_cases hji : j = id
    · exact ⟨job', hji ▸ hget'⟩
    · rw [hs.answered j hji, hs.published j hji] at hj
      exact hjobs j (h.history j hj)

/-! ## Steps of a worker -/

/-- Nothing but the job of the worker, schema, registry and reports have changed. -/
structure Alters (s s₁ : DdlSystem) (id : String) (job' : DdlJob) : Prop where
  here : s₁.manager.get id = some job'
  get : ∀ j, j ≠ id → s₁.manager.get j = s.manager.get j
  workers : s₁.workers = s.workers
  answered : s₁.cancelAnswered = s.cancelAnswered
  published : s₁.published = s.published

section WorkerSteps

variable {s s₁ : DdlSystem} {id : String} {w : Worker} {p : WorkerPoint} {job job' : DdlJob}

theorem Alters.refl (hget : s.manager.get id = some job) : Alters s s id job :=
  ⟨hget, fun _ _ => rfl, rfl, rfl, rfl⟩

theorem Alters.put (job' : DdlJob) (saved : Bool) :
    Alters s { s with manager := s.manager.put id job' saved } id job' := by
  refine ⟨?_, fun j hj => ?_, rfl, rfl, rfl⟩
  · exact (DdlJobManager.get_put _ _ _ _ _).trans (if_pos rfl)
  · exact (DdlJobManager.get_put _ _ _ _ _).trans (if_neg hj)

theorem Alters.cleanup (hget : s.manager.get id = some job) (place : String × String)
    (index : IndexDefinition) (o : Outcome) : Alters s (s.cleanup place index o) id job := by
  cases o <;> exact ⟨hget, fun _ _ => rfl, rfl, rfl, rfl⟩

/-- The worker goes on, or returns. -/
theorem Alters.goto (h : Alters s s₁ id job') (hok : JobOk s id job p) {w' : Worker}
    {p' : WorkerPoint} (hlocal : LocalStep p job p' job') :
    Steps s (s₁.goto id w' p') id job := by
  refine ⟨⟨job', h.here, ⟨?_, ?_, ?_⟩, hlocal.target, hlocal.final⟩, h.get, ?_, ?_, ?_, ?_⟩
  · rw [pointOf_goto]
    exact hlocal.allows
  · intro hp
    rw [pointOf_goto]
    exact hlocal.published (hok.published (h.published ▸ hp))
  · intro ha
    exact hlocal.out (hok.answered (h.answered ▸ ha))
  · intro j hj
    show Function.update s₁.workers id _ j = _
    rw [Function.update_of_ne hj, h.workers]
  · intro j _
    rw [← h.answered]
    exact Iff.rfl
  · intro j _
    rw [← h.published]
    exact Iff.rfl
  · rw [← h.answered]
    exact Finset.Subset.refl _

theorem Alters.leave (h : Alters s s₁ id job') (hok : JobOk s id job p) {w' : Worker}
    {p' : WorkerPoint} (hlocal : LocalStep p job p' job') :
    Steps s (s₁.leave id w' p') id job := by
  have hs : Steps s (s₁.goto id w' p') id job := h.goto hok hlocal
  obtain ⟨x, hget, hx, htarget, hfinal⟩ := hs.here
  exact ⟨⟨x, hget, ⟨hx.allows, hx.published, hx.answered⟩, htarget, hfinal⟩, hs.get, hs.workers,
    hs.answered, hs.published, hs.grows⟩

/-- Go on after an update of the job. -/
theorem steps_update (hget : s.manager.get id = some job) (hok : JobOk s id job p)
    {f : DdlJob → DdlJob} {next : WorkerPoint} (saved : Bool)
    (hnext : LocalStep p job next (f job))
    (hfail : LocalStep p job (.failing DdlJobManager.saveFailed) (f job)) :
    Steps s (s.after id w (s.manager.update id saved f) fun _ => next) id job := by
  rw [DdlJobManager.update_eq hget]
  cases saved with
  | true => exact (Alters.put _ _).goto hok hnext
  | false => exact (Alters.put _ _).leave hok hfail

theorem steps_unlessCancelling (hget : s.manager.get id = some job)
    (hok : JobOk s id job p) {f : DdlJob → DdlJob} {yes no : WorkerPoint} (saved : Bool)
    (hno : job.state = .cancelling → LocalStep p job no job)
    (hyes : job.state ≠ .cancelling → LocalStep p job yes (f job))
    (hfail : job.state ≠ .cancelling →
      LocalStep p job (.failing DdlJobManager.saveFailed) (f job)) :
    Steps s (s.after id w (s.manager.unlessCancelling id saved f)
      fun b => if b then yes else no) id job := by
  rw [DdlJobManager.unlessCancelling_eq hget]
  by_cases hc : job.state = .cancelling
  · rw [if_pos hc]
    exact (Alters.refl hget).goto hok (hno hc)
  · rw [if_neg hc]
    cases saved with
    | true => exact (Alters.put _ _).goto hok (hyes hc)
    | false => exact (Alters.put _ _).leave hok (hfail hc)

theorem steps_orAfterError (hget : s.manager.get id = some job)
    (hok : JobOk s id job p) {next : WorkerPoint} (o : Outcome)
    (hnext : LocalStep p job next job)
    (herror : ∀ e, LocalStep p job (.afterError e) job)
    (hstay : Steps s s id job) : Steps s (s.orAfterError id w o next) id job := by
  cases o with
  | ok => exact (Alters.refl hget).goto hok hnext
  | error e => exact (Alters.refl hget).goto hok (herror e)
  | late e => exact (Alters.refl hget).goto hok (herror e)
  | counted n => exact hstay
  | event event => exact hstay

theorem steps_cleanThen (hget : s.manager.get id = some job)
    (hok : JobOk s id job p) {next : WorkerPoint} (index : IndexDefinition) (o : Outcome)
    (hnext : LocalStep p job next job)
    (hfail : ∀ e, LocalStep p job (.failing e) job)
    (hstay : Steps s s id job) : Steps s (s.cleanThen id w index o next) id job := by
  have hclean := Alters.cleanup hget w.job.place index o
  cases o with
  | ok => exact hclean.goto hok hnext
  | error e => exact hclean.leave hok (hfail e)
  | late e => exact hclean.leave hok (hfail e)
  | counted n => exact hstay
  | event event => exact hstay

/-- Waiting. -/
theorem Steps.stay (hget : s.manager.get id = some job) (hok : JobOk s id job (s.pointOf id)) :
    Steps s s id job :=
  ⟨⟨job, hget, hok, rfl, fun _ => rfl⟩, fun _ _ => rfl, fun _ _ => rfl, fun _ _ => Iff.rfl,
    fun _ _ => Iff.rfl, Finset.Subset.refl _⟩

theorem steps_start (hget : s.manager.get id = some job) (hok : JobOk s id job .start)
    (hguard : s.existing job = some job.index → job.state ≠ .cancelling) (o : Outcome) :
    Steps s (s.workStart id w o) id job := by
  have hallows : job.state = .queued ∨ job.state = .cancelling ∨ job.state = .cancelled := hok.allows
  have hnf : ∀ e, (WorkerPoint.failing e).Allows job := by
    intro e h
    rw [h] at hallows
    simp at hallows
  unfold workStart
  rw [hget]
  dsimp only
  split
  · next hc => exact (Alters.refl hget).leave hok (.keep (by rw [WorkerPoint.Allows, hc]; rfl) nofun)
  · next hc =>
    split
    · exact (Alters.refl hget).leave hok (.keep (hnf _) nofun)
    · split
      · next index hex =>
        split
        · next heq =>
          subst heq
          have hqueued : job.state = .queued :=
            hallows.resolve_right fun h => h.elim (hguard hex) hc
          exact (Alters.refl hget).goto hok (.keep hqueued nofun)
        · exact (Alters.refl hget).leave hok (.keep (hnf _) nofun)
      · exact (Alters.refl hget).goto hok (.keep hallows nofun)

theorem steps_locking (hget : s.manager.get id = some job) (hok : JobOk s id job .locking)
    (hstay : Steps s s id job) : Steps s (s.workLocking id w) id job := by
  unfold workLocking
  split
  · exact hstay
  · have hs : Steps s (s.goto id w .looking) id job :=
      (Alters.refl hget).goto hok (.keep hok.allows fun h => by cases h)
    obtain ⟨x, hx, hxok, htarget, hfinal⟩ := hs.here
    exact ⟨⟨x, hx, ⟨hxok.allows, hxok.published, hxok.answered⟩, htarget, hfinal⟩, hs.get, hs.workers,
      hs.answered, hs.published, hs.grows⟩

theorem steps_looking (hget : s.manager.get id = some job) (hok : JobOk s id job .looking) :
    Steps s (s.workLooking id w) id job := by
  have hallows : job.state = .queued ∨ job.state = .cancelling ∨ job.state = .cancelled := hok.allows
  unfold workLooking
  rw [hget]
  dsimp only
  split
  · next hc => exact (Alters.refl hget).leave hok (.keep (by rw [WorkerPoint.Allows, hc]; rfl) nofun)
  · next hc =>
    have hleft : job.state = .queued ∨ job.state = .cancelling :=
      hallows.imp_right fun h => h.resolve_right hc
    exact (Alters.refl hget).goto hok (.keep hleft nofun)

/-- Marking an active job ready that is not on its way out. -/
theorem alters_markReady (hget : s.manager.get id = some job) (saved : Bool)
    (index : IndexDefinition) : Alters s (s.markReady id w saved index) id
      { job with state := .ready, phase := .complete, processedItems := job.totalItems } := by
  unfold markReady DdlJobManager.ready
  rw [DdlJobManager.update_eq hget]
  have h : Alters s { s with manager := _ } id _ := Alters.put
    { job with state := .ready, phase := .complete, processedItems := job.totalItems } saved
  exact ⟨h.here, h.get, h.workers, h.answered, h.published⟩

theorem steps_readyExisting (hget : s.manager.get id = some job)
    (hok : JobOk s id job .readyExisting) (o : Outcome) :
    Steps s (s.workReadyExisting id w o) id job := by
  have hqueued : job.state = .queued := hok.allows
  have hactive : job.state.isActive = true := by rw [hqueued]; rfl
  have hin : ¬ job.state.Out := by rw [hqueued]; exact fun h => h
  have hmark : ∀ saved, Alters s (s.markReady id w saved w.job.index) id _ :=
    fun saved => alters_markReady hget saved _
  unfold workReadyExisting
  rw [DdlJobManager.ready, DdlJobManager.update_eq hget]
  dsimp only
  cases o.isOk with
  | true =>
    refine (hmark true).leave hok (.change ?_ rfl hactive (absurd · hin) nofun)
    exact (rfl : DdlJobState.ready.isActive = false)
  | false =>
    refine (hmark false).leave hok (.change ?_ rfl hactive (absurd · hin) nofun)
    exact (nofun : DdlJobState.ready ≠ .failed)

theorem steps_readying (hget : s.manager.get id = some job) (hok : JobOk s id job .readying)
    (o : Outcome) : Steps s (s.workReadying id w o) id job := by
  have hbuilding : job.state = .building := hok.allows.1
  have hactive : job.state.isActive = true := by rw [hbuilding]; rfl
  have hin : ¬ job.state.Out := by rw [hbuilding]; exact fun h => h
  have hmark : ∀ saved, Alters s (s.markReady id w saved w.index) id _ :=
    fun saved => alters_markReady hget saved _
  unfold workReadying
  rw [DdlJobManager.ready, DdlJobManager.update_eq hget]
  dsimp only
  cases o.isOk with
  | true =>
    refine (hmark true).leave hok (.change ?_ rfl hactive (absurd · hin) fun _ => rfl)
    exact (rfl : DdlJobState.ready.isActive = false)
  | false =>
    refine (hmark false).goto hok (.change ?_ rfl hactive (absurd · hin) fun _ => rfl)
    exact (rfl : DdlJobState.ready = .ready)

theorem steps_cancelling (hget : s.manager.get id = some job) (hok : JobOk s id job .cancelling)
    (o : Outcome) : Steps s (s.workCancelling id w o) id job := by
  have hcancelling : job.state = .cancelling := hok.allows
  have hactive : job.state.isActive = true := by rw [hcancelling]; rfl
  unfold workCancelling
  rw [DdlJobManager.cancelled, DdlJobManager.update_eq hget]
  dsimp only
  cases o.isOk with
  | true =>
    refine (Alters.put _ _).leave hok (.change ?_ rfl hactive (fun _ => trivial) nofun)
    exact (rfl : DdlJobState.cancelled.isActive = false)
  | false =>
    refine (Alters.put _ _).leave hok (.change ?_ rfl hactive (fun _ => trivial) nofun)
    exact (nofun : DdlJobState.cancelled ≠ .failed)

theorem steps_preparing (hget : s.manager.get id = some job) (hok : JobOk s id job .preparing)
    (hfail : ∀ e, (WorkerPoint.failing e).Allows job) (hstay : Steps s s id job) (o : Outcome) :
    Steps s (s.workPreparing id w o) id job := by
  unfold workPreparing
  cases o with
  | counted n =>
    dsimp only
    split
    · exact (Alters.refl hget).leave hok (.keep (hfail _) nofun)
    · exact (Alters.refl hget).goto hok (.keep hok.allows nofun)
  | error e => exact (Alters.refl hget).leave hok (.keep (hfail _) nofun)
  | late e => exact (Alters.refl hget).leave hok (.keep (hfail _) nofun)
  | ok => exact hstay
  | event event => exact hstay

theorem steps_building (hget : s.manager.get id = some job) (hok : JobOk s id job .building)
    (hstay : Steps s s id job) (o : Outcome) : Steps s (s.workBuilding id w o) id job := by
  unfold workBuilding
  cases o with
  | event event => exact (Alters.refl hget).goto hok (.keep hok.allows nofun)
  | error e => exact (Alters.refl hget).goto hok (.keep hok.allows nofun)
  | late e => exact (Alters.refl hget).goto hok (.keep hok.allows nofun)
  | ok => exact hstay
  | counted n => exact hstay

/-- Publishing is the one step that adds to the published jobs. -/
theorem steps_publishing (hget : s.manager.get id = some job) (hok : JobOk s id job .publishing)
    (hstay : Steps s s id job) (o : Outcome) : Steps s (s.workPublishing id w o) id job := by
  have hbuilding : job.state = .building ∧ job.phase = .registering := hok.allows
  have hafter : ∀ e, (WorkerPoint.afterError e).Allows job := fun e => Or.inl hbuilding.1
  unfold workPublishing
  cases o with
  | ok =>
    have halters : Alters s (s.publishReadyIndex w.job.place w.index) id job :=
      ⟨hget, fun _ _ => rfl, rfl, rfl, rfl⟩
    have hs : Steps s ((s.publishReadyIndex w.job.place w.index).goto id w .readying) id job :=
      halters.goto hok (.keep hbuilding nofun)
    refine ⟨⟨job, hget, ⟨?_, fun _ => Or.inr ?_, hok.answered⟩, rfl, fun _ => rfl⟩, hs.get,
      hs.workers, hs.answered, fun j hj => ?_, hs.grows⟩
    · exact (congrArg (·.Allows job) (pointOf_goto _ id w .readying)).mpr hbuilding
    · exact pointOf_goto _ id w .readying
    · exact Finset.mem_insert.trans (or_iff_right hj)
  | late e =>
    have halters : Alters s (s.addToSchema w.job.place w.index) id job :=
      ⟨hget, fun _ _ => rfl, rfl, rfl, rfl⟩
    exact halters.goto hok (.keep (hafter e) nofun)
  | error e => exact (Alters.refl hget).goto hok (.keep (hafter e) nofun)
  | counted n => exact hstay
  | event event => exact hstay

/-- A failure ends a job that has not ended. -/
theorem steps_failing {e : StorageError} (hget : s.manager.get id = some job)
    (hok : JobOk s id job (.failing e)) (o : Outcome) :
    Steps s (({ s with manager := (s.manager.fail id o.isOk e).1 } : DdlSystem).goto id w .done)
      id job := by
  have hallows : job.state ≠ .failed := hok.allows
  unfold DdlJobManager.fail
  rw [DdlJobManager.update_eq hget]
  refine (Alters.put _ _).goto hok ?_
  by_cases hend : job.state = .ready ∨ job.state = .cancelled
  · rw [if_pos hend]
    refine .keep ?_ nofun
    rcases hend with h | h <;> rw [WorkerPoint.Allows, h] <;> rfl
  · rw [if_neg hend]
    have hactive : job.state.isActive = true := by
      cases h : job.state with
      | ready => exact absurd (Or.inl h) hend
      | cancelled => exact absurd (Or.inr h) hend
      | failed => exact absurd h hallows
      | queued => rfl
      | building => rfl
      | cancelling => rfl
    exact .change rfl rfl hactive (fun _ => trivial) nofun

/-- The steps of a worker, one case for each point. -/
theorem work_steps (hget : s.manager.get id = some job) (hw : s.workers id = some w)
    (hok : JobOk s id job (s.pointOf id))
    (hguard : w.point = .start → s.existing job = some job.index → job.state ≠ .cancelling)
    (o : Outcome) : Steps s (s.work id w o) id job := by
  have hp : s.pointOf id = w.point := pointOf_worker hw
  have hstay : Steps s s id job := Steps.stay hget hok
  rw [hp] at hok
  -- under way: the job is active and may fail
  have hmid : job.state = .building ∨ job.state = .cancelling →
      job.state.isActive = true ∧ ∀ e, (WorkerPoint.failing e).Allows job := by
    rintro (h | h)
    · exact ⟨by rw [h]; rfl, fun e => by rw [WorkerPoint.Allows, h]; exact nofun⟩
    · exact ⟨by rw [h]; rfl, fun e => by rw [WorkerPoint.Allows, h]; exact nofun⟩
  unfold work
  cases hpt : w.point with
  | start =>
    rw [hpt] at hok
    exact steps_start hget hok (hguard hpt) o
  | readyExisting =>
    rw [hpt] at hok
    exact steps_readyExisting hget hok o
  | locking =>
    rw [hpt] at hok
    exact steps_locking hget hok hstay
  | looking =>
    rw [hpt] at hok
    exact steps_looking hget hok
  | marking =>
    rw [hpt] at hok
    have hallows : job.state = .queued ∨ job.state = .cancelling := hok.allows
    have hactive : job.state.isActive = true := by
      rcases hallows with h | h <;> rw [h] <;> rfl
    have hout : job.state.Out →
        (if job.state = .cancelling then DdlJobState.cancelling else .building).Out := by
      rcases hallows with h | h <;> rw [h] <;> exact fun x => x
    refine steps_update hget hok _ (.change ?_ rfl hactive hout nofun)
      (.change ?_ rfl hactive hout nofun)
    · show (if job.state = .cancelling then DdlJobState.cancelling else .building) = .building ∨
        (if job.state = .cancelling then DdlJobState.cancelling else .building) = .cancelling
      split
      · exact Or.inr rfl
      · exact Or.inl rfl
    · show (if job.state = .cancelling then DdlJobState.cancelling else .building) ≠ .failed
      split <;> exact nofun
  | cleaning =>
    rw [hpt] at hok
    exact steps_cleanThen hget hok _ o (.keep hok.allows nofun)
      (fun e => .keep ((hmid hok.allows).2 e) nofun) hstay
  | checking =>
    rw [hpt] at hok
    dsimp only
    rw [DdlJobManager.isCancelling_eq hget]
    refine (Alters.refl hget).goto hok (.keep ?_ nofun)
    split
    · next h =>
      show job.state = .cancelling
      simpa using h
    · exact hok.allows
  | preparing =>
    rw [hpt] at hok
    exact steps_preparing hget hok (hmid hok.allows).2 hstay o
  | beginning n =>
    rw [hpt] at hok
    have hactive := (hmid hok.allows).1
    have hin : job.state ≠ .cancelling → ¬ job.state.Out := by
      intro hne
      rw [(hok.allows : job.state = .building ∨ _).resolve_right hne]
      exact fun h => h
    refine steps_unlessCancelling hget hok _ (fun h => .keep h nofun) (fun hne => ?_) (fun hne => ?_)
    · exact .change (Or.inl rfl) rfl hactive (absurd · (hin hne)) nofun
    · exact .change (nofun : DdlJobState.building ≠ .failed) rfl hactive (absurd · (hin hne)) nofun
  | initializing =>
    rw [hpt] at hok
    exact steps_orAfterError hget hok o (.keep hok.allows nofun) (fun e => .keep hok.allows nofun) hstay
  | building =>
    rw [hpt] at hok
    exact steps_building hget hok hstay o
  | eventCheck event =>
    rw [hpt] at hok
    refine (Alters.refl hget).goto hok (.keep ?_ nofun)
    split <;> exact hok.allows
  | eventSave event =>
    rw [hpt] at hok
    have hactive := (hmid hok.allows).1
    have hsame : (eventUpdate event job).state = job.state ∧
        (eventUpdate event job).target = job.target := by
      cases event <;> exact ⟨rfl, rfl⟩
    have hallows : job.state = .building ∨ job.state = .cancelling := hok.allows
    rw [← hsame.1] at hallows
    dsimp only
    rw [DdlJobManager.update_eq hget]
    refine (Alters.put _ _).goto hok (.change ?_ hsame.2 hactive (fun h => hsame.1 ▸ h) nofun)
    split <;> exact hallows
  | eventRecheck event =>
    rw [hpt] at hok
    refine (Alters.refl hget).goto hok (.keep ?_ nofun)
    split
    · exact hok.allows
    · split <;> exact hok.allows
  | committing =>
    rw [hpt] at hok
    exact steps_orAfterError hget hok o (.keep hok.allows nofun) (fun e => .keep hok.allows nofun) hstay
  | built completed =>
    rw [hpt] at hok
    refine (Alters.refl hget).goto hok (.keep ?_ nofun)
    split <;> exact hok.allows
  | markCancelling =>
    rw [hpt] at hok
    have hactive := (hmid hok.allows).1
    exact steps_update hget hok _ (.change rfl rfl hactive (fun _ => trivial) nofun)
      (.change (nofun : DdlJobState.cancelling ≠ .failed) rfl hactive (fun _ => trivial) nofun)
  | persisting =>
    rw [hpt] at hok
    obtain ⟨hactive, hfail⟩ := hmid hok.allows
    exact steps_update hget hok _ (.change hok.allows rfl hactive (fun h => h) nofun)
      (.change (hfail DdlJobManager.saveFailed) rfl hactive (fun h => h) nofun)
  | syncing =>
    rw [hpt] at hok
    exact steps_orAfterError hget hok o (.keep hok.allows nofun) (fun e => .keep hok.allows nofun) hstay
  | entering =>
    rw [hpt] at hok
    obtain ⟨hactive, hfail⟩ := hmid hok.allows
    have hallows : job.state = .building ∨ job.state = .cancelling := hok.allows
    refine steps_unlessCancelling hget hok _ (fun h => .keep h nofun) (fun hne => ?_) (fun _ => ?_)
    · exact .change ⟨hallows.resolve_right hne, rfl⟩ rfl hactive (fun h => h) nofun
    · exact .change (hfail DdlJobManager.saveFailed) rfl hactive (fun h => h) nofun
  | leaving =>
    rw [hpt] at hok
    have hallows : job.state = .cancelling := hok.allows
    obtain ⟨hactive, hfail⟩ := hmid (Or.inr hallows)
    exact steps_update hget hok _ (.change hallows rfl hactive (fun h => h) nofun)
      (.change (hfail DdlJobManager.saveFailed) rfl hactive (fun h => h) nofun)
  | abandoning =>
    rw [hpt] at hok
    exact steps_cleanThen hget hok _ o (.keep hok.allows nofun)
      (fun e => .keep ((hmid (Or.inr hok.allows)).2 e) nofun) hstay
  | cancelling =>
    rw [hpt] at hok
    exact steps_cancelling hget hok o
  | promoting =>
    rw [hpt] at hok
    have hallows : job.state = .building ∧ job.phase = .registering := hok.allows
    exact steps_orAfterError hget hok o (.keep hallows nofun) (fun e => .keep (Or.inl hallows.1) nofun)
      hstay
  | publishing =>
    rw [hpt] at hok
    exact steps_publishing hget hok hstay o
  | readying =>
    rw [hpt] at hok
    exact steps_readying hget hok o
  | unpublishing =>
    rw [hpt] at hok
    have hready : job.state = .ready := hok.allows
    refine (Alters.cleanup hget _ _ o).leave hok (.keep ?_ nofun)
    rw [WorkerPoint.Allows, hready]
    exact nofun
  | afterError e =>
    rw [hpt] at hok
    dsimp only
    rw [DdlJobManager.update_eq hget]
    exact (Alters.put _ _).goto hok (.change hok.allows rfl (hmid hok.allows).1 (fun h => h) nofun)
  | errorCleaning e =>
    rw [hpt] at hok
    exact (Alters.cleanup hget _ _ o).leave hok (.keep ((hmid hok.allows).2 e) nofun)
  | failing e =>
    rw [hpt] at hok
    exact steps_failing hget hok o
  | done => exact hstay

/-! ## Cancel calls -/

theorem allows_cancelled (hp : p.Allows job) (hstate : job.state = .queued)
    (hsafe : p ≠ .readyExisting ∧ p ≠ .marking) :
    p.Allows { job with state := .cancelled, phase := .complete } := by
  cases p with
  | readyExisting => exact absurd rfl hsafe.1
  | marking => exact absurd rfl hsafe.2
  | failing e => exact (nofun : DdlJobState.cancelled ≠ .failed)
  | start => exact Or.inr (Or.inr rfl)
  | locking => exact Or.inr (Or.inr rfl)
  | looking => exact Or.inr (Or.inr rfl)
  | _ =>
    -- no other point allows a queued job
    simp only [WorkerPoint.Allows, hstate] at hp
    first
    | exact absurd hp (by decide)
    | exact absurd hp.1 (by decide)

theorem allows_cancelling (hp : p.Allows job) (hstate : job.state = .building)
    (hsafe : job.phase.cancellationIsSafe = true) :
    p.Allows { job with state := .cancelling } := by
  have hphase : job.phase ≠ .registering := by
    rintro h
    rw [h] at hsafe
    cases hsafe
  cases p with
  | failing e => exact (nofun : DdlJobState.cancelling ≠ .failed)
  | promoting => exact absurd hp.2 hphase
  | publishing => exact absurd hp.2 hphase
  | readying => exact absurd hp.2 hphase
  | _ =>
    simp only [WorkerPoint.Allows, hstate] at hp
    first
    | exact absurd hp (by decide)
    | exact Or.inr rfl

/-- Nobody's worker moves. -/
theorem steps_cancel (hget : s.manager.get id = some job) (hok : JobOk s id job (s.pointOf id))
    (hguard : job.state = .queued → s.pointOf id ≠ .readyExisting ∧ s.pointOf id ≠ .marking)
    (saved : Bool) : Steps s (s.cancel id saved) id job := by
  have hothers : ∀ j, j ≠ id → (j ∈ insert id s.cancelAnswered ↔ j ∈ s.cancelAnswered) :=
    fun j hj => Finset.mem_insert.trans (or_iff_right hj)
  -- the job is changed and on its way out
  have hchanged : ∀ job' : DdlJob, (s.pointOf id).Allows job' → job'.target = job.target →
      job.state.isActive = true → job'.state.Out → job.state ≠ .ready → (s.pointOf id) ≠ .readying →
      Steps s (({ s with manager := s.manager.put id job' saved } : DdlSystem)) id job ∧
      Steps s { s with manager := s.manager.put id job' saved
                       cancelAnswered := insert id s.cancelAnswered } id job := by
    intro job' hallows htarget hactive hout hready hp
    have h : Alters s { s with manager := s.manager.put id job' saved } id job' := Alters.put job' saved
    have hnot : id ∉ s.published := fun hpub => (hok.published hpub).elim hready hp
    have hfinal : job.state.isActive = false → job'.state = job.state := by
      intro hf
      rw [hactive] at hf
      cases hf
    exact ⟨⟨⟨job', h.here, ⟨hallows, fun hpub => absurd hpub hnot, fun _ => hout⟩, htarget, hfinal⟩,
        h.get, fun _ _ => rfl, fun _ _ => Iff.rfl, fun _ _ => Iff.rfl, Finset.Subset.refl _⟩,
      ⟨⟨job', h.here, ⟨hallows, fun hpub => absurd hpub hnot, fun _ => hout⟩, htarget, hfinal⟩,
        h.get, fun _ _ => rfl, hothers, fun _ _ => Iff.rfl, Finset.subset_insert _ _⟩⟩
  have hkept : job.state.Out →
      Steps s { s with cancelAnswered := insert id s.cancelAnswered } id job := by
    intro hout
    exact ⟨⟨job, hget, ⟨hok.allows, hok.published, fun _ => hout⟩, rfl, fun _ => rfl⟩,
      fun _ _ => rfl, fun _ _ => rfl, hothers, fun _ _ => Iff.rfl, Finset.subset_insert _ _⟩
  have hstay : Steps s s id job := Steps.stay hget hok
  unfold cancel DdlJobManager.cancel DdlJobManager.cancelJob
  rw [hget]
  dsimp only
  cases hstate : job.state with
  | queued =>
    have hp : s.pointOf id ≠ .readying := by
      intro hp
      have hallows := hok.allows
      rw [hp] at hallows
      exact absurd (hstate.symm.trans hallows.1) (by decide)
    obtain ⟨h1, h2⟩ := hchanged _ (allows_cancelled hok.allows hstate (hguard hstate)) rfl
      (by rw [hstate]; rfl) trivial (by rw [hstate]; exact nofun) hp
    cases saved with
    | true => exact h2
    | false => exact h1
  | building =>
    dsimp only
    by_cases hsafe : job.phase.cancellationIsSafe = true
    · have hp : s.pointOf id ≠ .readying := by
        intro hp
        have hallows := hok.allows
        rw [hp] at hallows
        rw [hallows.2] at hsafe
        cases hsafe
      obtain ⟨h1, h2⟩ := hchanged _ (allows_cancelling hok.allows hstate hsafe) rfl
        (by rw [hstate]; rfl) trivial (by rw [hstate]; exact nofun) hp
      rw [if_pos hsafe]
      cases saved with
      | true => exact h2
      | false => exact h1
    · rw [if_neg hsafe]
      exact hstay
  | cancelling => exact hkept (by rw [hstate]; trivial)
  | cancelled => exact hkept (by rw [hstate]; trivial)
  | ready => exact hstay
  | failed => exact hstay

end WorkerSteps

/-! ## Requests -/

/-- A request that makes a job found none with its id and no active one with its target. -/
theorem enqueue_created {m m' : DdlJobManager} {operationId : Option String}
    {fresh database collection : String} {request : CreateIndex} {totalItems : Nat} {saved : Bool}
    {id : String} {job : DdlJob} (hfresh : operationId = none → m.get fresh = none)
    (h : m.enqueue operationId fresh database collection request totalItems saved =
      (m', .ok (id, job, true))) :
    m.get id = none ∧ m' = m.put id job true ∧
      job.state = .queued ∧ ∀ j x, m.get j = some x → x.state.isActive = true → x.target ≠ job.target := by
  unfold DdlJobManager.enqueue at h
  dsimp only at h
  split at h
  · split at h
    · simp at h
    · simp at h
  · next hnone =>
    split at h
    · simp at h
    · next hfind =>
      split at h
      · rw [Prod.mk.injEq, Except.ok.injEq, Prod.mk.injEq, Prod.mk.injEq] at h
        obtain ⟨rfl, rfl, rfl, -⟩ := h
        refine ⟨?_, rfl, rfl, fun j x hx hactive htarget => ?_⟩
        · cases operationId with
          | none => exact hfresh rfl
          | some id => exact hnone
        · have hentry := List.find?_eq_none.mp hfind ⟨j, x⟩ (AList.mem_lookup_iff.mp hx)
          simp only [Bool.and_eq_true, decide_eq_true_eq, not_and] at hentry
          exact hentry htarget hactive
      · simp at h

/-- A request that makes no job leaves the table alone. -/
theorem enqueue_not_created {m : DdlJobManager} {operationId : Option String}
    {fresh database collection : String} {request : CreateIndex} {totalItems : Nat} {saved : Bool}
    (h : ∀ id job, (m.enqueue operationId fresh database collection request totalItems saved).2 ≠
      .ok (id, job, true)) :
    (m.enqueue operationId fresh database collection request totalItems saved).1 = m := by
  unfold DdlJobManager.enqueue at h ⊢
  dsimp only at h ⊢
  split
  · split <;> rfl
  · split
    · rfl
    · next hnone _ hfind =>
      cases saved with
      | true =>
        refine absurd ?_ (h (operationId.getD fresh)
          (DdlJob.new database collection request totalItems))
        simp [hnone, hfind]
      | false => rfl

variable {s s' : DdlSystem}

/-- A request changes nothing or makes a job with a worker. -/
theorem enqueue_cases {operationId : Option String} {fresh database collection : String}
    {request : CreateIndex} {totalItems : Nat} {saved : Bool}
    (hfresh : operationId = none → s.manager.get fresh = none) :
    s.enqueue operationId fresh database collection request totalItems saved = s ∨
      ∃ id job, s.manager.get id = none ∧ job.state = .queued ∧
        (∀ j x, s.manager.get j = some x → x.state.isActive = true → x.target ≠ job.target) ∧
        s.enqueue operationId fresh database collection request totalItems saved =
          { s with
            manager := s.manager.put id job true
            workers := Function.update s.workers id (some ⟨.start, job⟩) } := by
  unfold DdlSystem.enqueue
  dsimp only
  by_cases hcreated : ∃ id job, (s.manager.enqueue operationId fresh database collection
      request totalItems saved).2 = .ok (id, job, true)
  · obtain ⟨id, job, hjob⟩ := hcreated
    obtain ⟨hnone, hm, hqueued, hsingle⟩ := enqueue_created hfresh (Prod.ext rfl hjob)
    refine Or.inr ⟨id, job, hnone, hqueued, hsingle, ?_⟩
    rw [hjob]
    exact congrArg (fun m => ({ s with manager := m, workers := _ } : DdlSystem)) hm
  · push Not at hcreated
    refine Or.inl ?_
    rw [enqueue_not_created hcreated]
    split
    · next id job heq => exact absurd heq (hcreated id job)
    · rfl

theorem Sound.enqueue (h : s.Sound) {operationId : Option String} {fresh database collection : String}
    {request : CreateIndex} {totalItems : Nat} {saved : Bool}
    (hfresh : operationId = none → s.manager.get fresh = none) :
    (s.enqueue operationId fresh database collection request totalItems saved).Sound := by
  rcases enqueue_cases hfresh with hsame | ⟨id, job, hnone, hqueued, hsingle, heq⟩
  · rw [hsame]
    exact h
  · rw [heq]
    have hget : ∀ j, (s.manager.put id job true).get j =
        if j = id then some job else s.manager.get j := fun j =>
      DdlJobManager.get_put _ _ _ _ _
    have hunknown : ∀ {P : Prop}, id ∈ s.cancelAnswered ∨ id ∈ s.published →
        P := by
      intro P hin
      obtain ⟨x, hx⟩ := h.history _ hin
      rw [hnone] at hx
      cases hx
    refine ⟨?_, ?_, ?_, ?_⟩
    · intro j x hx
      replace hx := (hget j).symm.trans hx
      split at hx
      · next hj =>
        subst hj
        obtain rfl := Option.some.inj hx
        rw [pointOf_worker (Function.update_self _ _ _)]
        exact ⟨Or.inl hqueued, fun hp => hunknown (Or.inr hp), fun ha => hunknown (Or.inl ha)⟩
      · next hj =>
        have hok := h.jobs j x hx
        rw [pointOf_congr (Function.update_of_ne hj _ _)]
        exact ⟨hok.allows, hok.published, hok.answered⟩
    · intro j w hw
      by_cases hj : j = id
      · exact ⟨job, (hget j).trans (if_pos hj)⟩
      · replace hw : Function.update s.workers id (some ⟨.start, job⟩) j = some w := hw
        rw [Function.update_of_ne hj] at hw
        obtain ⟨x, hx⟩ := h.worked j w hw
        exact ⟨x, (hget j).trans ((if_neg hj).trans hx)⟩
    · intro j₁ j₂ x₁ x₂ hx₁ hx₂ ha₁ ha₂ heq
      replace hx₁ := (hget j₁).symm.trans hx₁
      replace hx₂ := (hget j₂).symm.trans hx₂
      split at hx₁
      · next h1 =>
        obtain rfl := Option.some.inj hx₁
        split at hx₂
        · next h2 => rw [h1, h2]
        · exact absurd heq.symm (hsingle j₂ x₂ hx₂ ha₂)
      · split at hx₂
        · obtain rfl := Option.some.inj hx₂
          exact absurd heq (hsingle j₁ x₁ hx₁ ha₁)
        · exact h.single j₁ j₂ x₁ x₂ hx₁ hx₂ ha₁ ha₂ heq
    · intro j hj
      obtain ⟨x, hx⟩ := h.history j hj
      by_cases hjo : j = id
      · exact ⟨job, (hget j).trans (if_pos hjo)⟩
      · exact ⟨x, (hget j).trans ((if_neg hjo).trans hx)⟩


/-! ## Whole runs -/

/-- No cancel call takes a queued job whose worker has looked at it for the last time, no worker
finds the index of a job that is being cancelled, and new ids are new. -/
def Undisturbed (s : DdlSystem) : DdlAct → Prop
  | .cancel id _ => ∀ job, s.manager.get id = some job → job.state = .queued →
    s.pointOf id ≠ .readyExisting ∧ s.pointOf id ≠ .marking
  | .work id _ => s.pointOf id = .start → ∀ job, s.manager.get id = some job →
    s.existing job = some job.index → job.state ≠ .cancelling
  | .enqueue operationId fresh _ _ _ _ _ => operationId = none → s.manager.get fresh = none
  | .createIndex _ _ _ _ | .dropIndex _ _ _ _ => True

/-- Jobs stay, those that have ended as they are, and answers are not taken back. -/
structure Later (s s' : DdlSystem) : Prop where
  ended : ∀ id job, s.manager.get id = some job → ∃ job', s'.manager.get id = some job' ∧
    (job.state.isActive = false → job'.state = job.state)
  answered : s.cancelAnswered ⊆ s'.cancelAnswered

theorem Later.refl (s : DdlSystem) : Later s s :=
  ⟨fun _ job hget => ⟨job, hget, fun _ => rfl⟩, Finset.Subset.refl _⟩

theorem Later.trans {s₁ s₂ s₃ : DdlSystem} (h : Later s₁ s₂) (h' : Later s₂ s₃) : Later s₁ s₃ := by
  refine ⟨fun id job hget => ?_, h.answered.trans h'.answered⟩
  obtain ⟨job₂, hget₂, hsame₂⟩ := h.ended id job hget
  obtain ⟨job₃, hget₃, hsame₃⟩ := h'.ended id job₂ hget₂
  refine ⟨job₃, hget₃, fun hended => ?_⟩
  have hstate := hsame₂ hended
  rw [hsame₃ (by rw [hstate]; exact hended), hstate]

theorem Later.of_steps {id : String} {job : DdlJob} (hget : s.manager.get id = some job)
    (h : Steps s s' id job) : Later s s' := by
  refine ⟨fun j x hx => ?_, h.grows⟩
  by_cases hj : j = id
  · subst hj
    rw [hget] at hx
    obtain rfl := Option.some.inj hx
    obtain ⟨job', hget', -, -, hfinal⟩ := h.here
    exact ⟨job', hget', hfinal⟩
  · exact ⟨x, (h.get j hj).trans hx, fun _ => rfl⟩

theorem Later.enqueue {operationId : Option String} {fresh database collection : String}
    {request : CreateIndex} {totalItems : Nat} {saved : Bool}
    (hfresh : operationId = none → s.manager.get fresh = none) :
    Later s (s.enqueue operationId fresh database collection request totalItems saved) := by
  rcases enqueue_cases hfresh with hsame | ⟨id, job, hnone, -, -, heq⟩
  · rw [hsame]
    exact .refl s
  · rw [heq]
    refine ⟨fun j x hx => ⟨x, ?_, fun _ => rfl⟩, Finset.Subset.refl _⟩
    have hj : j ≠ id := by
      rintro rfl
      rw [hnone] at hx
      cases hx
    exact (DdlJobManager.get_put _ _ _ _ _).trans ((if_neg hj).trans hx)

/-- Schema, registry, lock and reports do not matter here. -/
theorem Sound.congr (h : s.Sound) (hm : s'.manager = s.manager) (hw : s'.workers = s.workers)
    (ha : s'.cancelAnswered = s.cancelAnswered) (hp : s'.published = s.published) : s'.Sound := by
  obtain ⟨manager, schema, registry, lock, workers, answered, published, reported⟩ := s'
  subst hm hw ha hp
  have hpoint : ∀ id, pointOf ⟨s.manager, schema, registry, lock, s.workers, s.cancelAnswered,
      s.published, reported⟩ id = s.pointOf id := fun id => pointOf_congr rfl
  refine ⟨fun id job hget => ?_, h.worked, h.single, h.history⟩
  have hok := h.jobs id job hget
  rw [hpoint]
  exact ⟨hok.allows, hok.published, hok.answered⟩

theorem createIndex_same (s : DdlSystem) (database collection : String) (request : CreateIndex)
    (o : Outcome) : ∃ schema registry reported,
      s.createIndex database collection request o =
        { s with schema := schema, registry := registry, reported := reported } := by
  unfold createIndex
  dsimp only
  split
  · exact ⟨_, _, _, rfl⟩
  · cases o <;> exact ⟨_, _, _, rfl⟩

theorem dropIndex_same (s : DdlSystem) (database collection name : String) (o : Outcome) :
    ∃ schema registry reported, s.dropIndex database collection name o =
      { s with schema := schema, registry := registry, reported := reported } := by
  unfold dropIndex
  dsimp only
  split
  · exact ⟨_, _, _, rfl⟩
  · split <;> exact ⟨_, _, _, rfl⟩

theorem Sound.step (h : s.Sound) {act : DdlAct} (hact : Undisturbed s act) :
    (s.step act).Sound ∧ Later s (s.step act) := by
  cases act with
  | enqueue operationId fresh database collection request totalItems saved =>
    exact ⟨h.enqueue hact, .enqueue hact⟩
  | cancel id saved =>
    show (s.cancel id saved).Sound ∧ Later s (s.cancel id saved)
    cases hget : s.manager.get id with
    | none =>
      have hsame : s.cancel id saved = s := by
        unfold DdlSystem.cancel DdlJobManager.cancel
        rw [hget]
      rw [hsame]
      exact ⟨h, .refl s⟩
    | some job =>
      have hs := steps_cancel hget (h.jobs id job hget) (hact job hget) saved
      exact ⟨h.steps hget hs, .of_steps hget hs⟩
  | work id o =>
    show (match s.workers id with | some w => s.work id w o | none => s).Sound ∧
      Later s (match s.workers id with | some w => s.work id w o | none => s)
    cases hw : s.workers id with
    | none => exact ⟨h, .refl s⟩
    | some w =>
      obtain ⟨job, hget⟩ := h.worked id w hw
      have hpoint := pointOf_worker hw
      have hs := work_steps hget hw (h.jobs id job hget)
        (fun hp => hact (hpoint.trans hp) job hget) o
      exact ⟨h.steps hget hs, .of_steps hget hs⟩
  | createIndex database collection request o =>
    obtain ⟨schema, registry, reported, heq⟩ := createIndex_same s database collection request o
    have hsame : s.step (.createIndex database collection request o) = _ := heq
    rw [hsame]
    exact ⟨h.congr rfl rfl rfl rfl, fun _ job hget => ⟨job, hget, fun _ => rfl⟩,
      Finset.Subset.refl _⟩
  | dropIndex database collection name o =>
    obtain ⟨schema, registry, reported, heq⟩ := dropIndex_same s database collection name o
    have hsame : s.step (.dropIndex database collection name o) = _ := heq
    rw [hsame]
    exact ⟨h.congr rfl rfl rfl rfl, fun _ job hget => ⟨job, hget, fun _ => rfl⟩,
      Finset.Subset.refl _⟩

/-- As `open` leaves the system: active jobs are queued or being cancelled, with a worker at the
start, the others have none. -/
structure Opened (s : DdlSystem) : Prop where
  active : ∀ id job, s.manager.get id = some job → job.state.isActive = true →
    (job.state = .queued ∨ job.state = .cancelling) ∧ s.pointOf id = .start
  ended : ∀ id job, s.manager.get id = some job → job.state.isActive = false → s.workers id = none
  worked : ∀ id w, s.workers id = some w → ∃ job, s.manager.get id = some job
  single : ∀ id₁ id₂ job₁ job₂, s.manager.get id₁ = some job₁ → s.manager.get id₂ = some job₂ →
    job₁.state.isActive = true → job₂.state.isActive = true → job₁.target = job₂.target → id₁ = id₂
  answered : ∀ id ∈ s.cancelAnswered, ∃ job, s.manager.get id = some job ∧ job.state.Out
  published : ∀ id ∈ s.published, ∃ job, s.manager.get id = some job ∧ job.state = .ready

theorem Opened.sound (h : s.Opened) : s.Sound := by
  have hsame : ∀ {id job job'}, s.manager.get id = some job → s.manager.get id = some job' →
      job' = job := by
    intro id job job' hget hget'
    rw [hget] at hget'
    exact (Option.some.inj hget').symm
  refine ⟨fun id job hget => ⟨?_, fun hp => ?_, fun ha => ?_⟩, h.worked, h.single, ?_⟩
  · cases hactive : job.state.isActive with
    | true =>
      obtain ⟨hstate, hstart⟩ := h.active id job hget hactive
      rw [hstart]
      exact hstate.imp_right Or.inl
    | false =>
      have hdone : s.pointOf id = .done := by
        unfold pointOf
        rw [h.ended id job hget hactive]
      rw [hdone]
      exact hactive
  · obtain ⟨job', hget', hready⟩ := h.published id hp
    exact Or.inl (hsame hget hget' ▸ hready)
  · obtain ⟨job', hget', hout⟩ := h.answered id ha
    exact hsame hget hget' ▸ hout
  · rintro id (ha | hp)
    · obtain ⟨job, hget, -⟩ := h.answered id ha
      exact ⟨job, hget⟩
    · obtain ⟨job, hget, -⟩ := h.published id hp
      exact ⟨job, hget⟩

/-- In an undisturbed run a job that has ended stays as it is, a job with a cancel call answered
is never ready nor its index published, and no index has two active jobs. -/
theorem ended_jobs_stay (hopen : s.Opened) {acts : List DdlAct}
    (hmeets : Meets DdlSystem.step Undisturbed s acts) {done more : List DdlAct}
    (hfront : done ++ more <+: acts) :
    (∀ id job, (s.run done).manager.get id = some job → job.state.isActive = false →
      ∃ job', (s.run (done ++ more)).manager.get id = some job' ∧ job'.state = job.state) ∧
    (∀ id ∈ (s.run done).cancelAnswered, id ∉ (s.run (done ++ more)).published ∧
      ∀ job, (s.run (done ++ more)).manager.get id = some job → job.state ≠ .ready) ∧
    (∀ id₁ id₂ job₁ job₂, (s.run done).manager.get id₁ = some job₁ →
      (s.run done).manager.get id₂ = some job₂ → job₁.state.isActive = true →
      job₂.state.isActive = true → job₁.target = job₂.target → id₁ = id₂) := by
  have hsound : ∀ done', done' <+: acts → (s.run done').Sound :=
    foldl_invariant Sound (fun t a ht ha => (ht.step ha).1) hopen.sound hmeets
  have hdone : (s.run done).Sound := hsound done ((List.prefix_append _ _).trans hfront)
  have hmore : (s.run (done ++ more)).Sound := hsound _ hfront
  have hlater : (s.run (done ++ more)).Sound ∧ Later (s.run done) (s.run (done ++ more)) :=
    foldl_later (fun t => t.Sound ∧ Later (s.run done) t)
      (fun t a ht ha => ⟨(ht.1.step ha).1, ht.2.trans (ht.1.step ha).2⟩) hmeets hfront
      ⟨hdone, .refl _⟩
  refine ⟨fun id job hget hended => ?_, fun id ha => ?_, hdone.single⟩
  · obtain ⟨job', hget', hsame⟩ := hlater.2.ended id job hget
    exact ⟨job', hget', hsame hended⟩
  · have hanswered := hlater.2.answered ha
    obtain ⟨job, hget⟩ := hmore.history id (Or.inl hanswered)
    have hok := hmore.jobs id job hget
    have hout := hok.answered hanswered
    have hready : job.state ≠ .ready := by
      intro h
      rw [h] at hout
      exact hout
    refine ⟨fun hp => ?_, fun job' hget' => ?_⟩
    · have hpoint := (hok.published hp).resolve_left hready
      have hallows := hok.allows
      rw [hpoint] at hallows
      rw [hallows.1] at hout
      exact hout
    · rw [hget] at hget'
      exact Option.some.inj hget' ▸ hready

end DdlSystem

/-! ## A job that is cancelled -/

namespace UserIndex

/-- No jobs and no indexes. -/
def idle : DdlSystem where
  manager := .empty
  schema _ := []
  registry _ := []
  lock _ := none
  workers _ := none
  cancelAnswered := ∅
  published := ∅
  reported := ∅

theorem idle_opened : idle.Opened where
  active _ _ h := nomatch h
  ended _ _ h := nomatch h
  worked _ _ h := nomatch h
  single _ _ _ _ h := nomatch h
  answered _ h := absurd h (Finset.notMem_empty _)
  published _ h := absurd h (Finset.notMem_empty _)

/-- A unique index on the mail addresses of users. -/
def byEmail : CreateIndex := ⟨["email"], true, .btree, none, none⟩

def ask (id : String) : DdlAct := .enqueue none id "main" "users" byEmail 0 true

/-- The job is cancelled when its worker has looked for the last time. -/
def cancelledLate : List DdlAct :=
  [ask "op_1", .work "op_1" .ok, .work "op_1" .ok, .work "op_1" .ok, .cancel "op_1" true]

/-- The same index is asked for again, and the worker goes on. -/
def askedAgain : List DdlAct := [ask "op_2", .work "op_1" .ok]

/-- The worker goes on to the end. -/
def workedOn : List DdlAct :=
  [.ok, .ok, .counted 0, .ok, .ok, .event .committing, .ok, .ok, .ok, .ok, .ok, .ok, .ok, .ok, .ok,
    .ok, .ok].map (.work "op_1" ·)

/-- The job of the cancel call is revived, active beside another one for the same index, and ends
ready with its index published. -/
theorem cancelled_job_revived :
    idle.Opened ∧ "op_1" ∈ (idle.run cancelledLate).cancelAnswered ∧
      ((idle.run cancelledLate).manager.get "op_1").map (·.state) = some .cancelled ∧
      ((idle.run (cancelledLate ++ askedAgain)).manager.get "op_1").map (·.state) = some .building ∧
      ((idle.run (cancelledLate ++ askedAgain)).manager.get "op_2").map (·.state) = some .queued ∧
      ((idle.run (cancelledLate ++ askedAgain)).manager.get "op_1").map (·.target) =
        ((idle.run (cancelledLate ++ askedAgain)).manager.get "op_2").map (·.target) ∧
      ((idle.run (cancelledLate ++ askedAgain ++ workedOn)).manager.get "op_1").map (·.state) =
        some .ready ∧
      "op_1" ∈ (idle.run (cancelledLate ++ askedAgain ++ workedOn)).published := by
  refine ⟨idle_opened, ?_, ?_, ?_, ?_, ?_, ?_, ?_⟩ <;> decide +kernel

/-- A job cancelled before its worker starts. -/
theorem cancelled_early_stays :
    Meets DdlSystem.step DdlSystem.Undisturbed idle [ask "op_1", .cancel "op_1" true] ∧
      "op_1" ∈ (idle.run [ask "op_1", .cancel "op_1" true]).cancelAnswered ∧
      "op_1" ∉ (idle.run [ask "op_1", .cancel "op_1" true]).published := by
  have hmeets : Meets DdlSystem.step DdlSystem.Undisturbed idle [ask "op_1", .cancel "op_1" true] := by
    refine ⟨fun _ => ?_, fun job _ _ => ?_, trivial⟩ <;> decide +kernel
  have hanswered : "op_1" ∈ (idle.run [ask "op_1", .cancel "op_1" true]).cancelAnswered := by
    decide +kernel
  have hfront : [ask "op_1", .cancel "op_1" true] ++ [] <+: [ask "op_1", .cancel "op_1" true] :=
    List.prefix_refl _
  have h := DdlSystem.ended_jobs_stay idle_opened hmeets hfront
  exact ⟨hmeets, hanswered, (h.2.1 "op_1" hanswered).1⟩

end UserIndex

end StellarDb
