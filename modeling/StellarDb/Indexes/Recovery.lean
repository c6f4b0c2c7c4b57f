import StellarDb.Indexes.Jobs

/-!
# StellarDb — recovery of external indexes

What the jobs are for: after a crash and whatever came before it, the external indexes have the
entries of the stored documents. It takes that no document is written while the job of an earlier
write of it is under way, since jobs go by document; that a job keeps its entries when it is read
back; and that indexes of one name index the same.
-/

namespace StellarDb

open Keyspaces

namespace ExternalSystem

variable [External] [Formats] {s : ExternalSystem}

/-! ## Runs -/

/-- The writes that a step commits. -/
def committed (s : ExternalSystem) : JobAct → List ExternalIndexJob
  | .write i batch => if (s.processes i).isNone && s.opened then batch.jobs else []
  | _ => []

/-- What a step leaves alone: the indexes, and the store but for the writes it commits. -/
structure Framed (s t : ExternalSystem) (writes : List ExternalIndexJob) : Prop where
  indexes : t.indexes = s.indexes
  collection : t.collection = s.collection
  stored : t.stored = s.stored.applyWrites (writes.map fun job => (job.key, job.newDoc))

omit [External] [Formats] in
theorem fails_framed (t : ExternalSystem) (i : Nat) (p : JobProcess) (h : Framed s t []) :
    Framed s (t.fails i p) [] := by
  unfold fails
  split <;> exact ⟨h.indexes, h.collection, h.stored⟩

theorem move_framed (s : ExternalSystem) (i : Nat) (p : JobProcess) (outcome : JobOutcome) :
    Framed s (s.move i p outcome) [] := by
  unfold move
  cases p.point with
  | waiting => cases s.gate <;> exact ⟨rfl, rfl, rfl⟩
  | applying todo =>
    cases todo with
    | nil => exact ⟨rfl, rfl, rfl⟩
    | cons e rest =>
      cases outcome with
      | ok => exact ⟨rfl, rfl, rfl⟩
      | err removed _ => cases removed <;> exact fails_framed _ i p ⟨rfl, rfl, rfl⟩
  | committing =>
    cases outcome with
    | ok => exact ⟨rfl, rfl, rfl⟩
    | err _ committed => exact fails_framed _ i p ⟨rfl, rfl, rfl⟩
  | removing =>
    cases outcome with
    | ok => exact ⟨rfl, rfl, rfl⟩
    | err _ _ => exact fails_framed _ i p ⟨rfl, rfl, rfl⟩
  | failed => exact ⟨rfl, rfl, rfl⟩

theorem step_framed (s : ExternalSystem) (a : JobAct) : Framed s (s.step a) (s.committed a) := by
  cases a with
  | write i batch =>
    rw [step, committed]
    cases s.processes i with
    | some p => exact ⟨rfl, rfl, rfl⟩
    | none => cases hopened : s.opened <;> exact ⟨rfl, rfl, rfl⟩
  | move i outcome =>
    rw [step]
    cases s.processes i with
    | none => exact ⟨rfl, rfl, rfl⟩
    | some p => exact move_framed s i p outcome
  | autoCommit which =>
    rw [step]
    split <;> exact ⟨rfl, rfl, rfl⟩
  | crash kept => exact ⟨rfl, rfl, rfl⟩
  | replay i order =>
    rw [step]
    split
    · exact ⟨rfl, rfl, rfl⟩
    · dsimp only
      split <;> exact ⟨rfl, rfl, rfl⟩

/-- A write waits for the jobs of its documents, and the jobs left at a crash keep their entries
when they are read back. -/
def Orderly (s : ExternalSystem) : JobAct → Prop
  | .write _ batch => s.Clear batch
  | .replay _ order => s.RereadsAlike order
  | _ => True

theorem Tracked.step (h : Tracked s) (hseparate : Separate s.indexes s.collection) {a : JobAct}
    (ha : s.Orderly a) : Tracked (s.step a) := by
  cases a with
  | write i batch =>
    rw [ExternalSystem.step]
    cases hp : s.processes i with
    | some p => exact h
    | none =>
      show Tracked (if s.opened then _ else s)
      split
      · next hopened => exact h.write ha hopened
      · exact h
  | move i outcome =>
    rw [ExternalSystem.step]
    cases hp : s.processes i with
    | none => exact h
    | some p => exact h.move hseparate hp outcome
  | autoCommit which =>
    rw [ExternalSystem.step]
    split
    · exact h.commitSome which
    · exact h
  | crash kept => exact h.crash kept
  | replay i order => exact h.replay ha i

/-- No write is under way and every document is settled. -/
structure AtRest (s : ExternalSystem) : Prop where
  jobs : s.jobs = ∅
  processes : ∀ i, s.processes i = none
  settled : ∀ docId, s.Settled docId

theorem AtRest.tracked (h : s.AtRest) : Tracked s where
  filed k job hk := by
    rw [h.jobs] at hk
    cases hk
  current k job hk := by
    rw [h.jobs] at hk
    cases hk
  settled docId _ := h.settled docId
  gated i p hp := absurd ((h.processes i).symm.trans hp) nofun
  recorded i p hp := absurd ((h.processes i).symm.trans hp) nofun
  carried i p hp := absurd ((h.processes i).symm.trans hp) nofun
  apart i j p q hp := absurd ((h.processes i).symm.trans hp) nofun
  applying i p todo hp := absurd ((h.processes i).symm.trans hp) nofun
  committing i p hp := absurd ((h.processes i).symm.trans hp) nofun
  removing i p hp := absurd ((h.processes i).symm.trans hp) nofun
  closed _ i p hp := absurd ((h.processes i).symm.trans hp) nofun

/-- Indexes, tracked along a run. -/
theorem Tracked.run (h : Tracked s) (hseparate : Separate s.indexes s.collection)
    {acts : List JobAct} (hmeets : Runs.Meets ExternalSystem.step Orderly s acts) {done : List JobAct}
    (hdone : done <+: acts) :
    Tracked (s.run done) ∧ (s.run done).indexes = s.indexes ∧
      (s.run done).collection = s.collection := by
  refine Runs.foldl_invariant
    (fun t => Tracked t ∧ t.indexes = s.indexes ∧ t.collection = s.collection) ?_
    ⟨h, rfl, rfl⟩ hmeets done hdone
  rintro t a ⟨ht, hindexes, hcollection⟩ ha
  have hframed := step_framed t a
  exact ⟨ht.step (hindexes ▸ hcollection ▸ hseparate) ha, hframed.indexes.trans hindexes,
    hframed.collection.trans hcollection⟩

/-! ## Concurrent writers -/

/-- The external indexes have the stored versions as soon as no job is left, and a process that is
about to remove its jobs removes those of applied writes only. -/
theorem externals_converge (hrest : s.AtRest) (hseparate : Separate s.indexes s.collection)
    {acts : List JobAct} (hmeets : Runs.Meets ExternalSystem.step Orderly s acts) {done : List JobAct}
    (hdone : done <+: acts) :
    ((∀ i, (s.run done).processes i = none) → (s.run done).jobs = ∅ →
      ∀ docId, (s.run done).Indexed docId) ∧
    ∀ i p, (s.run done).processes i = some p → p.point = .removing → ∀ job ∈ p.jobs,
      ∀ record : ExternalIndexJob, (s.run done).jobs[job.key]? = some record →
        ∀ index ∈ s.indexes, (s.run done).live (index.externalId s.collection) record.docId =
          record.newDoc.bind (externalEntry index) := by
  obtain ⟨htracked, hindexes, hcollection⟩ := hrest.tracked.run hseparate hmeets hdone
  constructor
  · intro _ hjobs docId
    refine (htracked.settled docId ?_).1
    rw [hjobs]
    rfl
  · intro i p hp hpoint job hjob record hrecord index hindex
    have hkey : job.docId = record.docId := utf8_injective (htracked.filed _ _ hrecord)
    have hindexed := (htracked.removing i p hp hpoint job hjob).1 index (hindexes ▸ hindex)
    rw [hcollection, entryFor] at hindexed
    rw [← hkey, hindexed, htracked.current _ _ hrecord]
    rfl

/-! ## Without jobs -/

/-- `update_fts_hnsw`: a write applied to every index at once. -/
def updateFtsHnsw (collection : String) (indexes : List IndexDefinition) (tables : ExternalTables)
    (job : ExternalIndexJob) : ExternalTables :=
  indexes.foldl (fun tables index => tables.updateDocument collection index job.oldDoc job.newDoc)
    tables

/-- The writes that a run commits. -/
def committedIn (s : ExternalSystem) : List JobAct → List ExternalIndexJob
  | [] => []
  | a :: as => s.committed a ++ (s.step a).committedIn as

theorem run_stored (s : ExternalSystem) (acts : List JobAct) :
    (s.run acts).stored =
      s.stored.applyWrites ((s.committedIn acts).map fun job => (job.key, job.newDoc)) := by
  induction acts generalizing s with
  | nil => rfl
  | cons a acts ih =>
    show ((s.step a).run acts).stored = _
    rw [ih, (step_framed s a).stored, committedIn, List.map_append, Keyspace.applyWrites_append]

theorem updateFtsHnsw_apply {collection : String} (indexes : List IndexDefinition)
    (hseparate : Separate indexes collection) (tables : ExternalTables) (job : ExternalIndexJob)
    {index : IndexDefinition} (hindex : index ∈ indexes) (docId : String) :
    updateFtsHnsw collection indexes tables job (index.externalId collection) docId =
      if docId = job.docId then job.newDoc.bind (externalEntry index)
      else tables (index.externalId collection) docId := by
  -- over the indexes done so far; `index` may be one of them or not
  have hfold : ∀ done : List IndexDefinition, (∀ other ∈ done, other ∈ indexes) →
      updateFtsHnsw collection done tables job (index.externalId collection) docId =
        if docId = job.docId ∧ ∃ other ∈ done, other.externalId collection = index.externalId collection
        then job.newDoc.bind (externalEntry index)
        else tables (index.externalId collection) docId := by
    intro done
    induction done using List.reverseRecOn with
    | nil =>
      intro _
      rw [if_neg (by rintro ⟨-, other, hother, -⟩; cases hother)]
      rfl
    | append_singleton done last ih =>
      intro hmem
      have hlast : last ∈ indexes := hmem last (List.mem_append_right _ (List.mem_singleton_self _))
      have hprev := ih fun other hother => hmem other (List.mem_append_left _ hother)
      unfold updateFtsHnsw at hprev ⊢
      rw [List.foldl_append]
      refine (ExternalTables.updateDocument_apply _ collection last job.oldNamed job.newNamed
        job.present _ docId).trans ?_
      rw [hprev]
      by_cases hplace : index.externalId collection = last.externalId collection ∧ docId = job.docId
      · have hsame : externalEntry last = externalEntry index :=
          funext (hseparate last hlast index hindex hplace.1.symm)
        rw [if_pos hplace, if_pos ⟨hplace.2, last, List.mem_append_right _ (List.mem_singleton_self _),
          hplace.1.symm⟩, hsame]
      · rw [if_neg hplace]
        refine if_congr (and_congr_right fun hdoc => ?_) rfl rfl
        constructor
        · rintro ⟨other, hother, heq⟩
          exact ⟨other, List.mem_append_left _ hother, heq⟩
        · rintro ⟨other, hother, heq⟩
          rcases List.mem_append.mp hother with hother | hother
          · exact ⟨other, hother, heq⟩
          · rw [List.mem_singleton.mp hother] at heq
            exact absurd ⟨heq.symm, hdoc⟩ hplace
  rw [hfold indexes fun _ h => h]
  exact if_congr ⟨And.left, fun hdoc => ⟨hdoc, index, hindex, rfl⟩⟩ rfl rfl

/-- Applied at once, the writes leave the entries of the versions they store. -/
theorem updateFtsHnsw_entries {collection : String} {indexes : List IndexDefinition}
    (hseparate : Separate indexes collection) (writes : List ExternalIndexJob)
    {tables : ExternalTables} {stored : Keyspace Document}
    (h : ∀ index ∈ indexes, ∀ docId, tables (index.externalId collection) docId =
      stored[utf8 docId]?.bind (externalEntry index))
    {index : IndexDefinition} (hindex : index ∈ indexes) (docId : String) :
    writes.foldl (updateFtsHnsw collection indexes) tables (index.externalId collection) docId =
      (stored.applyWrites (writes.map fun job => (job.key, job.newDoc)))[utf8 docId]?.bind
        (externalEntry index) := by
  induction writes generalizing tables stored with
  | nil => exact h index hindex docId
  | cons job writes ih =>
    refine ih ?_
    intro index' hindex' docId'
    rw [updateFtsHnsw_apply indexes hseparate tables job hindex' docId', h index' hindex' docId',
      Keyspace.getElem?_write]
    by_cases hdoc : docId' = job.docId
    · rw [if_pos hdoc, if_pos (show job.key = utf8 docId' from hdoc ▸ rfl)]
    · have hkey : job.key ≠ utf8 docId' := fun hkey => hdoc (utf8_injective hkey).symm
      rw [if_neg hdoc, if_neg hkey]

/-! ## Opening the database -/

/-- `replay_external_index_jobs` from beginning to end. -/
def reopen (s : ExternalSystem) (order : IterOrder) : ExternalSystem :=
  let s := s.step (.replay 0 order)
  match s.processes 0 with
  | some ⟨_, .applying todo⟩ => (List.replicate (todo.length + 3) (JobAct.move 0 .ok)).foldl step s
  | _ => s

theorem step_move {i : Nat} {p : JobProcess} (hp : s.processes i = some p) (outcome : JobOutcome) :
    s.step (.move i outcome) = s.move i p outcome := by
  rw [step, hp]

/-- A process that has applied its jobs is done in three steps. -/
theorem reopen_finishes (h : Tracked s) (hclosed : s.opened = false) {i : Nat}
    {jobs : List ExternalIndexJob} (hp : s.processes i = some ⟨jobs, .applying []⟩)
    (hseparate : Separate s.indexes s.collection) :
    ((List.replicate 3 (JobAct.move i .ok)).foldl step s).opened = true ∧
      ((List.replicate 3 (JobAct.move i .ok)).foldl step s).jobs = ∅ := by
  -- on to `committing`, and from there to `removing`
  obtain ⟨t, ht⟩ : ∃ t, t = s.step (.move i .ok) := ⟨_, rfl⟩
  have htstep : t = s.goto i ⟨jobs, .applying []⟩ .committing := ht.trans (step_move hp .ok)
  have htp : t.processes i = some ⟨jobs, .committing⟩ := by
    rw [htstep]
    exact Function.update_self ..
  obtain ⟨u, hu⟩ : ∃ u, u = t.step (.move i .ok) := ⟨_, rfl⟩
  have hustep : u = t.commitAll.goto i ⟨jobs, .committing⟩ .removing := hu.trans (step_move htp .ok)
  have hup : u.processes i = some ⟨jobs, .removing⟩ := by
    rw [hustep]
    exact Function.update_self ..
  have hrun : (List.replicate 3 (JobAct.move i .ok)).foldl step s = u.move i ⟨jobs, .removing⟩ .ok := by
    rw [← step_move hup .ok, hu, ht]
    rfl
  have htracked : Tracked u := by
    have hs := ht ▸ h.step hseparate (a := .move i .ok) trivial
    have hframed := step_framed s (.move i .ok)
    rw [hu]
    refine hs.step ?_ trivial
    rw [ht, hframed.indexes, hframed.collection]
    exact hseparate
  have huclosed : u.opened = false := by
    rw [hustep, htstep]
    exact hclosed
  rw [hrun]
  refine ⟨rfl, ?_⟩
  apply Std.ExtTreeMap.ext_getElem?
  intro k
  show (u.jobs.applyWrites (jobs.map fun job => (job.key, none)))[k]? = _
  rw [getElem?_removed, Std.ExtTreeMap.getElem?_empty]
  split
  · rfl
  · next hnot =>
    cases hk : u.jobs[k]? with
    | none => rfl
    | some job =>
      obtain ⟨done, hdone, hdoc⟩ := (htracked.closed huclosed i _ hup).2 k job hk
      refine absurd ⟨done, hdone, ?_⟩ hnot
      rw [htracked.filed k job hk]
      exact congrArg utf8 hdoc

/-- From the first job on. -/
theorem reopen_applies (h : Tracked s) (hclosed : s.opened = false) {i : Nat}
    {jobs : List ExternalIndexJob} {todo : List (ExternalIndexJob × IndexDefinition)}
    (hp : s.processes i = some ⟨jobs, .applying todo⟩)
    (hseparate : Separate s.indexes s.collection) :
    ((List.replicate (todo.length + 3) (JobAct.move i .ok)).foldl step s).opened = true ∧
      ((List.replicate (todo.length + 3) (JobAct.move i .ok)).foldl step s).jobs = ∅ := by
  induction todo generalizing s with
  | nil => exact reopen_finishes h hclosed hp hseparate
  | cons e todo ih =>
    have hstep : s.step (.move i .ok) =
        (s.applyJob e.1 e.2).goto i ⟨jobs, .applying (e :: todo)⟩ (.applying todo) :=
      step_move hp .ok
    have hframed := step_framed s (.move i .ok)
    rw [List.length_cons, Nat.add_right_comm, List.replicate_succ, List.foldl_cons]
    refine ih (h.step hseparate trivial) ?_ ?_ ?_
    · rw [hstep]
      exact hclosed
    · rw [hstep]
      exact Function.update_self ..
    · rw [hframed.indexes, hframed.collection]
      exact hseparate

/-- Opening the database after a crash ends, with no job left. -/
theorem reopen_opens (h : Tracked s) (hclosed : s.opened = false) (hgate : s.gate = none)
    {order : IterOrder} (halike : s.RereadsAlike order)
    (hseparate : Separate s.indexes s.collection) :
    (s.reopen order).opened = true ∧ (s.reopen order).jobs = ∅ := by
  have htracked := h.replay halike 0
  have hframed := step_framed s (.replay 0 order)
  have hidle : ¬(s.opened || s.gate.isSome) = true := by
    rw [hclosed, hgate]
    exact nofun
  obtain ⟨jobs, hjobs⟩ : ∃ jobs, jobs = s.jobs.toList.map fun e => e.2.reread order := ⟨_, rfl⟩
  have hreplay : s.step (.replay 0 order) =
      if jobs.isEmpty then { s with opened := true }
      else
        { s with
          gate := some 0
          processes := Function.update s.processes 0 (some ⟨jobs, .applying (s.todo jobs)⟩) } := by
    rw [hjobs]
    exact if_neg hidle
  cases hempty : jobs.isEmpty with
  | true =>
    rw [hempty, if_pos rfl] at hreplay
    have hnone : s.processes 0 = none := by
      cases hq : s.processes 0 with
      | none => rfl
      | some q => cases hgate.symm.trans (h.gated 0 q hq (h.closed hclosed 0 q hq).1)
    have hreopen : s.reopen order = { s with opened := true } := by
      unfold reopen
      dsimp only
      rw [hreplay, hnone]
    rw [hreopen]
    refine ⟨rfl, ?_⟩
    rw [hjobs, List.isEmpty_iff, List.map_eq_nil_iff] at hempty
    apply Std.ExtTreeMap.ext_getElem?
    intro k
    rw [Std.ExtTreeMap.getElem?_empty]
    cases hk : s.jobs[k]? with
    | none => rfl
    | some job =>
      have hmem := Std.ExtTreeMap.mem_toList_iff_getElem?_eq_some.mpr hk
      rw [hempty] at hmem
      cases hmem
  | false =>
    rw [hempty, if_neg Bool.false_ne_true] at hreplay
    have hp : (s.step (.replay 0 order)).processes 0 = some ⟨jobs, .applying (s.todo jobs)⟩ := by
      rw [hreplay]
      exact Function.update_self 0 _ s.processes
    have hreopen : s.reopen order =
        (List.replicate ((s.todo jobs).length + 3) (JobAct.move 0 .ok)).foldl step
          (s.step (.replay 0 order)) := by
      unfold reopen
      dsimp only
      rw [hp]
    rw [hreopen]
    refine reopen_applies htracked ?_ hp ?_
    · rw [hreplay]
      exact hclosed
    · rw [hframed.indexes, hframed.collection]
      exact hseparate

/-- Whatever a process does, it commits no writes. -/
theorem moves_orderly (s : ExternalSystem) (i n : Nat) :
    Runs.Meets step Orderly s (List.replicate n (JobAct.move i .ok)) := by
  induction n generalizing s with
  | zero => trivial
  | succ n ih => exact ⟨trivial, ih _⟩

/-- Opening the database is some steps of the system, and commits nothing. -/
theorem reopen_run (s : ExternalSystem) (order : IterOrder) :
    ∃ n, s.reopen order = s.run (.replay 0 order :: List.replicate n (JobAct.move 0 .ok)) := by
  unfold reopen
  dsimp only
  split
  · next jobs todo hp => exact ⟨todo.length + 3, rfl⟩
  · exact ⟨0, rfl⟩

theorem committedIn_moves (s : ExternalSystem) (i n : Nat) :
    s.committedIn (List.replicate n (JobAct.move i .ok)) = [] := by
  induction n generalizing s with
  | zero => rfl
  | succ n ih => exact ih _

/-- One write at a time. -/
def Sequential (s : ExternalSystem) : JobAct → Prop
  | .write _ _ => ∀ i, s.processes i = none
  | .replay _ order => s.RereadsAlike order
  | _ => True

theorem Sequential.orderly {a : JobAct} (h : s.Sequential a) : s.Orderly a := by
  cases a with
  | write i batch => exact fun j p hp => absurd ((h j).symm.trans hp) nofun
  | replay i order => exact h
  | move i outcome => trivial
  | autoCommit which => trivial
  | crash kept => trivial

/-- After any run of one write at a time and a crash, opening the database leaves the external
indexes with what they have when every committed write is applied to them at once; then no job is
left. -/
theorem reopen_recovers (hrest : s.AtRest) (hseparate : Separate s.indexes s.collection)
    {acts : List JobAct} (hmeets : Runs.Meets step Sequential s acts) (kept : ExternalTables)
    {order : IterOrder} (halike : ((s.run acts).step (.crash kept)).RereadsAlike order) :
    let t := ((s.run acts).step (.crash kept)).reopen order
    t.opened = true ∧ t.jobs = ∅ ∧ ∀ index ∈ s.indexes, ∀ docId,
      t.live (index.externalId s.collection) docId =
        (s.committedIn acts).foldl (updateFtsHnsw s.collection s.indexes) s.live
          (index.externalId s.collection) docId := by
  intro t
  obtain ⟨hrun, hindexes, hcollection⟩ := hrest.tracked.run hseparate
    (hmeets.mono fun _ _ => Sequential.orderly) (List.prefix_refl acts)
  have hcrash := hrun.crash kept
  have hseparate' : Separate (s.run acts).indexes (s.run acts).collection :=
    hindexes.symm ▸ hcollection.symm ▸ hseparate
  obtain ⟨hopened, hjobs⟩ := reopen_opens hcrash rfl rfl halike hseparate'
  refine ⟨hopened, hjobs, ?_⟩
  intro index hindex docId
  -- what is open is settled, at the versions the writes stored
  obtain ⟨n, hn⟩ := reopen_run ((s.run acts).step (.crash kept)) order
  obtain ⟨htracked, htindexes, htcollection⟩ := hcrash.run hseparate'
    (show Runs.Meets step Orderly _ (.replay 0 order :: List.replicate n (JobAct.move 0 .ok)) from
      ⟨halike, moves_orderly _ 0 n⟩) (List.prefix_refl _)
  rw [← hn] at htracked htindexes htcollection
  have hindexed := (htracked.settled docId (by rw [hjobs]; rfl)).1 index
    (htindexes.symm ▸ hindexes.symm ▸ hindex)
  rw [htcollection.trans hcollection, entryFor] at hindexed
  have hstored : t.stored =
      s.stored.applyWrites ((s.committedIn acts).map fun job => (job.key, job.newDoc)) := by
    rw [← run_stored]
    show (((s.run acts).step (.crash kept)).reopen order).stored = (s.run acts).stored
    rw [hn, run_stored]
    show Keyspace.applyWrites _ ((_ ++ committedIn _ _).map _) = _
    rw [committedIn_moves]
    rfl
  rw [hindexed, hstored]
  refine (updateFtsHnsw_entries hseparate (s.committedIn acts) ?_ hindex docId).symm
  exact fun index' hindex' docId' => (hrest.settled docId').1 index' hindex'

end ExternalSystem

/-! ## Two versions of one note -/

namespace Notes

local instance : External := .standIn
local instance : Formats := .standIn

def byBody : IndexDefinition where
  name := generateIndexName "notes" .fullText ["body"]
  fields := ["body"]
  unique := false
  indexType := .fullText
  hnswParams := none
  analyzer := none

/-- `notes` without documents, with a full-text index. -/
def notes : ExternalSystem where
  collection := "notes"
  indexes := [byBody]
  stored := ∅
  jobs := ∅
  live := fun _ _ => none
  durable := fun _ _ => none
  changed := fun _ _ => false
  gate := none
  processes := fun _ => none
  opened := true

def note (id : String) (body : Value) (h : body.wf = true) : Document where
  id := id
  fields := [("body", body)]
  wf := by
    rw [Value.wf, Bool.and_eq_true, decide_eq_true_iff, Value.wfEntries_iff]
    refine ⟨List.nodup_singleton _, ?_⟩
    intro e he
    rw [List.mem_singleton.mp he]
    exact h

def text (id : String) (s : String) : Document := note id (.string s) rfl

/-- The write of a new version of one note. -/
def put (id : String) (old : Option Document) (new : Document) (hold : ∀ d, old = some d → d.id = id)
    (hnew : new.id = id) : JobBatch where
  jobs := [⟨id, old, some new, hold, fun _ h => Option.some.inj h ▸ hnew, Or.inr rfl⟩]
  distinct := List.nodup_singleton _

def first : JobBatch := put "notes:1" none (text "notes:1" "draft") nofun rfl

def second : JobBatch :=
  put "notes:1" (some (text "notes:1" "draft")) (text "notes:1" "final")
    (fun _ h => Option.some.inj h ▸ rfl) rfl

def other : JobBatch := put "notes:2" none (text "notes:2" "other") nofun rfl

/-- A write runs to its end. -/
def finishes (i : Nat) : List JobAct := List.replicate 5 (.move i .ok)

theorem notes_atRest : notes.AtRest where
  jobs := rfl
  processes _ := rfl
  settled docId := by
    refine ⟨fun index _ => ?_, fun _ _ => ⟨rfl, rfl⟩⟩
    show none = Option.bind (∅ : Keyspace Document)[utf8 docId]? _
    rw [Std.ExtTreeMap.getElem?_empty]
    rfl

theorem notes_separate : Separate notes.indexes notes.collection := by
  intro i hi j hj _ d
  rw [List.mem_singleton.mp hi, List.mem_singleton.mp hj]

/-- The second write is applied before the first. -/
def crossed : List JobAct := [.write 0 first, .write 1 second] ++ finishes 1 ++ finishes 0

theorem crossed_leaves_draft : notes.AtRest ∧ Separate notes.indexes notes.collection ∧
    (∀ i, (notes.run crossed).processes i = none) ∧ (notes.run crossed).jobs = ∅ ∧
      ¬ (notes.run crossed).Indexed "notes:1" := by
  refine ⟨notes_atRest, notes_separate, ?_, ?_, ?_⟩
  · intro i
    match i with
    | 0 => rfl
    | 1 => rfl
    | i + 2 => rfl
  · rw [← Std.ExtTreeMap.isEmpty_iff]
    decide +kernel
  · intro h
    have hentry := h byBody List.mem_cons_self
    revert hentry
    decide +kernel

/-- Writes of two notes, at the same time. -/
def beside : List JobAct := [.write 0 first, .write 1 other] ++ finishes 1 ++ finishes 0

theorem beside_orderly : Runs.Meets ExternalSystem.step ExternalSystem.Orderly notes beside := by
  have hclear : (notes.step (.write 0 first)).Clear other := by
    intro i p hp a ha b hb
    match i with
    | 0 =>
      cases hp
      rw [List.mem_singleton.mp ha, List.mem_singleton.mp hb]
      decide
    | i + 1 => cases hp
  refine ⟨nofun, hclear, ?_⟩
  exact Runs.meets_append.mpr
    ⟨ExternalSystem.moves_orderly _ 1 5, ExternalSystem.moves_orderly _ 0 5⟩

theorem beside_indexes_both : (notes.run beside).Indexed "notes:1" ∧
    (notes.run beside).Indexed "notes:2" := by
  have hindexed := (ExternalSystem.externals_converge notes_atRest notes_separate beside_orderly
    (List.prefix_refl _)).1 ?_ ?_
  · exact ⟨hindexed "notes:1", hindexed "notes:2"⟩
  · intro i
    match i with
    | 0 => rfl
    | 1 => rfl
    | i + 2 => rfl
  · rw [← Std.ExtTreeMap.isEmpty_iff]
    decide +kernel

/-! A note whose body is a duration is indexed by the text of its nanoseconds, and by the texts of
a map after its job was read back. -/

def lasting : JobBatch := put "notes:1" none (note "notes:1" (.duration 5) rfl) nofun rfl

theorem lasting_changes : notes.AtRest ∧ Separate notes.indexes notes.collection ∧
    ((notes.run [.write 0 lasting]).step (.crash fun _ _ => none)).opened = false ∧
    (((notes.run [.write 0 lasting]).step (.crash fun _ _ => none)).reopen .asKept).live
        (byBody.externalId "notes") "notes:1" ≠
      (notes.committedIn [.write 0 lasting]).foldl
        (ExternalSystem.updateFtsHnsw notes.collection notes.indexes) notes.live
        (byBody.externalId "notes") "notes:1" :=
  ⟨notes_atRest, notes_separate, rfl, by decide +kernel⟩

/-- A text that is no decimal comes back as it was. -/
theorem draft_rereads :
    ((notes.run [.write 0 first]).step (.crash fun _ _ => none)).RereadsAlike .asKept := by
  intro k job hk index hindex
  have hwrite : ((∅ : Keyspace ExternalIndexJob).applyWrites
      (first.jobs.map fun job => (job.key, some job)))[k]? = some job := hk
  obtain rfl := List.mem_singleton.mp hindex
  by_cases hkey : ∃ b ∈ first.jobs, b.key = k
  · obtain ⟨b, hb, rfl⟩ := hkey
    rw [ExternalSystem.getElem?_written first some ∅ hb] at hwrite
    obtain rfl := Option.some.inj hwrite
    obtain rfl := List.mem_singleton.mp hb
    decide +kernel
  · rw [ExternalSystem.getElem?_unwritten (fun b hb hbk => hkey ⟨b, hb, hbk⟩) some ∅,
      Std.ExtTreeMap.getElem?_empty] at hwrite
    cases hwrite

theorem draft_sequential : Runs.Meets ExternalSystem.step ExternalSystem.Sequential notes
    [.write 0 first] :=
  ⟨fun _ => rfl, trivial⟩

/-- A crash right after the commit of a write. -/
theorem draft_recovers :
    let t := ((notes.run [.write 0 first]).step (.crash fun _ _ => none)).reopen .asKept
    t.opened = true ∧ t.jobs = ∅ ∧ ∀ index ∈ notes.indexes, ∀ docId,
      t.live (index.externalId notes.collection) docId =
        (notes.committedIn [.write 0 first]).foldl
          (ExternalSystem.updateFtsHnsw notes.collection notes.indexes) notes.live
          (index.externalId notes.collection) docId :=
  ExternalSystem.reopen_recovers notes_atRest notes_separate draft_sequential (fun _ _ => none)
    draft_rereads

end Notes

end StellarDb
