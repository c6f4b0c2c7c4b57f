import StellarDb.Lib.Run
import StellarDb.Calls

/-!
# StellarDb — unique locks over serial runs

`LocksExact` says that the lock keyspace of a collection is exactly what its documents need:
one lock for each unique index and stored document with the indexed fields, and no other.

The lock walk can miss this in three ways, and the theorems say exactly when:

* a claim refused at a later index leaves the earlier hand-overs in place, unless these
  rewind themselves (`locks_violated_iff`);
* a rollback gives up the locks it finds claimed, even if the document had them before the
  call, unless a later index takes them back (`locks_rolledBack_iff`);
* a walk that takes and gives up the same lock (`Int 1` to `Float 1.0`) loses it
  (`owned_validated_iff`).
-/

namespace StellarDb

open Keyspaces Ownership Runs

section

variable [External]

/-! ## The invariant -/

/-- The locks are exactly those the stored documents need. -/
def LocksExact (indexes : List IndexDef) (docs : Keyspace Document) (locks : Keyspace Bytes) :
    Prop :=
  ∀ l owner : Bytes, locks[l]? = some owner ↔ Holds indexes docs[owner]? l

/-- No two documents need the same lock for the same unique index. -/
def NoDuplicates (indexes : List IndexDef) (docs : Keyspace Document) : Prop :=
  ∀ i ∈ indexes, i.unique = true → ∀ (k k' : Bytes) (d d' : Document), docs[k]? = some d →
    docs[k']? = some d' → ∀ v v', getFieldValueForIndex d i.fields = some v →
    getFieldValueForIndex d' i.fields = some v' →
    encodeValueForHash v = encodeValueForHash v' → k = k'

theorem LocksExact.noDuplicates {indexes : List IndexDef} {docs : Keyspace Document}
    {locks : Keyspace Bytes} (h : LocksExact indexes docs locks) : NoDuplicates indexes docs := by
  intro i hi hu k k' d d' hd hd' v v' hv hv' henc
  have hl : lockOf i d' = lockOf i d := by
    simp only [lockOf, hv, hv', Option.map_some, computeUniqueLockKey, henc]
  have hlock : lockOf i d = some (computeUniqueLockKey (joinFields i.fields) v) := by
    simp [lockOf, hv]
  have hk := (h (computeUniqueLockKey (joinFields i.fields) v) k).mpr
    ⟨i, hi, hu, by rw [hd]; exact hlock⟩
  have hk' := (h (computeUniqueLockKey (joinFields i.fields) v) k').mpr
    ⟨i, hi, hu, by rw [hd']; exact hl.trans hlock⟩
  rw [hk] at hk'
  exact Option.some.inj hk'

namespace Database

/-- Every collection's locks are exact. -/
def LocksExact (db : Database) : Prop :=
  ∀ c, StellarDb.LocksExact (db.indexes c) (db.docs c) (db.locks c)

theorem Opened.locksExact {db db0 : Database} {c : String} (h : db.Opened c db0)
    (hdb : db.LocksExact) : db0.LocksExact := by
  intro c'
  rw [h.indexes, h.docs, h.locks]
  exact hdb c'

theorem locksExact_of_absent {db : Database} (h : ∀ c, db.keyspaces c = none) :
    db.LocksExact := by
  intro c l owner
  have hdocs : (db.docs c)[owner]? = none := by simp [docs, h]
  have hlocks : (db.locks c)[l]? = none := by simp [locks, h]
  rw [hdocs, hlocks]
  refine iff_of_false (by simp) ?_
  rintro ⟨i, -, -, hi⟩
  cases hi

omit [External] in
/-- Both databases have the same documents, locks, markers and index entries. A collection
without entries counts as none. -/
structure SameData (db db' : Database) : Prop where
  docs : ∀ c, db'.docs c = db.docs c
  locks : ∀ c, db'.locks c = db.locks c
  markers : ∀ c, db'.markers c = db.markers c
  indexKeyspaces : db'.indexKeyspaces = db.indexKeyspaces

end Database

namespace DocCall

/-! ## The walk of a call -/

/-- Who holds which lock of the call's collection. -/
def table (db : Database) (call : DocCall) : Table Bytes Bytes :=
  lockTable (db.locks call.collection)

/-- The hand-overs of the call's constraint check. -/
def handovers (db : Database) (call : DocCall) : List (Handover Bytes) :=
  changes (db.indexes call.collection) (call.oldDoc db) call.newDoc

/-- Some lock the call needs belongs to another document. -/
def Violates (db : Database) (call : DocCall) : Prop :=
  ∃ h ∈ call.handovers db, ∃ l, h.2 = some l ∧ Foreign (call.table db) call.key l

omit [External] in
theorem keyBytes_oldDoc {db : Database} {call : DocCall} {d : Document}
    (h : call.oldDoc db = some d) : d.keyBytes = call.key := by
  have hstored : ∀ {c k}, db.getDocument c k = some d → d.keyBytes = k := by
    intro c k hd
    rw [Database.getDocument_eq] at hd
    exact db.keyed hd
  cases call with
  | create doc => cases h
  | set doc => exact hstored h
  | update doc => exact hstored h
  | delete c k => exact hstored h

omit [External] in
theorem keyBytes_newDoc {call : DocCall} {d : Document} (h : call.newDoc = some d) :
    d.keyBytes = call.key := by
  cases call with
  | delete c k => cases h
  | _ => rw [← Option.some.inj h]; rfl

theorem validated_run (db : Database) (call : DocCall) :
    lockTable (call.validated db).1 =
        (run call.key (call.table db) (opsOf (call.handovers db))).1 ∧
      ((call.validated db).2 = .ok () ↔
        (run call.key (call.table db) (opsOf (call.handovers db))).2 = true) :=
  validateAndUpdate_eq_run (fun _ => keyBytes_oldDoc) (fun _ => keyBytes_newDoc) _ _

theorem rolledBack_run (db : Database) (call : DocCall) :
    lockTable (call.rolledBackLocks db) =
      (run call.key (run call.key (call.table db) (opsOf (call.handovers db))).1
        (undoOf (call.handovers db))).1 := by
  have hnew : ∀ d, call.newDoc = some d → d.keyBytes = call.key := fun _ => keyBytes_newDoc
  have hold : ∀ d, call.oldDoc db = some d → d.keyBytes = call.key := fun _ => keyBytes_oldDoc
  have hrun := (validateAndUpdate_eq_run hnew hold (call.validated db).1
    (db.indexes call.collection)).1
  rw [changes_swap, (validated_run db call).1] at hrun
  exact hrun

theorem validated_ok_iff (db : Database) (call : DocCall) :
    (call.validated db).2 = .ok () ↔ ¬ call.Violates db := by
  rw [(validated_run db call).2, run_ok_iff]
  unfold Violates
  constructor
  · rintro h ⟨c, hc, l, hl, hf⟩
    exact h l (claim_mem_opsOf.mpr ⟨c, hc, hl⟩) hf
  · intro h l hl hf
    obtain ⟨c, hc, hcl⟩ := claim_mem_opsOf.mp hl
    exact h ⟨c, hc, l, hcl, hf⟩

/-- With exact locks, every lock a call gives up is its document's own. -/
theorem owned_of_givenUp {db : Database} (hdb : db.LocksExact) {call : DocCall}
    {h : Handover Bytes} (hh : h ∈ call.handovers db) {l : Bytes} (hl : h.1 = some l) :
    call.table db l = some call.key := by
  have hholds : Holds (db.indexes call.collection) (call.oldDoc db) l :=
    (holds_old_iff _ _ call.newDoc l).mpr (Or.inr ⟨h, hh, hl⟩)
  refine (hdb call.collection l call.key).mpr ?_
  rw [← Database.getDocument_eq]
  cases call with
  | create doc =>
    obtain ⟨i, -, -, hi⟩ := hholds
    cases hi
  | _ => exact hholds

/-! ## Exact effects -/

/-- A refused walk changes nothing iff the hand-overs before the refused one rewind. -/
theorem locks_violated_iff {db : Database} (hdb : db.LocksExact) (call : DocCall) :
    (call.validated db).1 = db.locks call.collection ∨ ¬ call.Violates db ↔
      (call.Violates db →
        Rewinds call.key (call.table db)
          (admitted call.key (call.table db) (call.handovers db))) := by
  have hadm := run_opsOf_eq_admitted call.key (call.table db) (call.handovers db)
  have hold : ∀ h ∈ admitted call.key (call.table db) (call.handovers db), ∀ l,
      h.1 = some l → call.table db l = some call.key :=
    fun h hh l hl => owned_of_givenUp hdb (admitted_subset hh) hl
  have heq : (call.validated db).1 = db.locks call.collection ↔
      Rewinds call.key (call.table db)
        (admitted call.key (call.table db) (call.handovers db)) := by
    rw [← run_opsOf_eq_self_iff hold (by rw [hadm]), hadm, ← (validated_run db call).1]
    exact lockTable_injective.eq_iff.symm
  rw [heq]
  tauto

/-- A rollback restores the locks iff none that was held before is lost on the way. -/
theorem locks_rolledBack_iff {db : Database} (hdb : db.LocksExact) (call : DocCall) :
    call.rolledBackLocks db = db.locks call.collection ↔
      KeepsHeld call.key (call.table db) (call.handovers db) := by
  rw [← (undo_run_eq_iff fun h hh l hl => owned_of_givenUp hdb hh hl).2, ← rolledBack_run]
  exact lockTable_injective.eq_iff.symm

/-- After a walk that went through, the document has exactly the locks it needs iff none of
them was given up last. -/
theorem owned_validated_iff {db : Database} (hdb : db.LocksExact) {call : DocCall}
    (hstored : db.getDocument call.collection call.key = call.oldDoc db)
    (hv : (call.validated db).2 = .ok ()) :
    (∀ l, (call.validated db).1[l]? = some call.key ↔
        Holds (db.indexes call.collection) call.newDoc l) ↔
      Settles (Holds (db.indexes call.collection) call.newDoc) (call.handovers db) := by
  have hown : ∀ l, call.table db l = some call.key ↔
      Keeps (db.indexes call.collection) (call.oldDoc db) call.newDoc l ∨
        ∃ h ∈ call.handovers db, h.1 = some l := by
    intro l
    have hexact := hdb call.collection l call.key
    rw [← Database.getDocument_eq, hstored] at hexact
    exact hexact.trans (holds_old_iff _ _ _ _)
  have hneed := fun l => holds_new_iff (db.indexes call.collection) (call.oldDoc db) call.newDoc l
  rw [← run_opsOf_settles_iff hown hneed ((validated_run db call).2.mp hv)]
  have htable : ∀ l, (call.validated db).1[l]? =
      (run call.key (call.table db) (opsOf (call.handovers db))).1 l :=
    fun l => congrFun (validated_run db call).1 l
  simp only [htable]

/-- The locks of other documents are not touched by the walk. -/
theorem other_validated_iff (db : Database) (call : DocCall) {owner : Bytes}
    (hne : owner ≠ call.key) (l : Bytes) :
    (call.validated db).1[l]? = some owner ↔ (db.locks call.collection)[l]? = some owner := by
  have htable : (call.validated db).1[l]? =
      (run call.key (call.table db) (opsOf (call.handovers db))).1 l :=
    congrFun (validated_run db call).1 l
  rw [htable, run_other_iff hne]
  rfl

/-! ## Opening the collection does not matter -/

section Opened

variable {db db0 : Database} {call : DocCall}

omit [External] in
theorem oldDoc_opened {c : String} (h : db.Opened c db0) : call.oldDoc db0 = call.oldDoc db := by
  cases call <;> simp [oldDoc, h.getDocument]

theorem handovers_opened {c : String} (h : db.Opened c db0) :
    call.handovers db0 = call.handovers db := by
  unfold handovers
  rw [h.indexes, oldDoc_opened h]

omit [External] in
theorem table_opened {c : String} (h : db.Opened c db0) : call.table db0 = call.table db := by
  unfold table
  rw [h.locks]

theorem violates_opened {c : String} (h : db.Opened c db0) :
    call.Violates db0 ↔ call.Violates db := by
  unfold Violates
  rw [handovers_opened h, table_opened h]

omit [External] in
theorem checks_opened {c : String} (h : db.Opened c db0) : call.Checks db0 ↔ call.Checks db := by
  cases call <;> simp [Checks, h.getDocument, h.edges]

end Opened

/-! ## Failure atomicity -/

/-- The walk can be given up without a trace at whatever point the call fails: what comes
before a refused hand-over rewinds, and no lock held before the call is lost in a rollback. -/
def Undoable (db : Database) (call : DocCall) : Prop :=
  (call.Violates db → Rewinds call.key (call.table db)
    (admitted call.key (call.table db) (call.handovers db))) ∧
  (¬ call.Violates db → KeepsHeld call.key (call.table db) (call.handovers db))

theorem undoable_opened {db db0 : Database} {call : DocCall} {c : String} (h : db.Opened c db0) :
    call.Undoable db0 ↔ call.Undoable db := by
  unfold Undoable
  rw [violates_opened h, handovers_opened h, table_opened h]

/-- In a collection that does not exist no lock is held. -/
theorem undoable_of_absent {db : Database} {call : DocCall}
    (h : db.keyspaces call.collection = none) : call.Undoable db := by
  have hfree : ∀ l, call.table db l = none := by
    intro l
    simp [table, lockTable, Database.locks, h]
  refine ⟨?_, ?_⟩
  · rintro ⟨c, -, l, -, o, ho, -⟩
    rw [hfree] at ho
    cases ho
  · intro _ c post _ l _ hl
    rw [hfree] at hl
    cases hl

omit [External] in
/-- Replacing locks by the same locks leaves all data as it was. -/
theorem sameData_setLocks {db db0 : Database} {c : String} (hopen : db.Opened c db0)
    (hks : (db0.keyspaces c).isSome) (ls : Keyspace Bytes) :
    db.SameData (db0.setLocks c ls) ↔ ls = db0.locks c := by
  constructor
  · intro h
    have hlocks := h.locks c
    rw [Database.setLocks_locks _ _ _ hks, if_pos rfl, ← hopen.locks] at hlocks
    exact hlocks
  · rintro rfl
    rw [Database.setLocks_self _ _ hks]
    exact ⟨hopen.docs, hopen.locks, hopen.markers, hopen.indexKeyspaces⟩

/-- A document write that fails, wherever it fails, leaves documents, markers, index entries
and locks as they were, iff its lock walk is undoable. -/
theorem failure_atomic_iff {db : Database} (hdb : db.LocksExact) (call : DocCall) :
    (∀ f, (call.exec f db).2 ≠ .ok true → db.SameData (call.exec f db).1) ↔
      (call.Checks db → call.Undoable db) := by
  constructor
  · intro hatomic hchk
    cases hks : db.keyspaces call.collection with
    | none => exact undoable_of_absent hks
    | some ks =>
      have hsome : (db.keyspaces call.collection).isSome := by simp [hks]
      -- a storage engine that refuses transactions shows both failures
      obtain ⟨hfail, hstate⟩ := exec_noTx (.fjall "") hsome hchk
      have hsame := hatomic _ hfail
      rw [hstate, sameData_setLocks (Or.inl rfl) hsome] at hsame
      by_cases hviol : call.Violates db
      · have hv : ¬ (call.validated db).2 = .ok () := by
          rw [validated_ok_iff]; exact not_not_intro hviol
        rw [if_neg hv] at hsame
        exact ⟨(locks_violated_iff hdb call).mp (Or.inl hsame), fun h => absurd hviol h⟩
      · rw [if_pos ((validated_ok_iff db call).mpr hviol), locks_rolledBack_iff hdb] at hsame
        exact ⟨fun h => absurd h hviol, fun _ => hsame⟩
  · intro hundo f hfail
    obtain ⟨db0, hopen, hout⟩ := exec_outcome f db call
    have hdb0 := hopen.locksExact hdb
    revert hfail
    generalize call.exec f db = res at hout
    intro hfail
    cases hout with
    | untouched r _ _ => exact ⟨hopen.docs, hopen.locks, hopen.markers, hopen.indexKeyspaces⟩
    | violated e hreach hv =>
      have hviol : call.Violates db0 := by
        by_contra h
        rw [(validated_ok_iff db0 call).mpr h] at hv
        cases hv
      have hu := (undoable_opened hopen).mpr (hundo ((checks_opened hopen).mp hreach.2.2))
      refine (sameData_setLocks hopen hreach.1 _).mpr ?_
      exact ((locks_violated_iff hdb0 call).mpr hu.1).resolve_right (not_not_intro hviol)
    | rolledBack r hreach hv _ _ =>
      have hu := (undoable_opened hopen).mpr (hundo ((checks_opened hopen).mp hreach.2.2))
      refine (sameData_setLocks hopen hreach.1 _).mpr ?_
      exact (locks_rolledBack_iff hdb0 call).mpr (hu.2 ((validated_ok_iff db0 call).mp hv))
    | committed removals _ _ _ _ => exact absurd rfl hfail

/-! ## Serial runs -/

/-- The condition under which a call keeps the locks exact: a refused walk rewinds, a walk that
is rolled back loses no lock held before, and a walk that is committed does not end by giving
up a lock the new version needs. -/
def KeepsExact (f : Faults) (db : Database) (call : DocCall) : Prop :=
  call.Reaches f db →
    (call.Violates db → Rewinds call.key (call.table db)
      (admitted call.key (call.table db) (call.handovers db))) ∧
    (¬ call.Violates db → ¬ call.Commits f db →
      KeepsHeld call.key (call.table db) (call.handovers db)) ∧
    (¬ call.Violates db → call.Commits f db →
      Settles (Holds (db.indexes call.collection) call.newDoc) (call.handovers db))

theorem keepsExact_opened {f : Faults} {db db0 : Database} {call : DocCall}
    (hopen : db.Opened call.collection db0) (h : call.KeepsExact f db) :
    call.KeepsExact f db0 := by
  rcases hopen with rfl | ⟨habsent, rfl⟩
  · exact h
  · -- the collection was empty: no lock is held, and no document gives one up
    intro _
    have hopened : db.Opened call.collection (db.openCollection call.collection) :=
      Or.inr ⟨habsent, rfl⟩
    have hundo := (undoable_opened hopened).mpr (undoable_of_absent habsent)
    refine ⟨hundo.1, fun hv _ => hundo.2 hv, ?_⟩
    intro _ _ c post hsuf l hl _
    obtain ⟨i, -, -, -, rfl⟩ := mem_changes_iff.mp (mem_of_suffix hsuf)
    have hnone : call.oldDoc (db.openCollection call.collection) = none := by
      rw [oldDoc_opened hopened]
      cases call with
      | create doc => rfl
      | _ => simpa [oldDoc, Database.getDocument] using by simp [habsent]
    rw [handoverOf, hnone] at hl
    cases hl

/-- One step: a call that meets the condition keeps the locks of every collection exact. -/
theorem exec_locksExact {f : Faults} {db : Database} {call : DocCall} (hdb : db.LocksExact)
    (hsafe : call.KeepsExact f db) : (call.exec f db).1.LocksExact := by
  obtain ⟨db0, hopen, hout⟩ := exec_outcome f db call
  have hdb0 := hopen.locksExact hdb
  have hsafe0 := keepsExact_opened hopen hsafe
  have hsame : ∀ ls, (db0.keyspaces call.collection).isSome → ls = db0.locks call.collection →
      (db0.setLocks call.collection ls).LocksExact := by
    rintro ls hks rfl
    rwa [Database.setLocks_self _ _ hks]
  generalize call.exec f db = res at hout
  cases hout with
  | untouched r _ _ => exact hdb0
  | violated e hreach hv =>
    have hviol : call.Violates db0 := by
      by_contra h
      rw [(validated_ok_iff db0 call).mpr h] at hv
      cases hv
    exact hsame _ hreach.1 (((locks_violated_iff hdb0 call).mpr
      (hsafe0 hreach).1).resolve_right (not_not_intro hviol))
  | rolledBack r hreach hv hfail _ =>
    have hnv := (validated_ok_iff db0 call).mp hv
    exact hsame _ hreach.1 ((locks_rolledBack_iff hdb0 call).mpr ((hsafe0 hreach).2.1 hnv hfail))
  | committed removals hreach hv hcommits hrem =>
    have hnv := (validated_ok_iff db0 call).mp hv
    have hown := (owned_validated_iff hdb0 hcommits.2.2 hv).mpr
      ((hsafe0 hreach).2.2 hnv hcommits)
    intro c l owner
    have hdocs := docs_commitTx db0 call removals
      (show ((db0.setLocks call.collection (call.validated db0).1).keyspaces
        call.collection).isSome by rw [Database.setLocks_isSome]; exact hreach.1) c owner
    rw [Database.commitTx_locks, Database.commitTx_indexes, Database.setLocks_indexes, hdocs,
      Database.setLocks_locks _ _ _ hreach.1, Database.setLocks_docs]
    by_cases hc : c = call.collection
    · subst hc
      rw [if_pos rfl]
      by_cases ho : owner = call.key
      · subst ho
        rw [if_pos ⟨rfl, rfl⟩]
        exact hown l
      · rw [if_neg (fun h => ho h.2.symm), other_validated_iff db0 call ho]
        exact hdb0 _ l owner
    · rw [if_neg hc, if_neg (fun h => hc h.1.symm)]
      exact hdb0 c l owner

/-- A run of calls, each with the answers of the storage engine. -/
def runCalls (db : Database) (steps : List (Faults × DocCall)) : Database :=
  steps.foldl (fun db s => (s.2.exec s.1 db).1) db

/-- Every call of the run meets the condition in the state it starts from. -/
def RunKeepsExact (db : Database) (steps : List (Faults × DocCall)) : Prop :=
  Meets (fun db s => (s.2.exec s.1 db).1) (fun db s => s.2.KeepsExact s.1 db) db steps

/-- In every run whose calls meet the condition the locks stay exact, and so no two stored
documents share a unique value. -/
theorem runCalls_locksExact {db : Database} (hdb : db.LocksExact)
    {steps : List (Faults × DocCall)} (hsafe : RunKeepsExact db steps) :
    ∀ done, done <+: steps → (runCalls db done).LocksExact ∧
      ∀ c, NoDuplicates ((runCalls db done).indexes c) ((runCalls db done).docs c) := by
  have hrun : ∀ done, done <+: steps → (runCalls db done).LocksExact :=
    foldl_invariant Database.LocksExact (fun _ _ hdb hs => exec_locksExact hdb hs) hdb hsafe
  exact fun done hdone => ⟨hrun done hdone, fun c => (hrun done hdone c).noDuplicates⟩

end DocCall

end

/-! ## Runs on a users collection -/

namespace Users

local instance : External := .standIn

/-- A user with an e-mail address. -/
def user (id email : String) : Document where
  id := id
  fields := [("email", .string email)]
  wf := by simp [Value.wf, Value.wfEntries]

def emailIndex : IndexDef := ⟨"btree_email", ["email"], true, .btree⟩

/-- No collection yet; `users` has a unique index on `email`. -/
def fresh : Database where
  keyspaces _ := none
  indexes c := if c = "users" then [emailIndex] else []
  indexKeyspaces _ := ∅
  edges := ⟨[], fun _ => ∅⟩

def create (id email : String) : Faults × DocCall := (.none, .create (user id email))

theorem fresh_locksExact : fresh.LocksExact := Database.locksExact_of_absent fun _ => rfl

/-- One stored user. -/
def oneUser : Database := DocCall.runCalls fresh [create "users:a" "x"]

theorem oneUser_locksExact : oneUser.LocksExact := by
  refine DocCall.exec_locksExact fresh_locksExact ?_
  rintro ⟨hks, -, -⟩
  cases hks

/-- Creating the user again is answered with `Ok(false)`, but the rollback gives up the lock of
the stored user. -/
theorem create_again_not_atomic :
    oneUser.LocksExact ∧ ((DocCall.create (user "users:a" "x")).exec .none oneUser).2 = .ok false ∧
      ¬ oneUser.SameData ((DocCall.create (user "users:a" "x")).exec .none oneUser).1 := by
  refine ⟨oneUser_locksExact, by rfl, ?_⟩
  intro h
  have hlocks := congrArg (fun ls => ls.toList.length) (h.locks "users")
  revert hlocks
  decide

/-- The lock of an e-mail address. -/
def emailLock (email : String) : Bytes := computeUniqueLockKey "email" (.string email)

/-- A call of one hand-over that takes a free lock violates nothing and keeps what is held. -/
theorem undoable_of_free {db : Database} {call : DocCall} {old : Option Bytes} {l : Bytes}
    (hhand : call.handovers db = [(old, some l)]) (hfree : call.table db l = none) :
    ¬ call.Violates db ∧ KeepsHeld call.key (call.table db) (call.handovers db) := by
  rw [DocCall.Violates, hhand]
  constructor
  · rintro ⟨h, hh, l', hl', o, ho, -⟩
    rw [List.mem_singleton.mp hh] at hl'
    rw [← Option.some.inj hl', hfree] at ho
    cases ho
  · intro h post hsuf l' hl' ho
    rw [List.mem_singleton.mp (mem_of_suffix hsuf)] at hl'
    rw [← Option.some.inj hl', hfree] at ho
    cases ho

/-- Changing the address to a free one can fail anywhere without a trace. -/
theorem update_atomic : oneUser.LocksExact ∧
    ∀ f, ((DocCall.update (user "users:a" "y")).exec f oneUser).2 ≠ .ok true →
      oneUser.SameData ((DocCall.update (user "users:a" "y")).exec f oneUser).1 := by
  refine ⟨oneUser_locksExact, (DocCall.failure_atomic_iff oneUser_locksExact _).mpr ?_⟩
  intro _
  have hhand : (DocCall.update (user "users:a" "y")).handovers oneUser =
      [(some (emailLock "x"), some (emailLock "y"))] := by rfl
  obtain ⟨hnv, hkeep⟩ := undoable_of_free hhand (by decide)
  exact ⟨fun h => absurd h hnv, fun _ => hkeep⟩

/-- Creating two users with different addresses keeps the locks exact throughout. -/
theorem two_users_locksExact : fresh.LocksExact ∧ ∀ done,
    done <+: [create "users:a" "x", create "users:b" "y"] →
    (DocCall.runCalls fresh done).LocksExact ∧
      ∀ c, NoDuplicates ((DocCall.runCalls fresh done).indexes c)
        ((DocCall.runCalls fresh done).docs c) := by
  refine ⟨fresh_locksExact, DocCall.runCalls_locksExact fresh_locksExact ⟨?_, ?_, trivial⟩⟩
  · rintro ⟨hks, -, -⟩
    cases hks
  · intro _
    have hhand : (DocCall.create (user "users:b" "y")).handovers oneUser =
        [(none, some (emailLock "y"))] := by rfl
    obtain ⟨hnv, hkeep⟩ := undoable_of_free hhand (by decide)
    refine ⟨fun h => absurd h hnv, fun _ _ => hkeep, ?_⟩
    intro _ _ h post hsuf l hl _
    have hmem : h ∈ (DocCall.create (user "users:b" "y")).handovers oneUser := mem_of_suffix hsuf
    rw [hhand, List.mem_singleton] at hmem
    rw [hmem] at hl
    cases hl

/-- Creating a stored user again releases its lock, and another user can take the address. -/
theorem duplicate_after_create_again : fresh.LocksExact ∧
    ¬ (DocCall.runCalls fresh [create "users:a" "x", create "users:a" "x"]).LocksExact ∧
    ¬ NoDuplicates [emailIndex]
      ((DocCall.runCalls fresh [create "users:a" "x", create "users:a" "x",
        create "users:b" "x"]).docs "users") := by
  refine ⟨fresh_locksExact, ?_, ?_⟩
  · intro h
    have hneed : Holds [emailIndex] (some (user "users:a" "x"))
        (computeUniqueLockKey "email" (.string "x")) :=
      ⟨emailIndex, by simp, rfl, rfl⟩
    have hlock := (h "users" (computeUniqueLockKey "email" (.string "x")) (utf8 "a")).mpr hneed
    revert hlock
    decide
  · intro h
    have hkey := h emailIndex (by simp) rfl (utf8 "a") (utf8 "b") (user "users:a" "x")
      (user "users:b" "x") rfl rfl _ _ rfl rfl rfl
    revert hkey
    decide

end Users

end StellarDb
