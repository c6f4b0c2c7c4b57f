import StellarDb.Lib.Walks
import StellarDb.Constraints.Serial
import StellarDb.Batch.Net

/-!
# StellarDb — failing batches and the unique locks

A batch that fails undoes the lock walks of its documents, inserts first and deletes last, each
group in the order in which it ran. The locks of all collections form one ownership table
(`allLocks`) and the net mutations are walks in it, so the theory of batches of walks applies: a
failed batch leaves no trace iff its walks are undoable, that is, wherever the batch stops no
document has lost a lock it held before, and no lock went from one inserted document to a later
one.
-/

namespace StellarDb

open Keyspaces Ownership

section

variable [External]

/-! ## One table for all collections -/

omit [External] in
/-- Who holds which lock, over all collections. -/
def Database.allLocks (db : Database) : Table (String × Bytes) (String × Bytes) := fun l =>
  (db.locks l.1)[l.2]?.map (Prod.mk l.1)

omit [External] in
theorem Database.allLocks_inj {db db' : Database} :
    db'.allLocks = db.allLocks ↔ ∀ c, db'.locks c = db.locks c := by
  constructor
  · intro h c
    refine Std.ExtTreeMap.ext_getElem? fun l => ?_
    exact Option.map_injective (Prod.mk_right_injective c) (congrFun h (c, l))
  · intro h
    funext l
    simp only [allLocks, h]

/-- The lock walk of a document, as a walk in the table of all collections. -/
def lockWalk (indexes : List IndexDef) (c : String) (key : Bytes) (oldDoc newDoc : Option Document) :
    Walk (String × Bytes) (String × Bytes) where
  owner := (c, key)
  first := newDoc.isSome
  handovers := (changes indexes oldDoc newDoc).map (Handover.map (Prod.mk c))

omit [External] in
/-- A run in the locks of one collection is a run in the table of all. -/
theorem allLocks_setLocks {db : Database} {c : String} (hks : (db.keyspaces c).isSome) (o : Bytes)
    {ls : Keyspace Bytes} {ops : List (Op Bytes)}
    (hls : lockTable ls = (run o (lockTable (db.locks c)) ops).1) :
    (db.setLocks c ls).allLocks = (run (c, o) db.allLocks (ops.map (Op.map (Prod.mk c)))).1 ∧
      (run (c, o) db.allLocks (ops.map (Op.map (Prod.mk c)))).2 =
        (run o (lockTable (db.locks c)) ops).2 := by
  obtain ⟨hok, hmap⟩ := run_map (Prod.mk_right_injective c) (Prod.mk_right_injective c) o
    (show ∀ k, db.allLocks (c, k) = (lockTable (db.locks c) k).map (Prod.mk c) from fun _ => rfl) ops
  refine ⟨?_, hok⟩
  funext l
  obtain ⟨c', l⟩ := l
  show ((db.setLocks c ls).locks c')[l]?.map (Prod.mk c') = _
  rw [Database.setLocks_locks _ _ _ hks]
  by_cases hc : c' = c
  · subst hc
    rw [if_pos rfl, hmap, ← hls]
    rfl
  · rw [if_neg hc, run_of_not_key]
    · rfl
    · intro op hop hkey
      obtain ⟨op', -, rfl⟩ := List.mem_map.mp hop
      cases op' <;> exact hc (congrArg Prod.fst hkey).symm

/-! ## Mutations as walks -/

namespace PendingDocMutation

/-- The lock walk of a mutation. -/
def walk (db : Database) (m : PendingDocMutation) : Walk (String × Bytes) (String × Bytes) :=
  lockWalk (db.indexes m.collection) m.collection (utf8 m.key) m.initialDoc m.currentDoc

omit [External] in
/-- Both versions have the key of the mutation, and the collection is open if there is one. -/
structure Ready (db : Database) (m : PendingDocMutation) : Prop where
  initial : ∀ d, m.initialDoc = some d → d.keyBytes = utf8 m.key
  current : ∀ d, m.currentDoc = some d → d.keyBytes = utf8 m.key
  isSome : (db.keyspaces m.collection).isSome ∨ m.initialDoc = none ∧ m.currentDoc = none

omit [External] in
theorem Ready.of_relocks {db db' : Database} {m : PendingDocMutation} (h : m.Ready db)
    (hre : db.Relocks db') : m.Ready db' := by
  refine ⟨h.initial, h.current, ?_⟩
  rw [hre.isSome]
  exact h.isSome

theorem walk_of_none {db : Database} {m : PendingDocMutation} (hi : m.initialDoc = none)
    (hc : m.currentDoc = none) : (m.walk db).handovers = [] := by
  have hnone : ∀ i, valueChanges none none i = false := fun i => rfl
  simp [walk, lockWalk, changes, hi, hc, hnone]

theorem walkLocks_allLocks {db : Database} {m : PendingDocMutation} (h : m.Ready db) :
    (m.walkLocks db).1.allLocks = ((m.walk db).run db.allLocks).1 ∧
      ((m.walkLocks db).2 = .ok () ↔ ((m.walk db).run db.allLocks).2 = true) := by
  rcases h.isSome with hks | ⟨hi, hc⟩
  · obtain ⟨hlocks, hok⟩ := validateAndUpdate_eq_run h.initial h.current (db.locks m.collection)
      (db.indexes m.collection)
    obtain ⟨hall, hok'⟩ := allLocks_setLocks hks (utf8 m.key) hlocks
    rw [← opsOf_map] at hall hok'
    exact ⟨hall, hok.trans (by rw [← hok']; rfl)⟩
  · rw [(walk_none_none hi hc db).1, Walk.run, walk_of_none hi hc]
    exact ⟨rfl, iff_of_true rfl rfl⟩

theorem undoLocks_allLocks {db : Database} {m : PendingDocMutation} (h : m.Ready db) :
    (m.undoLocks db).allLocks = (m.walk db).undo db.allLocks := by
  rcases h.isSome with hks | ⟨hi, hc⟩
  · have hlocks := (validateAndUpdate_eq_run h.current h.initial (db.locks m.collection)
      (db.indexes m.collection)).1
    rw [changes_swap] at hlocks
    have hall := (allLocks_setLocks hks (utf8 m.key) hlocks).1
    rw [← undoOf, ← undoOf_map] at hall
    exact hall
  · rw [(walk_none_none hi hc db).2, Walk.undo, walk_of_none hi hc]
    rfl

end PendingDocMutation

open PendingDocMutation

theorem Database.Relocks.walk {db db' : Database} (h : db.Relocks db') :
    PendingDocMutation.walk db' = PendingDocMutation.walk db := by
  funext m
  rw [PendingDocMutation.walk, PendingDocMutation.walk, h.indexes]

theorem runLocks_allLocks {db : Database} {ms : List PendingDocMutation}
    (h : ∀ m ∈ ms, m.Ready db) :
    (runLocks db ms).allLocks = runAll db.allLocks (ms.map (·.walk db)) ∧
      (WalksOk db ms ↔ AllOk db.allLocks (ms.map (·.walk db))) := by
  induction ms generalizing db with
  | nil => exact ⟨rfl, Iff.rfl⟩
  | cons m ms ih =>
    rw [List.forall_mem_cons] at h
    have hre := m.walkLocks_relocks db
    obtain ⟨hlocks, hok⟩ := walkLocks_allLocks h.1
    obtain ⟨hrest, hokrest⟩ := ih fun n hn => (h.2 n hn).of_relocks hre
    rw [hre.walk, hlocks] at hrest hokrest
    exact ⟨hrest, and_congr hok hokrest⟩

theorem undoAllLocks_allLocks {db : Database} {ms : List PendingDocMutation}
    (h : ∀ m ∈ ms, m.Ready db) :
    (undoAllLocks db ms).allLocks = undoAll db.allLocks (undoOrder (ms.map (·.walk db))) := by
  have hfold : ∀ (ns : List PendingDocMutation) (db' : Database), db.Relocks db' →
      (∀ n ∈ ns, n.Ready db) → (ns.foldl (fun db m => m.undoLocks db) db').allLocks =
        undoAll db'.allLocks (ns.map (·.walk db)) := by
    intro ns
    induction ns with
    | nil => exact fun db' _ _ => rfl
    | cons n ns ih =>
      intro db' hre hready
      rw [List.forall_mem_cons] at hready
      rw [List.foldl_cons, ih _ (hre.trans (n.undoLocks_relocks db')) hready.2,
        undoLocks_allLocks (hready.1.of_relocks hre), hre.walk]
      rfl
  have horder : undoOrder (ms.map (·.walk db)) =
      (ms.filter (·.currentDoc.isSome) ++ ms.filter (! ·.currentDoc.isSome)).map (·.walk db) := by
    rw [undoOrder, List.filter_map, List.filter_map, ← List.map_append]
    rfl
  rw [horder]
  refine hfold _ db (Database.Relocks.refl db) fun n hn => h n ?_
  rcases List.mem_append.mp hn with hn | hn
  · exact List.mem_of_mem_filter hn
  · exact List.mem_of_mem_filter hn

omit [External] in
theorem ValidMutations.ready {db : Database} {ms : List PendingDocMutation}
    (h : ValidMutations db ms) {m : PendingDocMutation} (hm : m ∈ ms) : m.Ready db where
  initial d hd := by
    rw [h.initial m hm, Database.getDocument_eq] at hd
    exact db.keyed hd
  current d hd := by
    rw [Document.keyBytes, (h.current m hm d hd).2.1]
  isSome := by
    cases hd : m.currentDoc with
    | some d => exact Or.inl (h.current m hm d hd).2.2
    | none =>
      cases hks : db.keyspaces m.collection with
      | some ks => exact Or.inl rfl
      | none =>
        refine Or.inr ⟨?_, rfl⟩
        rw [h.initial m hm, Database.getDocument, hks]
        rfl

/-- With exact locks, the mutations of a batch own what they give up. -/
theorem ValidMutations.fair {db : Database} (hdb : db.LocksExact) {ms : List PendingDocMutation}
    (h : ValidMutations db ms) : Fair db.allLocks (ms.map (·.walk db)) := by
  refine ⟨?_, ?_, ?_⟩
  · refine List.pairwise_map.mpr (h.distinct.imp ?_)
    intro m n hne heq
    obtain ⟨hc, hk⟩ := Prod.mk.inj heq
    exact hne ⟨hc, utf8_inj.mp hk⟩
  · intro w hw k hgive
    obtain ⟨m, hm, rfl⟩ := List.mem_map.mp hw
    obtain ⟨c, hc, hk⟩ := hgive
    obtain ⟨d, hd, rfl⟩ := List.mem_map.mp hc
    obtain ⟨l, hl, rfl⟩ := Option.map_eq_some_iff.mp hk
    have hholds : Holds (db.indexes m.collection) m.initialDoc l :=
      (holds_old_iff _ _ m.currentDoc l).mpr (Or.inr ⟨d, hd, hl⟩)
    rw [h.initial m hm, Database.getDocument_eq] at hholds
    show (db.locks m.collection)[l]?.map (Prod.mk m.collection) = _
    rw [(hdb m.collection l (utf8 m.key)).mpr hholds]
    rfl
  · intro w hw hfirst k htake
    obtain ⟨m, hm, rfl⟩ := List.mem_map.mp hw
    obtain ⟨c, hc, hk⟩ := htake
    obtain ⟨d, hd, rfl⟩ := List.mem_map.mp hc
    obtain ⟨i, -, -, -, rfl⟩ := mem_changes_iff.mp hd
    have hnone : m.currentDoc = none := by
      simpa [PendingDocMutation.walk, lockWalk] using hfirst
    simp [Handover.map, handoverOf, hnone] at hk

/-! ## Failing batches -/

/-- The net lock walks of a batch, in the order of the first touch. -/
def netWalks (db : Database) (ops : List WriteOp) : List (Walk (String × Bytes) (String × Bytes)) :=
  (touched ops).map fun t => lockWalk (db.indexes t.1) t.1 (utf8 t.2)
    (db.getDocument t.1 (utf8 t.2)) (lastDoc db ops t.1 t.2)

theorem Collapses.map_walk {f : BatchFaults} {db db1 : Database} {ops : List WriteOp}
    {st : Collapsed} (h : Collapses f db ops db1 st) :
    st.mutations.map (·.walk db1) = netWalks db ops := by
  have hnet : NetOf db ops st := Database.collapse_net (by rw [h.eq])
  rw [netWalks, ← hnet.targets, List.map_map]
  refine List.map_congr_left fun m hm => ?_
  show lockWalk (db1.indexes m.collection) m.collection (utf8 m.key) m.initialDoc m.currentDoc = _
  rw [h.opens.indexes, h.valid.initial m hm, h.opens.getDocument, hnet.current m hm]
  rfl

omit [External] in
theorem Collapses.admitted {f : BatchFaults} {db db1 : Database} {ops : List WriteOp}
    {st : Collapsed} (h : Collapses f db ops db1 st) : db.Admitted ops := by
  refine (Database.collapse_ok_iff db ops).mp ⟨st, ?_⟩
  have hok : (db.collapse f.op ⟨[], [], []⟩ ops).2 = .ok st := by rw [h.eq]
  rw [Database.collapse_none hok, hok]

/-- The locks while and after a batch walks: everything is said in the table of all locks. -/
structure Collapses.Table (db db1 : Database) (ops : List WriteOp) (st : Collapsed) : Prop where
  start : db1.allLocks = db.allLocks
  fair : Fair db.allLocks (netWalks db ops)
  ok : ∀ next, next <+: st.mutations →
    (WalksOk db1 next ↔ AllOk db.allLocks (next.map (·.walk db1)))
  run : ∀ next, next <+: st.mutations →
    (runLocks db1 next).allLocks = runAll db.allLocks (next.map (·.walk db1))
  undo : ∀ next db', next <+: st.mutations → db1.Relocks db' →
    (undoAllLocks db' next).allLocks = undoAll db'.allLocks (undoOrder (next.map (·.walk db1)))

theorem Collapses.table {f : BatchFaults} {db db1 : Database} (hdb : db.LocksExact)
    {ops : List WriteOp} {st : Collapsed} (h : Collapses f db ops db1 st) :
    Collapses.Table db db1 ops st := by
  have hstart : db1.allLocks = db.allLocks := Database.allLocks_inj.mpr h.opens.locks
  have hdb1 : db1.LocksExact := by
    intro c
    rw [h.opens.indexes, h.opens.docs, h.opens.locks]
    exact hdb c
  have hready : ∀ next, next <+: st.mutations → ∀ m ∈ next, m.Ready db1 :=
    fun next hpre m hm => h.valid.ready (hpre.subset hm)
  refine ⟨hstart, ?_, ?_, ?_, ?_⟩
  · rw [← hstart, ← h.map_walk]
    exact h.valid.fair hdb1
  · intro next hpre
    rw [← hstart]
    exact (runLocks_allLocks (hready next hpre)).2
  · intro next hpre
    rw [← hstart]
    exact (runLocks_allLocks (hready next hpre)).1
  · intro next db' hpre hre
    rw [← hre.walk]
    exact undoAllLocks_allLocks fun m hm => (hready next hpre m hm).of_relocks hre

omit [External] in
/-- Nothing fails except the start of the transaction. -/
def noBatchTx (e : StorageError) : BatchFaults where
  op _ := .none
  mutation _ := .none
  writeTx := some e
  insert _ := .none
  delete _ := .none
  edgeInsert _ := .none
  edgeDelete _ := none
  commit := .committed

/-- The locks after a walk that is cut short and undone. -/
theorem Collapses.undone_allLocks {f : BatchFaults} {db db1 : Database} (hdb : db.LocksExact)
    {ops : List WriteOp} {st : Collapsed} (h : Collapses f db ops db1 st)
    {next : List PendingDocMutation} {m : PendingDocMutation} (hpre : next ++ [m] <+: st.mutations) :
    (undoAllLocks (m.undoLocks (m.walkLocks (runLocks db1 next)).1) next).allLocks =
      undoAll ((m.walk db1).undo
        ((m.walk db1).run (runAll db.allLocks (next.map (·.walk db1)))).1)
        (undoOrder (next.map (·.walk db1))) := by
  have ht := h.table hdb
  have hnext : next <+: st.mutations := (List.prefix_append ..).trans hpre
  have hre := runLocks_relocks db1 next
  have hrew := hre.trans (m.walkLocks_relocks _)
  have hready := (h.valid.ready (hpre.subset (by simp : m ∈ next ++ [m]))).of_relocks hre
  rw [ht.undo next _ hnext (hrew.trans (m.undoLocks_relocks _)),
    undoLocks_allLocks (hready.of_relocks (m.walkLocks_relocks _)),
    (walkLocks_allLocks hready).1, hrew.walk, hre.walk, ht.run next hnext]

/-- The locks after all walks are undone; the edges do not matter. -/
theorem Collapses.rolledBack_allLocks {f : BatchFaults} {db db1 : Database} (hdb : db.LocksExact)
    {ops : List WriteOp} {st : Collapsed} (h : Collapses f db ops db1 st) (s : EdgeStore) :
    (undoAllLocks { runLocks db1 st.mutations with edges := s } st.mutations).allLocks =
      undoAll (runAll db.allLocks (netWalks db ops)) (undoOrder (netWalks db ops)) := by
  have hre := runLocks_relocks db1 st.mutations
  have hready : ∀ m ∈ st.mutations, m.Ready { runLocks db1 st.mutations with edges := s } := by
    intro m hm
    have hready := (h.valid.ready hm).of_relocks hre
    exact ⟨hready.initial, hready.current, hready.isSome⟩
  have hwalk : PendingDocMutation.walk { runLocks db1 st.mutations with edges := s } =
      PendingDocMutation.walk db1 := hre.walk
  have hrun : ({ runLocks db1 st.mutations with edges := s } : Database).allLocks =
      runAll db.allLocks (st.mutations.map (·.walk db1)) :=
    (h.table hdb).run _ List.prefix_rfl
  rw [undoAllLocks_allLocks hready, hwalk, hrun, h.map_walk]

/-- Undoable walks leave no trace, wherever the batch fails. -/
theorem locks_of_undoable {db : Database} (hdb : db.LocksExact) {ops : List WriteOp}
    (hu : db.Admitted ops → Undoable db.allLocks (netWalks db ops)) {f : BatchFaults}
    {e : StorageError} (herr : (db.atomicWriteBatch f ops).2 = .error e) :
    (db.atomicWriteBatch f ops).1.allLocks = db.allLocks := by
  have hout := atomicWriteBatch_outcome f db ops
  revert herr
  generalize db.atomicWriteBatch f ops = res at hout
  intro herr
  cases hout with
  | empty _ => cases herr
  | refused db1 e hopen _ => exact Database.allLocks_inj.mpr hopen.locks
  | failed db1 st next e hc hpre hok _ =>
    have ht := hc.table hdb
    rw [ht.undo next _ hpre (runLocks_relocks db1 next), ht.run next hpre]
    refine (hu hc.admitted).restored ht.fair ?_ ((ht.ok next hpre).mp hok)
    rw [← hc.map_walk]
    exact hpre.map _
  | undone db1 st next m e hc hpre hok _ =>
    have ht := hc.table hdb
    rw [hc.undone_allLocks hdb hpre]
    refine (hu hc.admitted).restored_cut ht.fair ?_
      ((ht.ok next ((List.prefix_append ..).trans hpre)).mp hok)
    rw [← hc.map_walk]
    simpa using hpre.map (·.walk db1)
  | rolledBack db1 st s e hc hok _ =>
    have ht := hc.table hdb
    rw [hc.rolledBack_allLocks hdb]
    refine (hu hc.admitted).restored ht.fair List.prefix_rfl ?_
    rw [← hc.map_walk]
    exact (ht.ok _ List.prefix_rfl).mp hok
  | committed => cases herr

/-- The walks are undoable if the batch leaves no trace when no transaction can be started. -/
theorem undoable_of_locks {db : Database} (hdb : db.LocksExact) {ops : List WriteOp}
    (e : StorageError) (hadm : db.Admitted ops)
    (hback : ∀ e', (db.atomicWriteBatch (noBatchTx e) ops).2 = .error e' →
      (db.atomicWriteBatch (noBatchTx e) ops).1.allLocks = db.allLocks) :
    Undoable db.allLocks (netWalks db ops) := by
  have hout := atomicWriteBatch_outcome (noBatchTx e) db ops
  have hnone : ¬ ∃ n, (noBatchTx e).mutation n ≠ .none := fun ⟨_, hn⟩ => hn rfl
  revert hback
  generalize db.atomicWriteBatch (noBatchTx e) ops = res at hout
  intro hback
  cases hout with
  | empty hops =>
    intro done w hpre _
    rw [hops] at hpre
    exact absurd (List.prefix_nil.mp hpre) (by simp)
  | refused db1 e' hopen hc =>
    obtain ⟨st, hst⟩ := (Database.collapse_ok_iff db ops).mpr hadm
    have hop : (noBatchTx e).op = fun _ => .none := rfl
    rw [hop] at hc
    rw [hc] at hst
    cases hst
  | failed db1 st next e' hc hpre hok hf => exact absurd hf hnone
  | undone db1 st next m e' hc hpre hok hwhy =>
    have ht := hc.table hdb
    have hnext : next <+: st.mutations := (List.prefix_append ..).trans hpre
    have hback := hback e' rfl
    rw [hc.undone_allLocks hdb hpre] at hback
    refine undoable_of_restored ht.fair (Or.inr ⟨next.map (·.walk db1), m.walk db1, ?_,
      (ht.ok next hnext).mp hok, ?_, hback⟩)
    · rw [← hc.map_walk]
      simpa using hpre.map (·.walk db1)
    · have hre := runLocks_relocks db1 next
      have hready := (hc.valid.ready (hpre.subset (by simp : m ∈ next ++ [m]))).of_relocks hre
      have hno := hwhy.resolve_right hnone
      rw [Ne, (walkLocks_allLocks hready).2, hre.walk, ht.run next hnext] at hno
      simpa using hno
  | rolledBack db1 st s e' hc hok _ =>
    have ht := hc.table hdb
    have hback := hback e' rfl
    rw [hc.rolledBack_allLocks hdb] at hback
    refine undoable_of_restored ht.fair (Or.inl ⟨?_, hback⟩)
    rw [← hc.map_walk]
    exact (ht.ok _ List.prefix_rfl).mp hok
  | committed db1 st s tx hc hok hs htx _ _ _ =>
    have herr : ((runLocks db1 st.mutations).batchTx (noBatchTx e) (preparedOf st.mutations) st).2 =
        .error e := rfl
    rw [htx] at herr
    cases herr

/-- A batch that fails, wherever it fails, leaves the unique locks as they were, iff it is turned
down before its lock walks or its lock walks are undoable. -/
theorem batch_failure_atomic_iff {db : Database} (hdb : db.LocksExact) (ops : List WriteOp) :
    (∀ f e, (db.atomicWriteBatch f ops).2 = .error e →
        ∀ c, (db.atomicWriteBatch f ops).1.locks c = db.locks c) ↔
      (db.Admitted ops → Undoable db.allLocks (netWalks db ops)) := by
  constructor
  · intro hatomic hadm
    refine undoable_of_locks hdb (.fjall "") hadm fun e' herr => ?_
    exact Database.allLocks_inj.mpr (hatomic _ e' herr)
  · intro hu f e herr
    exact Database.allLocks_inj.mp (locks_of_undoable hdb hu herr)

end

/-! ## Batches on a users collection -/

namespace Users

local instance : External := .standIn

/-- One more user, with a new address. -/
def addUser : List WriteOp := [.insertDoc (user "users:b" "y")]

/-- The address of one user goes to another. -/
def handOver : List WriteOp := [.insertDoc (user "users:a" "y"), .insertDoc (user "users:b" "x")]

/-- Adding a user can fail anywhere without a trace. -/
theorem addUser_atomic : oneUser.LocksExact ∧
    ∀ f e, (oneUser.atomicWriteBatch f addUser).2 = .error e →
      ∀ c, (oneUser.atomicWriteBatch f addUser).1.locks c = oneUser.locks c := by
  refine ⟨oneUser_locksExact, (batch_failure_atomic_iff oneUser_locksExact addUser).mpr ?_⟩
  intro _ done w hpre _
  have hwalks : netWalks oneUser addUser =
      [⟨("users", utf8 "b"), true, [(none, some ("users", emailLock "y"))]⟩] := by rfl
  rw [hwalks] at hpre
  obtain ⟨rfl, rfl⟩ : done = [] ∧ w = _ := by
    cases done with
    | nil => exact ⟨rfl, (List.cons_prefix_cons.mp hpre).1⟩
    | cons x done => simpa using hpre.length_le
  refine ⟨?_, fun _ x hx => by cases hx⟩
  -- nobody holds the new address
  intro c post hsuf k hk hown
  rw [List.mem_singleton.mp (mem_of_suffix hsuf)] at hk
  rw [← Option.some.inj hk] at hown
  have hfree : oneUser.allLocks ("users", emailLock "y") = none := by decide
  rw [hfree] at hown
  cases hown

/-- A handed over address is lost when the commit meets a conflict: the first user cannot take it
back while the second one still has it. -/
theorem handOver_not_atomic : oneUser.LocksExact ∧
    ∃ f e, (oneUser.atomicWriteBatch f handOver).2 = .error e ∧
      (oneUser.locks "users")[emailLock "x"]? = some (utf8 "a") ∧
      ((oneUser.atomicWriteBatch f handOver).1.locks "users")[emailLock "x"]? = none := by
  refine ⟨oneUser_locksExact, { noBatchTx (.fjall "") with writeTx := none, commit := .conflict },
    .conflict "batch write conflict", by rfl, by decide, by decide +kernel⟩

end Users

end StellarDb
