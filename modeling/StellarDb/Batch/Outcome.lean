import StellarDb.Batch

/-!
# StellarDb — what a batch can do

The inversion of `atomic_write_batch`, phase by phase and for every answer of the storage
engine:

* collapsing adds at most empty collections and yields one valid mutation per document
  (`collapse_spec`);
* preparing runs the lock walks of a prefix of the mutations; an error undoes them
  (`prepareMutations_spec`);
* committing makes the net mutations visible, or undoes all walks (`commitBatch_cases`).

Together they give `atomicWriteBatch_outcome`; later modules use it and do not unfold a batch.
-/

namespace StellarDb

open Keyspaces Ownership

namespace Database

/-- At most empty collections were added. -/
structure Opens (db db' : Database) : Prop where
  docs : ∀ c, db'.docs c = db.docs c
  markers : ∀ c, db'.markers c = db.markers c
  locks : ∀ c, db'.locks c = db.locks c
  indexes : db'.indexes = db.indexes
  indexKeyspaces : db'.indexKeyspaces = db.indexKeyspaces
  edges : db'.edges = db.edges
  isSome : ∀ c, (db.keyspaces c).isSome → (db'.keyspaces c).isSome

namespace Opens

variable {db db' db'' : Database}

theorem refl (db : Database) : db.Opens db :=
  ⟨fun _ => rfl, fun _ => rfl, fun _ => rfl, rfl, rfl, rfl, fun _ h => h⟩

theorem trans (h : db.Opens db') (h' : db'.Opens db'') : db.Opens db'' where
  docs c := (h'.docs c).trans (h.docs c)
  markers c := (h'.markers c).trans (h.markers c)
  locks c := (h'.locks c).trans (h.locks c)
  indexes := h'.indexes.trans h.indexes
  indexKeyspaces := h'.indexKeyspaces.trans h.indexKeyspaces
  edges := h'.edges.trans h.edges
  isSome c hc := h'.isSome c (h.isSome c hc)

theorem getDocument (h : db.Opens db') (c : String) (k : Bytes) :
    db'.getDocument c k = db.getDocument c k := by
  rw [getDocument_eq, getDocument_eq, h.docs]

end Opens

theorem Opened.opens {db db0 : Database} {c : String} (h : db.Opened c db0) : db.Opens db0 where
  docs := h.docs
  markers := h.markers
  locks := h.locks
  indexes := h.indexes
  indexKeyspaces := h.indexKeyspaces
  edges := h.edges
  isSome c' hc' := by
    rcases h with rfl | ⟨-, rfl⟩
    · exact hc'
    · by_cases hc : c' = c
      · subst hc
        simp [openCollection]
      · simpa [openCollection, Function.update_of_ne hc] using hc'

theorem getOrCreateCollection_ok {f : Faults} {db db0 : Database} {c : String}
    (h : db.getOrCreateCollection f c = (db0, .ok ())) : (db0.keyspaces c).isSome := by
  unfold getOrCreateCollection at h
  split at h
  · next hsome =>
    rw [← (Prod.mk.inj h).1]
    exact hsome
  · split at h
    · cases h
    · split at h
      · cases h
      · split at h
        · cases h
        · rw [← (Prod.mk.inj h).1]
          simp

end Database

/-! ## Mutations -/

/-- One mutation per document, each from the stored version. -/
structure ValidMutations (db : Database) (ms : List PendingDocMutation) : Prop where
  distinct : ms.Pairwise fun m n => ¬ (m.collection = n.collection ∧ m.key = n.key)
  initial : ∀ m ∈ ms, m.initialDoc = db.getDocument m.collection (utf8 m.key)
  current : ∀ m ∈ ms, ∀ d, m.currentDoc = some d →
    d.collection = m.collection ∧ d.key = m.key ∧ (db.keyspaces m.collection).isSome
  createOnly : ∀ m ∈ ms, m.createOnly = true → m.initialDoc = none

namespace ValidMutations

variable {db db' : Database} {ms : List PendingDocMutation}

theorem nil (db : Database) : ValidMutations db [] :=
  ⟨List.Pairwise.nil, by simp, by simp, by simp⟩

theorem of_opens (h : ValidMutations db ms) (hopen : db.Opens db') : ValidMutations db' ms where
  distinct := h.distinct
  initial m hm := (h.initial m hm).trans (hopen.getDocument _ _).symm
  current m hm d hd := by
    obtain ⟨hc, hk, hsome⟩ := h.current m hm d hd
    exact ⟨hc, hk, hopen.isSome _ hsome⟩
  createOnly := h.createOnly

theorem of_append {ms' : List PendingDocMutation} (h : ValidMutations db (ms ++ ms')) :
    ValidMutations db ms where
  distinct := (List.pairwise_append.mp h.distinct).1
  initial m hm := h.initial m (List.mem_append_left _ hm)
  current m hm := h.current m (List.mem_append_left _ hm)
  createOnly m hm := h.createOnly m (List.mem_append_left _ hm)

theorem isOf_iff {c key : String} {m : PendingDocMutation} :
    m.isOf c key = true ↔ m.collection = c ∧ m.key = key := by
  simp [PendingDocMutation.isOf]

/-- Touching a document and then changing its mutation. -/
theorem modify {f : Faults} {c key : String} {ms' : List PendingDocMutation}
    {g : PendingDocMutation → PendingDocMutation} (h : ValidMutations db ms)
    (hp : db.pend f ms c key = .ok ms')
    (hsame : ∀ m, (g m).collection = m.collection ∧ (g m).key = m.key ∧
      (g m).initialDoc = m.initialDoc)
    (hcurrent : ∀ m d, (g m).currentDoc = some d →
      d.collection = c ∧ d.key = key ∧ (db.keyspaces c).isSome)
    (hcreate : ∀ m, (m.createOnly = true → m.initialDoc = none) → (g m).createOnly = true →
      m.initialDoc = none) : ValidMutations db (modifyMutation ms' c key g) := by
  -- the entries before the change: the old ones, and perhaps a new one for the document
  have hms' : ms'.Pairwise (fun m n => ¬ (m.collection = n.collection ∧ m.key = n.key)) ∧
      ∀ m ∈ ms', m.initialDoc = db.getDocument m.collection (utf8 m.key) ∧
        (m.createOnly = true → m.initialDoc = none) ∧ (m.isOf c key = false → m ∈ ms) := by
    have hold : ∀ m ∈ ms, m.initialDoc = db.getDocument m.collection (utf8 m.key) ∧
        (m.createOnly = true → m.initialDoc = none) ∧ (m.isOf c key = false → m ∈ ms) :=
      fun m hm => ⟨h.initial m hm, h.createOnly m hm, fun _ => hm⟩
    unfold Database.pend at hp
    split at hp
    · rw [← Except.ok.inj hp]
      exact ⟨h.distinct, hold⟩
    · next hno =>
      split at hp
      · cases hp
      · rw [← Except.ok.inj hp]
        refine ⟨List.pairwise_append.mpr ⟨h.distinct, List.pairwise_singleton .., ?_⟩, ?_⟩
        · intro m hm n hn hof
          rw [List.mem_singleton.mp hn] at hof
          exact hno (List.any_eq_true.mpr ⟨m, hm, isOf_iff.mpr hof⟩)
        · refine List.forall_mem_append.mpr ⟨hold, List.forall_mem_singleton.mpr ⟨rfl, ?_, ?_⟩⟩
          · intro hc
            cases hc
          · intro hof
            simp [PendingDocMutation.isOf] at hof
  have hmem : ∀ n ∈ modifyMutation ms' c key g, ∃ m ∈ ms',
      (m.isOf c key = true ∧ n = g m) ∨ (m.isOf c key = false ∧ n = m) := by
    intro n hn
    obtain ⟨m, hm, rfl⟩ := List.mem_map.mp hn
    cases hof : m.isOf c key with
    | true => exact ⟨m, hm, Or.inl ⟨hof, if_pos rfl⟩⟩
    | false => exact ⟨m, hm, Or.inr ⟨hof, if_neg (by simp)⟩⟩
  refine ⟨?_, ?_, ?_, ?_⟩
  · refine List.pairwise_map.mpr (hms'.1.imp ?_)
    intro m n hne
    have hid : ∀ m : PendingDocMutation, (if m.isOf c key = true then g m else m).collection =
        m.collection ∧ (if m.isOf c key = true then g m else m).key = m.key := by
      intro m
      split
      · exact ⟨(hsame m).1, (hsame m).2.1⟩
      · exact ⟨rfl, rfl⟩
    rwa [(hid m).1, (hid m).2, (hid n).1, (hid n).2]
  · intro n hn
    obtain ⟨m, hm, ⟨-, rfl⟩ | ⟨-, rfl⟩⟩ := hmem n hn
    · rw [(hsame m).1, (hsame m).2.1, (hsame m).2.2]
      exact (hms'.2 m hm).1
    · exact (hms'.2 n hm).1
  · intro n hn d hd
    obtain ⟨m, hm, ⟨hof, rfl⟩ | ⟨hof, rfl⟩⟩ := hmem n hn
    · obtain ⟨rfl, rfl⟩ := isOf_iff.mp hof
      rw [(hsame m).1, (hsame m).2.1]
      exact hcurrent m d hd
    · exact h.current n ((hms'.2 n hm).2.2 hof) d hd
  · intro n hn hc
    obtain ⟨m, hm, ⟨-, rfl⟩ | ⟨-, rfl⟩⟩ := hmem n hn
    · rw [(hsame m).2.2]
      exact hcreate m (hms'.2 m hm).2.1 hc
    · exact (hms'.2 n hm).2.1 hc

end ValidMutations

/-! ## Collapsing -/

namespace Database

theorem collapsePut_spec (f : Faults) (db : Database) (st : Collapsed) (doc : Document)
    (createOnly : Bool) :
    db.Opens (db.collapsePut f st doc createOnly).1 ∧ ∀ st',
      (db.collapsePut f st doc createOnly).2 = .ok st' → ValidMutations db st.mutations →
        ValidMutations (db.collapsePut f st doc createOnly).1 st'.mutations := by
  have hopen := (getOrCreateCollection_opened f db doc.collection).opens
  unfold collapsePut
  rcases hg : db.getOrCreateCollection f doc.collection with ⟨db0, res⟩
  rw [hg] at hopen
  cases res with
  | error e => exact ⟨hopen, fun st' h => by cases h⟩
  | ok u =>
    have hsome := getOrCreateCollection_ok hg
    simp only
    cases hp : db0.pend f st.mutations doc.collection doc.key with
    | error e => exact ⟨hopen, fun st' h => by cases h⟩
    | ok ms =>
      simp only
      split
      · exact ⟨hopen, fun st' h => by cases h⟩
      · refine ⟨hopen, ?_⟩
        intro st' hst' hv
        rw [← Except.ok.inj hst']
        refine (hv.of_opens hopen).modify hp (fun m => ⟨rfl, rfl, rfl⟩) ?_ ?_
        · intro m d hd
          rw [← Option.some.inj hd]
          exact ⟨rfl, rfl, hsome⟩
        · intro m hm hc
          simp only [PendingDocMutation.put, Bool.or_eq_true, Bool.and_eq_true,
            Option.isNone_iff_eq_none] at hc
          exact hc.elim hm fun h => h.2

theorem collapseOp_spec (f : Faults) (db : Database) (st : Collapsed) (op : WriteOp) :
    db.Opens (db.collapseOp f st op).1 ∧ ∀ st', (db.collapseOp f st op).2 = .ok st' →
      ValidMutations db st.mutations →
        ValidMutations (db.collapseOp f st op).1 st'.mutations := by
  cases op with
  | insertDoc doc => exact collapsePut_spec f db st doc false
  | createDoc doc => exact collapsePut_spec f db st doc true
  | deleteDoc c key =>
    cases hp : db.pend f st.mutations c key with
    | error e =>
      simp only [collapseOp, hp]
      exact ⟨Opens.refl db, fun st' h => by cases h⟩
    | ok ms =>
      simp only [collapseOp, hp]
      refine ⟨Opens.refl db, ?_⟩
      intro st' hst' hv
      rw [← Except.ok.inj hst']
      exact hv.modify hp (fun m => ⟨rfl, rfl, rfl⟩) (fun m d hd => by cases hd) (fun m hm => hm)
  | insertEdge edge =>
    refine ⟨Opens.refl db, ?_⟩
    intro st' hst' hv
    rw [← Except.ok.inj hst']
    exact hv
  | deleteEdge src label dst =>
    refine ⟨Opens.refl db, ?_⟩
    intro st' hst' hv
    rw [← Except.ok.inj hst']
    exact hv

/-- Collapsing adds at most empty collections; its mutations are valid. -/
theorem collapse_spec (f : Nat → Faults) (db : Database) (st : Collapsed) (ops : List WriteOp) :
    db.Opens (db.collapse f st ops).1 ∧ ∀ st', (db.collapse f st ops).2 = .ok st' →
      ValidMutations db st.mutations → ValidMutations (db.collapse f st ops).1 st'.mutations := by
  induction ops generalizing f db st with
  | nil =>
    refine ⟨Opens.refl db, ?_⟩
    intro st' hst' hv
    rw [← Except.ok.inj hst']
    exact hv
  | cons op ops ih =>
    have hop := collapseOp_spec (f 0) db st op
    unfold collapse
    rcases hc : db.collapseOp (f 0) st op with ⟨db1, res⟩
    rw [hc] at hop
    cases res with
    | error e => exact ⟨hop.1, fun st' h => by cases h⟩
    | ok st1 =>
      obtain ⟨hopen, hrest⟩ := ih (shift f) db1 st1
      exact ⟨hop.1.trans hopen, fun st' hst' hv => hrest st' hst' (hop.2 st1 rfl hv)⟩

/-! ## Preparing -/

/-- Only locks differ. -/
structure Relocks (db db' : Database) : Prop where
  docs : ∀ c, db'.docs c = db.docs c
  markers : ∀ c, db'.markers c = db.markers c
  indexes : db'.indexes = db.indexes
  indexKeyspaces : db'.indexKeyspaces = db.indexKeyspaces
  edges : db'.edges = db.edges
  isSome : ∀ c, (db'.keyspaces c).isSome = (db.keyspaces c).isSome

namespace Relocks

variable {db db' db'' : Database}

theorem refl (db : Database) : db.Relocks db :=
  ⟨fun _ => rfl, fun _ => rfl, rfl, rfl, rfl, fun _ => rfl⟩

theorem trans (h : db.Relocks db') (h' : db'.Relocks db'') : db.Relocks db'' where
  docs c := (h'.docs c).trans (h.docs c)
  markers c := (h'.markers c).trans (h.markers c)
  indexes := h'.indexes.trans h.indexes
  indexKeyspaces := h'.indexKeyspaces.trans h.indexKeyspaces
  edges := h'.edges.trans h.edges
  isSome c := (h'.isSome c).trans (h.isSome c)

theorem getDocument (h : db.Relocks db') (c : String) (k : Bytes) :
    db'.getDocument c k = db.getDocument c k := by
  rw [getDocument_eq, getDocument_eq, h.docs]

theorem setLocks (db : Database) (c : String) (ls : Keyspace Bytes) :
    db.Relocks (db.setLocks c ls) :=
  ⟨setLocks_docs db c ls, setLocks_markers db c ls, rfl, rfl, rfl, setLocks_isSome db c ls⟩

end Relocks

end Database

theorem ValidMutations.of_relocks {db db' : Database} {ms : List PendingDocMutation}
    (h : ValidMutations db ms) (hre : db.Relocks db') : ValidMutations db' ms where
  distinct := h.distinct
  initial m hm := (h.initial m hm).trans (hre.getDocument _ _).symm
  current m hm d hd := by
    rw [hre.isSome]
    exact h.current m hm d hd
  createOnly := h.createOnly

namespace PendingDocMutation

section Locks

variable [External]

/-- The lock walk of a mutation. -/
def walkLocks (db : Database) (m : PendingDocMutation) : Database × Except StorageError Unit :=
  db.validateAndUpdate m.collection m.initialDoc m.currentDoc

/-- The undo of the walk. -/
def undoLocks (db : Database) (m : PendingDocMutation) : Database :=
  db.rollbackValidateAndUpdate m.collection m.initialDoc m.currentDoc

theorem walkLocks_relocks (db : Database) (m : PendingDocMutation) :
    db.Relocks (m.walkLocks db).1 := Database.Relocks.setLocks ..

theorem undoLocks_relocks (db : Database) (m : PendingDocMutation) :
    db.Relocks (m.undoLocks db) := Database.Relocks.setLocks ..

end Locks

end PendingDocMutation

section Prepare

variable [External]

open PendingDocMutation

/-- All walks, one after the other. -/
def runLocks (db : Database) (ms : List PendingDocMutation) : Database :=
  ms.foldl (fun db m => (m.walkLocks db).1) db

/-- All undos, those of the inserts first. -/
def undoAllLocks (db : Database) (ms : List PendingDocMutation) : Database :=
  (ms.filter (·.currentDoc.isSome) ++ ms.filter (! ·.currentDoc.isSome)).foldl
    (fun db m => m.undoLocks db) db

/-- No walk is refused. -/
def WalksOk : Database → List PendingDocMutation → Prop
  | _, [] => True
  | db, m :: ms => (m.walkLocks db).2 = .ok () ∧ WalksOk (m.walkLocks db).1 ms

omit [External] in
theorem foldl_relocks {α : Type} {l : List α} {g : Database → α → Database}
    (hg : ∀ (db : Database) a, db.Relocks (g db a)) (db : Database) : db.Relocks (l.foldl g db) := by
  induction l generalizing db with
  | nil => exact Database.Relocks.refl db
  | cons a l ih => exact (hg db a).trans (ih _)

theorem runLocks_relocks (db : Database) (ms : List PendingDocMutation) :
    db.Relocks (runLocks db ms) := foldl_relocks walkLocks_relocks db

theorem undoAllLocks_relocks (db : Database) (ms : List PendingDocMutation) :
    db.Relocks (undoAllLocks db ms) := foldl_relocks (fun db m => m.undoLocks_relocks db) db

omit [External] in
/-- What `prepare` records for the mutations. -/
def preparedOf (ms : List PendingDocMutation) : PreparedBatch where
  docInserts := ms.filterMap fun m => m.currentDoc.map fun d => ⟨d, m.initialDoc, m.createOnly⟩
  docDeletes := ms.filterMap fun m =>
    if m.currentDoc.isNone && m.initialDoc.isSome then some ⟨m.collection, m.key, m.initialDoc⟩
    else none

theorem validateAndUpdate_none_none (locks : Keyspace Bytes) (indexes : List IndexDef) :
    validateAndUpdate locks indexes none none = (locks, .ok ()) := by
  unfold validateAndUpdate
  induction indexes.filter (·.unique) with
  | nil => rfl
  | cons i idxs ih => exact ih

omit [External] in
theorem Database.setLocks_locks_self (db : Database) (c : String) :
    db.setLocks c (db.locks c) = db := by
  cases hc : db.keyspaces c with
  | some ks => exact Database.setLocks_self db c (by simp [hc])
  | none =>
    have hup : Function.update db.keyspaces c none = db.keyspaces := by
      rw [← hc, Function.update_eq_self]
    unfold Database.setLocks
    rw [hc]
    exact congrArg (fun kss => { db with keyspaces := kss }) hup

/-- A mutation without any version does nothing to the locks. -/
theorem walk_none_none {m : PendingDocMutation} (hi : m.initialDoc = none)
    (hc : m.currentDoc = none) (db : Database) :
    m.walkLocks db = (db, .ok ()) ∧ m.undoLocks db = db := by
  have hwalk : m.walkLocks db = (db, .ok ()) := by
    simp only [walkLocks, Database.validateAndUpdate, hi, hc, validateAndUpdate_none_none,
      Database.setLocks_locks_self]
  refine ⟨hwalk, ?_⟩
  unfold undoLocks Database.rollbackValidateAndUpdate rollbackValidateAndUpdate
  rw [hi, hc, validateAndUpdate_none_none, Database.setLocks_locks_self]

omit [External] in
/-- The constraint check starts from the stored version. -/
theorem constraintOldDoc_eq {m : PendingDocMutation} {d : Document}
    (hcreate : m.createOnly = true → m.initialDoc = none) :
    (PreparedDocInsert.mk d m.initialDoc m.createOnly).constraintOldDoc = m.initialDoc := by
  unfold PreparedDocInsert.constraintOldDoc
  split
  · next hc => exact (hcreate hc).symm
  · rfl

/-- `rollback_constraints` undoes the walks of the recorded mutations. -/
theorem rollbackConstraints_preparedOf {db0 : Database} {ms : List PendingDocMutation}
    (hv : ValidMutations db0 ms) (db : Database) :
    Database.rollbackConstraints (preparedOf ms) db = undoAllLocks db ms := by
  have hcurrent : ∀ m ∈ ms, ∀ d, m.currentDoc = some d → d.collection = m.collection :=
    fun m hm d hd => (hv.current m hm d hd).1
  have hcreate := hv.createOnly
  clear hv
  have hinserts : ∀ db : Database, (preparedOf ms).docInserts.foldl
      (fun db i => db.rollbackValidateAndUpdate i.doc.collection i.constraintOldDoc (some i.doc))
      db = (ms.filter (·.currentDoc.isSome)).foldl (fun db m => m.undoLocks db) db := by
    unfold preparedOf
    induction ms with
    | nil => intro db; rfl
    | cons m ms ih =>
      rw [List.forall_mem_cons] at hcurrent hcreate
      intro db
      cases hd : m.currentDoc with
      | none =>
        simp only [List.filterMap_cons, hd, Option.map_none, List.filter_cons, Option.isSome_none,
          Bool.false_eq_true, if_false]
        exact ih hcurrent.2 hcreate.2 db
      | some d =>
        simp only [List.filterMap_cons, hd, Option.map_some, List.filter_cons, Option.isSome_some,
          if_true, List.foldl_cons, constraintOldDoc_eq hcreate.1, hcurrent.1 d hd]
        have hundo : m.undoLocks db =
            db.rollbackValidateAndUpdate m.collection m.initialDoc (some d) := by
          rw [undoLocks, hd]
        rw [hundo]
        exact ih hcurrent.2 hcreate.2 _
  unfold Database.rollbackConstraints undoAllLocks
  rw [hinserts, List.foldl_append]
  -- the deletes, from any database
  generalize (ms.filter (·.currentDoc.isSome)).foldl (fun db m => m.undoLocks db) db = db1
  unfold preparedOf
  clear hinserts hcurrent hcreate
  induction ms generalizing db1 with
  | nil => rfl
  | cons m ms ih =>
    cases hd : m.currentDoc with
    | some d =>
      simp only [List.filterMap_cons, hd, Option.isNone_some, Bool.false_and, Bool.false_eq_true,
        if_false, List.filter_cons, Option.isSome_some, Bool.not_true]
      exact ih db1
    | none =>
      simp only [List.filterMap_cons, hd, Option.isNone_none, Bool.true_and, List.filter_cons,
        Option.isSome_none, Bool.not_false, if_true, List.foldl_cons]
      cases hi : m.initialDoc with
      | none =>
        rw [(walk_none_none hi hd db1).2]
        exact ih db1
      | some old =>
        have hundo : m.undoLocks db1 =
            db1.rollbackValidateAndUpdate m.collection (some old) none := by
          rw [undoLocks, hd, hi]
        rw [hundo]
        exact ih _

/-- How `prepare` may end, after the mutations `done`. -/
inductive PrepareOutcome (f : Nat → Faults) (db : Database) (done ms : List PendingDocMutation) :
    Database × Except StorageError PreparedBatch → Prop
  | prepared (hok : WalksOk db ms) :
      PrepareOutcome f db done ms (runLocks db ms, .ok (preparedOf (done ++ ms)))
  | failed (next e) (hpre : next <+: ms) (hok : WalksOk db next) (hf : ∃ n, f n ≠ .none) :
      PrepareOutcome f db done ms (undoAllLocks (runLocks db next) (done ++ next), .error e)
  | undone (next m e) (hpre : next ++ [m] <+: ms) (hok : WalksOk db next)
      (hwhy : (m.walkLocks (runLocks db next)).2 ≠ .ok () ∨ ∃ n, f n ≠ .none) :
      PrepareOutcome f db done ms
        (undoAllLocks (m.undoLocks (m.walkLocks (runLocks db next)).1) (done ++ next), .error e)

omit [External] in
theorem getOrCreateCollection_of_isSome {db : Database} {c : String}
    (h : (db.keyspaces c).isSome) (f : Faults) : db.getOrCreateCollection f c = (db, .ok ()) :=
  if_pos h

omit [External] in
theorem preparedOf_snoc_insert {m : PendingDocMutation} {d : Document} (hd : m.currentDoc = some d)
    (done : List PendingDocMutation) : preparedOf (done ++ [m]) =
      { preparedOf done with docInserts :=
          (preparedOf done).docInserts ++ [⟨d, m.initialDoc, m.createOnly⟩] } := by
  simp [preparedOf, List.filterMap_append, hd]

omit [External] in
theorem preparedOf_snoc_delete {m : PendingDocMutation} {old : Document}
    (hd : m.currentDoc = none) (hi : m.initialDoc = some old) (done : List PendingDocMutation) :
    preparedOf (done ++ [m]) = { preparedOf done with docDeletes :=
      (preparedOf done).docDeletes ++ [⟨m.collection, m.key, some old⟩] } := by
  simp [preparedOf, List.filterMap_append, hd, hi]

omit [External] in
theorem preparedOf_snoc_none {m : PendingDocMutation} (hd : m.currentDoc = none)
    (hi : m.initialDoc = none) (done : List PendingDocMutation) :
    preparedOf (done ++ [m]) = preparedOf done := by
  simp [preparedOf, List.filterMap_append, hd, hi]

theorem prepareDocInsert_eq {f : Faults} {db : Database} {done : List PendingDocMutation}
    {m : PendingDocMutation} (hv : ValidMutations db (done ++ [m])) {d : Document}
    (hd : m.currentDoc = some d) :
    db.prepareDocInsert f (preparedOf done) d m.createOnly =
      match f.read with
      | some e => (undoAllLocks db done, .error e)
      | none =>
        match m.walkLocks db with
        | (db, .error e) => (undoAllLocks (m.undoLocks db) done, .error e)
        | (db, .ok ()) =>
          match f.hnsw with
          | some e => (undoAllLocks (m.undoLocks db) done, .error e)
          | none => (db, .ok (preparedOf (done ++ [m]))) := by
  have hm : m ∈ done ++ [m] := by simp
  obtain ⟨hc, hk, hsome⟩ := hv.current m hm d hd
  have hroll := rollbackConstraints_preparedOf hv.of_append
  have hold : db.getDocument m.collection d.keyBytes = m.initialDoc := by
    rw [hv.initial m hm, Document.keyBytes, hk]
  have hwalk : db.validateAndUpdate m.collection m.initialDoc (some d) = m.walkLocks db := by
    rw [walkLocks, hd]
  have hundo : ∀ db' : Database, db'.rollbackValidateAndUpdate m.collection m.initialDoc (some d) =
      m.undoLocks db' := by
    intro db'
    rw [undoLocks, hd]
  have hisSome : (db.keyspaces m.collection).isNone = false := by
    rw [← Option.not_isSome, hsome]
    rfl
  unfold Database.prepareDocInsert
  rw [hc, getOrCreateCollection_of_isSome hsome]
  simp only [hroll, hold, hisSome, constraintOldDoc_eq (hv.createOnly m hm), hwalk, hundo,
    preparedOf_snoc_insert hd, Bool.false_eq_true, if_false] <;> rfl

/-- Preparing one mutation. -/
theorem prepareMutation_cases {f : Faults} {db : Database} {done : List PendingDocMutation}
    {m : PendingDocMutation} (hv : ValidMutations db (done ++ [m])) :
    (∃ e, f ≠ .none ∧
      db.prepareMutation f (preparedOf done) m = (undoAllLocks db done, .error e)) ∨
    (∃ e, ((m.walkLocks db).2 ≠ .ok () ∨ f ≠ .none) ∧
      db.prepareMutation f (preparedOf done) m =
        (undoAllLocks (m.undoLocks (m.walkLocks db).1) done, .error e)) ∨
    ((m.walkLocks db).2 = .ok () ∧ db.prepareMutation f (preparedOf done) m =
      ((m.walkLocks db).1, .ok (preparedOf (done ++ [m])))) := by
  have hread : ∀ e, f.read = some e → f ≠ .none := by
    rintro e he rfl
    cases he
  have hhnsw : ∀ e, f.hnsw = some e → f ≠ .none := by
    rintro e he rfl
    cases he
  cases hd : m.currentDoc with
  | some d =>
    have hprep : db.prepareMutation f (preparedOf done) m =
        db.prepareDocInsert f (preparedOf done) d m.createOnly := by
      unfold Database.prepareMutation
      rw [hd]
    rw [hprep, prepareDocInsert_eq hv hd]
    cases hr : f.read with
    | some e => exact Or.inl ⟨e, hread e hr, rfl⟩
    | none =>
      simp only
      rcases hw : m.walkLocks db with ⟨db', res⟩
      cases res with
      | error e => exact Or.inr (Or.inl ⟨e, Or.inl (by simp), rfl⟩)
      | ok u =>
        cases hh : f.hnsw with
        | some e => exact Or.inr (Or.inl ⟨e, Or.inr (hhnsw e hh), rfl⟩)
        | none => exact Or.inr (Or.inr ⟨rfl, rfl⟩)
  | none =>
    cases hi : m.initialDoc with
    | none =>
      obtain ⟨hwalk, -⟩ := walk_none_none hi hd db
      refine Or.inr (Or.inr ⟨by rw [hwalk], ?_⟩)
      unfold Database.prepareMutation
      rw [hd, hi, hwalk, preparedOf_snoc_none hd hi]
    | some old =>
      have hstored : db.getDocument m.collection (utf8 m.key) = some old := by
        rw [← hi]
        exact (hv.initial m (by simp)).symm
      have hwalk : m.walkLocks db = (db.setLocks m.collection
          (removeForDocument (db.locks m.collection) (db.indexes m.collection) old), .ok ()) := by
        simp only [walkLocks, Database.validateAndUpdate, hd, hi, removeForDocument_eq]
      have hprep : db.prepareMutation f (preparedOf done) m =
          db.prepareDocDelete f (preparedOf done) m.collection m.key := by
        unfold Database.prepareMutation
        rw [hd, hi]
      rw [hprep, Database.prepareDocDelete]
      cases hr : f.read with
      | some e =>
        rw [rollbackConstraints_preparedOf hv.of_append]
        exact Or.inl ⟨e, hread e hr, rfl⟩
      | none =>
        refine Or.inr (Or.inr ⟨by rw [hwalk], ?_⟩)
        simp only [hstored, hwalk, preparedOf_snoc_delete hd hi]

theorem prepareMutations_spec (f : Nat → Faults) {db : Database}
    {done ms : List PendingDocMutation} (hv : ValidMutations db (done ++ ms)) :
    PrepareOutcome f db done ms (db.prepareMutations f (preparedOf done) ms) := by
  induction ms generalizing f db done with
  | nil =>
    have hprep : PrepareOutcome f db done [] (db, .ok (preparedOf (done ++ []))) :=
      .prepared trivial
    rwa [List.append_nil] at hprep
  | cons m ms ih =>
    have hsplit : done ++ m :: ms = done ++ [m] ++ ms := by simp
    have hshift : (∃ n, shift f n ≠ .none) → ∃ n, f n ≠ .none := fun ⟨n, hn⟩ => ⟨n + 1, hn⟩
    rw [hsplit] at hv
    rcases prepareMutation_cases (f := f 0) hv.of_append with
      ⟨e, hf, hprep⟩ | ⟨e, hwhy, hprep⟩ | ⟨hok, hprep⟩
    · have hout : PrepareOutcome f db done (m :: ms) (_, .error e) :=
        .failed [] e (List.nil_prefix) trivial ⟨0, hf⟩
      rw [List.append_nil] at hout
      simp only [Database.prepareMutations, hprep]
      exact hout
    · have hout : PrepareOutcome f db done (m :: ms) (_, .error e) :=
        .undone [] m e (by simp) trivial (hwhy.imp_right fun h => ⟨0, h⟩)
      rw [List.append_nil] at hout
      simp only [Database.prepareMutations, hprep]
      exact hout
    · have hrest := ih (shift f) (hv.of_relocks (m.walkLocks_relocks db))
      simp only [Database.prepareMutations, hprep]
      generalize (m.walkLocks db).1.prepareMutations (shift f) (preparedOf (done ++ [m])) ms = res
        at hrest
      cases hrest with
      | prepared hok' =>
        rw [← hsplit]
        exact .prepared ⟨hok, hok'⟩
      | failed next e hpre hok' hf =>
        have hout : PrepareOutcome f db done (m :: ms) (_, .error e) :=
          .failed (m :: next) e (List.cons_prefix_cons.mpr ⟨rfl, hpre⟩) ⟨hok, hok'⟩ (hshift hf)
        rw [List.append_cons] at hout
        exact hout
      | undone next n e hpre hok' hwhy =>
        have hout : PrepareOutcome f db done (m :: ms) (_, .error e) :=
          .undone (m :: next) n e (List.cons_prefix_cons.mpr ⟨rfl, hpre⟩) ⟨hok, hok'⟩
            (hwhy.imp_right hshift)
        rw [List.append_cons] at hout
        exact hout

end Prepare

/-! ## Committing -/

section Commit

variable [External]

/-- The writes that replace one version of a document by another. -/
def changeTx (indexes : List IndexDef) (c : String) (k : Bytes) (oldDoc newDoc : Option Document) :
    Tx where
  docs :=
    match newDoc with
    | some doc => .putDoc doc :: (if oldDoc.isNone then [.putExists c k] else [])
    | none => [.removeDoc c k, .removeExists c k]
  index := updateBTreeInTx indexes c oldDoc newDoc
  edges := []

/-- The writes of a mutation; a document that was not there and is not there needs none. -/
def PendingDocMutation.tx (db : Database) (m : PendingDocMutation) : Tx :=
  if m.initialDoc.isNone && m.currentDoc.isNone then .empty
  else changeTx (db.indexes m.collection) m.collection (utf8 m.key) m.initialDoc m.currentDoc

/-- The document writes of a batch: inserts before deletes. -/
def docTx (db : Database) (ms : List PendingDocMutation) : Tx :=
  (ms.filter (·.currentDoc.isSome) ++ ms.filter (! ·.currentDoc.isSome)).foldl
    (fun tx m => tx.append (m.tx db)) .empty

omit [External] in
theorem ensure_bind_ok {β : Type} {fault : Option StorageError} {k : Unit → Except StorageError β}
    {x : β} : (Database.ensure fault >>= k) = .ok x ↔ fault = none ∧ k () = .ok x := by
  cases fault with
  | none => simp [Database.ensure, bind, Except.bind]
  | some e => simp [Database.ensure, bind, Except.bind]

/-- An insert that goes through adds the writes of its mutation. -/
theorem writeDocInsert_ok {f : Faults} {db : Database} {tx tx' : Tx} {m : PendingDocMutation}
    {d : Document} (hd : m.currentDoc = some d) (hc : d.collection = m.collection)
    (hk : d.key = m.key)
    (h : db.writeDocInsert f tx ⟨d, m.initialDoc, m.createOnly⟩ = .ok tx') :
    tx' = tx.append (m.tx db) := by
  have hm : m.tx db = changeTx (db.indexes d.collection) d.collection d.keyBytes m.initialDoc
      (some d) := by
    simp [PendingDocMutation.tx, hd, hc, Document.keyBytes, hk]
  unfold Database.writeDocInsert at h
  simp only [ensure_bind_ok] at h
  rw [hm]
  exact (Except.ok.inj h.2.2.2.2.2).symm

theorem writeDocInserts_ok {f : Nat → Faults} {db db0 : Database} {ms : List PendingDocMutation}
    (hv : ValidMutations db0 ms) {tx tx' : Tx}
    (h : db.writeDocInserts f tx (preparedOf ms).docInserts = .ok tx') :
    tx' = (ms.filter (·.currentDoc.isSome)).foldl (fun tx m => tx.append (m.tx db)) tx := by
  have hcurrent := hv.current
  clear hv
  unfold preparedOf at h
  induction ms generalizing f tx with
  | nil => exact (Except.ok.inj h).symm
  | cons m ms ih =>
    rw [List.forall_mem_cons] at hcurrent
    cases hd : m.currentDoc with
    | none =>
      simp only [List.filterMap_cons, hd, Option.map_none, List.filter_cons, Option.isSome_none,
        Bool.false_eq_true, if_false] at h ⊢
      exact ih h hcurrent.2
    | some d =>
      simp only [List.filterMap_cons, hd, Option.map_some, List.filter_cons, Option.isSome_some,
        if_true, List.foldl_cons, Database.writeDocInserts, bind_eq_ok_iff] at h ⊢
      obtain ⟨tx1, htx1, h⟩ := h
      obtain ⟨hc, hk, -⟩ := hcurrent.1 d hd
      rw [writeDocInsert_ok hd hc hk htx1] at h
      exact ih h hcurrent.2

theorem writeDocDeletes_ok {f : Nat → Faults} {db : Database} {ms : List PendingDocMutation}
    (hopen : ∀ m ∈ ms, m.initialDoc.isSome → (db.keyspaces m.collection).isSome) {tx tx' : Tx}
    (h : db.writeDocDeletes f tx (preparedOf ms).docDeletes = .ok tx') :
    tx' = (ms.filter (! ·.currentDoc.isSome)).foldl (fun tx m => tx.append (m.tx db)) tx := by
  unfold preparedOf at h
  induction ms generalizing f tx with
  | nil => exact (Except.ok.inj h).symm
  | cons m ms ih =>
    rw [List.forall_mem_cons] at hopen
    cases hd : m.currentDoc with
    | some d =>
      simp only [List.filterMap_cons, hd, Option.isNone_some, Bool.false_and, Bool.false_eq_true,
        if_false, List.filter_cons, Option.isSome_some, Bool.not_true] at h ⊢
      exact ih hopen.2 h
    | none =>
      simp only [List.filterMap_cons, hd, Option.isNone_none, Bool.true_and, List.filter_cons,
        Option.isSome_none, Bool.not_false, if_true, List.foldl_cons] at h ⊢
      cases hi : m.initialDoc with
      | none =>
        have hm : m.tx db = .empty := by simp [PendingDocMutation.tx, hd, hi]
        simp only [hi, Option.isSome_none, Bool.false_eq_true, if_false] at h
        have happend : tx.append .empty = tx := by simp [Tx.append, Tx.empty]
        rw [hm, happend]
        exact ih hopen.2 h
      | some old =>
        have hm : m.tx db = changeTx (db.indexes m.collection) m.collection (utf8 m.key)
            (some old) none := by simp [PendingDocMutation.tx, hd, hi]
        have hisNone : (db.keyspaces m.collection).isNone = false := by
          rw [← Option.not_isSome, hopen.1 (by simp [hi])]
          rfl
        simp only [hi, Option.isSome_some, if_true, Database.writeDocDeletes, bind_eq_ok_iff] at h
        obtain ⟨tx1, htx1, h⟩ := h
        simp only [Database.writeDocDelete, hisNone, Bool.false_eq_true, if_false,
          ensure_bind_ok] at htx1
        rw [← Except.ok.inj htx1.2.2] at h
        rw [hm]
        exact ih hopen.2 h

omit [External] in
/-- Defining an edge type leaves all keyspaces alone. -/
theorem createInTx_keyspaces (s : EdgeStore) (edge : Edge) :
    (s.createInTx edge).1.keyspaces = s.keyspaces := by
  unfold EdgeStore.createInTx EdgeStore.schemaOrDefine EdgeStore.defineEdgeType
  split
  · rfl
  · next s' schema hdef =>
    split at hdef
    · obtain ⟨rfl, -⟩ := Prod.mk.inj (Except.ok.inj hdef)
      rfl
    · split at hdef
      · cases hdef
      · next hdef' =>
        obtain ⟨rfl, -⟩ := Prod.mk.inj (Except.ok.inj hdef)
        split at hdef'
        · cases hdef'
        · split at hdef'
          · cases hdef'
          · rw [← Except.ok.inj hdef']

omit [External] in
/-- The edge inserts define edge types and add edge writes. -/
theorem writeEdgeInserts_spec (f : Nat → Faults) (db : Database) (tx : Tx) (edges : List Edge) :
    ∃ s : EdgeStore, s.keyspaces = db.edges.keyspaces ∧
      (db.writeEdgeInserts f tx edges).1 = { db with edges := s } ∧
      ∀ tx', (db.writeEdgeInserts f tx edges).2 = .ok tx' →
        tx'.docs = tx.docs ∧ tx'.index = tx.index := by
  induction edges generalizing f db tx with
  | nil =>
    refine ⟨db.edges, rfl, rfl, ?_⟩
    intro tx' h
    rw [← Except.ok.inj h]
    exact ⟨rfl, rfl⟩
  | cons edge edges ih =>
    unfold Database.writeEdgeInserts
    cases (db.commitTx tx).validateEdgeEndpointsInTx (f 0) edge with
    | error e => exact ⟨db.edges, rfl, rfl, fun tx' h => by cases h⟩
    | ok u =>
      have hks := createInTx_keyspaces db.edges edge
      rcases hcreate : db.edges.createInTx edge with ⟨s, res⟩
      rw [hcreate] at hks
      cases res with
      | error e => exact ⟨s, hks, rfl, fun tx' h => by cases h⟩
      | ok ws =>
        obtain ⟨s', hks', hdb, htx⟩ := ih (shift f) { db with edges := s }
          (tx.append ⟨[], [], ws.map (Prod.mk edge.label)⟩)
        refine ⟨s', hks'.trans hks, hdb, ?_⟩
        intro tx' h
        obtain ⟨hdocs, hindex⟩ := htx tx' h
        exact ⟨hdocs.trans (List.append_nil _), hindex.trans (List.append_nil _)⟩

omit [External] in
theorem writeEdgeDeletes_spec {f : Nat → Option StorageError} {db : Database} {tx tx' : Tx}
    {ds : List (String × String × String)} (h : db.writeEdgeDeletes f tx ds = .ok tx') :
    tx'.docs = tx.docs ∧ tx'.index = tx.index := by
  induction ds generalizing f tx with
  | nil =>
    rw [← Except.ok.inj h]
    exact ⟨rfl, rfl⟩
  | cons d ds ih =>
    obtain ⟨src, label, dst⟩ := d
    simp only [Database.writeEdgeDeletes, bind_eq_ok_iff] at h
    obtain ⟨-, -, ws, -, h⟩ := h
    obtain ⟨hdocs, hindex⟩ := ih h
    exact ⟨hdocs.trans (List.append_nil _), hindex.trans (List.append_nil _)⟩

/-- The document writes of a batch, when they all go through. -/
theorem writeDocs_ok {f : BatchFaults} {db : Database} {ms : List PendingDocMutation}
    (hv : ValidMutations db ms) {tx1 tx2 : Tx}
    (hins : (Database.ensure f.writeTx >>= fun _ =>
      db.writeDocInserts f.insert .empty (preparedOf ms).docInserts) = .ok tx1)
    (hdel : db.writeDocDeletes f.delete tx1 (preparedOf ms).docDeletes = .ok tx2) :
    tx2 = docTx db ms := by
  have hopen : ∀ m ∈ ms, m.initialDoc.isSome → (db.keyspaces m.collection).isSome := by
    intro m hm hsome
    rw [hv.initial m hm, Database.getDocument] at hsome
    cases hks : db.keyspaces m.collection with
    | none => simp [hks] at hsome
    | some ks => rfl
  rw [writeDocDeletes_ok hopen hdel, writeDocInserts_ok hv (ensure_bind_ok.mp hins).2, docTx,
    List.foldl_append]

/-- The transaction of a batch: the document writes, and edge writes. -/
theorem batchTx_spec (f : BatchFaults) {db : Database} {ms : List PendingDocMutation}
    (hv : ValidMutations db ms) (st : Collapsed) :
    ∃ s : EdgeStore, s.keyspaces = db.edges.keyspaces ∧
      (db.batchTx f (preparedOf ms) st).1 = { db with edges := s } ∧
      ∀ tx, (db.batchTx f (preparedOf ms) st).2 = .ok tx →
        tx.docs = (docTx db ms).docs ∧ tx.index = (docTx db ms).index := by
  unfold Database.batchTx
  cases hins : (Database.ensure f.writeTx >>= fun _ =>
      db.writeDocInserts f.insert .empty (preparedOf ms).docInserts) with
  | error e => exact ⟨db.edges, rfl, rfl, fun tx h => by cases h⟩
  | ok tx1 =>
    simp only
    cases hdel : db.writeDocDeletes f.delete tx1 (preparedOf ms).docDeletes with
    | error e => exact ⟨db.edges, rfl, rfl, fun tx h => by cases h⟩
    | ok tx2 =>
      have htx2 : tx2 = docTx db ms := writeDocs_ok hv hins hdel
      obtain ⟨s, hks, hdb, htx⟩ := writeEdgeInserts_spec f.edgeInsert db tx2 st.edgeInserts
      simp only
      rcases he : db.writeEdgeInserts f.edgeInsert tx2 st.edgeInserts with ⟨db', res⟩
      rw [he] at hdb htx
      cases res with
      | error e => exact ⟨s, hks, hdb, fun tx h => by cases h⟩
      | ok tx3 =>
        refine ⟨s, hks, hdb, ?_⟩
        intro tx h
        obtain ⟨hdocs, hindex⟩ := writeEdgeDeletes_spec h
        obtain ⟨hdocs', hindex'⟩ := htx tx3 rfl
        rw [← htx2]
        exact ⟨hdocs.trans hdocs', hindex.trans hindex'⟩

/-- Without edge operations the transaction has document writes only. -/
theorem batchTx_of_no_edges (f : BatchFaults) {db : Database} {ms : List PendingDocMutation}
    (hv : ValidMutations db ms) {st : Collapsed} (hins : st.edgeInserts = [])
    (hdel : st.edgeDeletes = []) : (db.batchTx f (preparedOf ms) st).1 = db ∧
      ∀ tx, (db.batchTx f (preparedOf ms) st).2 = .ok tx → tx = docTx db ms := by
  unfold Database.batchTx
  cases hdocs : (Database.ensure f.writeTx >>= fun _ =>
      db.writeDocInserts f.insert .empty (preparedOf ms).docInserts) with
  | error e => exact ⟨rfl, nofun⟩
  | ok tx1 =>
    simp only
    cases hdeletes : db.writeDocDeletes f.delete tx1 (preparedOf ms).docDeletes with
    | error e => exact ⟨rfl, nofun⟩
    | ok tx2 =>
      rw [hins, hdel]
      refine ⟨rfl, ?_⟩
      intro tx h
      rw [← Except.ok.inj h]
      exact writeDocs_ok hv hdocs hdeletes

/-- Committing, with or without success. -/
theorem commitBatch_cases (f : BatchFaults) {db : Database} {ms : List PendingDocMutation}
    (hv : ValidMutations db ms) (st : Collapsed) :
    ∃ s : EdgeStore, s.keyspaces = db.edges.keyspaces ∧
      ((∃ e, db.commitBatch f (preparedOf ms) st =
          (undoAllLocks { db with edges := s } ms, .error e)) ∨
        ∃ tx : Tx, (db.batchTx f (preparedOf ms) st) = ({ db with edges := s }, .ok tx) ∧
          tx.docs = (docTx db ms).docs ∧ tx.index = (docTx db ms).index ∧
          f.commit = .committed ∧ db.commitBatch f (preparedOf ms) st =
            (({ db with edges := s } : Database).commitTx tx, .ok ())) := by
  obtain ⟨s, hks, hdb, htx⟩ := batchTx_spec f hv st
  have hroll := rollbackConstraints_preparedOf hv
  refine ⟨s, hks, ?_⟩
  unfold Database.commitBatch
  rcases hb : db.batchTx f (preparedOf ms) st with ⟨db', res⟩
  rw [hb] at hdb htx
  obtain rfl : db' = { db with edges := s } := hdb
  cases res with
  | error e =>
    simp only [hroll]
    exact Or.inl ⟨e, rfl⟩
  | ok tx =>
    simp only [hroll]
    cases hc : f.commit with
    | failed e => exact Or.inl ⟨e, rfl⟩
    | conflict => exact Or.inl ⟨_, rfl⟩
    | committed =>
      obtain ⟨hdocs, hindex⟩ := htx tx rfl
      exact Or.inr ⟨tx, rfl, hdocs, hindex, rfl, rfl⟩

theorem docTx_edges (db : Database) (ms : List PendingDocMutation) : (docTx db ms).edges = [] := by
  have hfold : ∀ (ms : List PendingDocMutation) (tx : Tx), tx.edges = [] →
      (ms.foldl (fun tx m => tx.append (m.tx db)) tx).edges = [] := by
    intro ms
    induction ms with
    | nil => exact fun _ h => h
    | cons m ms ih =>
      intro tx htx
      have hm : (m.tx db).edges = [] := by
        unfold PendingDocMutation.tx
        split <;> rfl
      refine ih _ ?_
      show tx.edges ++ (m.tx db).edges = []
      rw [htx, hm]
      rfl
  exact hfold _ _ rfl

/-- Committing without edge operations leaves the edges alone. -/
theorem commitBatch_edges (f : BatchFaults) {db : Database} {ms : List PendingDocMutation}
    (hv : ValidMutations db ms) {st : Collapsed} (hins : st.edgeInserts = [])
    (hdel : st.edgeDeletes = []) : (db.commitBatch f (preparedOf ms) st).1.edges = db.edges := by
  obtain ⟨hdb, htx⟩ := batchTx_of_no_edges f hv hins hdel
  have hundo : (undoAllLocks db ms).edges = db.edges := (undoAllLocks_relocks db ms).edges
  unfold Database.commitBatch
  rcases hb : db.batchTx f (preparedOf ms) st with ⟨db', e | tx⟩
  · rw [hb] at hdb
    obtain rfl : db' = db := hdb
    simp only [rollbackConstraints_preparedOf hv]
    exact hundo
  · rw [hb] at hdb htx
    obtain rfl : db' = db := hdb
    cases f.commit with
    | committed =>
      show EdgeStore.mk db'.edges.schemas (applyNamed db'.edges.keyspaces tx.edges) = db'.edges
      rw [htx tx rfl, docTx_edges]
      rfl
    | failed e =>
      simp only [rollbackConstraints_preparedOf hv]
      exact hundo
    | conflict =>
      simp only [rollbackConstraints_preparedOf hv]
      exact hundo

/-- The collapsed operations, in a database that has the collections they need. -/
structure Collapses (f : BatchFaults) (db : Database) (ops : List WriteOp) (db1 : Database)
    (st : Collapsed) : Prop where
  eq : db.collapse f.op ⟨[], [], []⟩ ops = (db1, .ok st)
  opens : db.Opens db1
  valid : ValidMutations db1 st.mutations

/-- What a batch can do. -/
inductive BatchOutcome (f : BatchFaults) (db : Database) (ops : List WriteOp) :
    Database × Except StorageError Unit → Prop
  | empty (hops : ops = []) : BatchOutcome f db ops (db, .ok ())
  | refused (db1 e) (hopen : db.Opens db1)
      (hc : db.collapse f.op ⟨[], [], []⟩ ops = (db1, .error e)) :
      BatchOutcome f db ops (db1, .error e)
  | failed (db1 st next e) (hc : Collapses f db ops db1 st) (hpre : next <+: st.mutations)
      (hok : WalksOk db1 next) (hf : ∃ n, f.mutation n ≠ .none) :
      BatchOutcome f db ops (undoAllLocks (runLocks db1 next) next, .error e)
  | undone (db1 st next m e) (hc : Collapses f db ops db1 st) (hpre : next ++ [m] <+: st.mutations)
      (hok : WalksOk db1 next)
      (hwhy : (m.walkLocks (runLocks db1 next)).2 ≠ .ok () ∨ ∃ n, f.mutation n ≠ .none) :
      BatchOutcome f db ops
        (undoAllLocks (m.undoLocks (m.walkLocks (runLocks db1 next)).1) next, .error e)
  | rolledBack (db1 st s e) (hc : Collapses f db ops db1 st) (hok : WalksOk db1 st.mutations)
      (hs : s.keyspaces = db1.edges.keyspaces) :
      BatchOutcome f db ops
        (undoAllLocks { runLocks db1 st.mutations with edges := s } st.mutations, .error e)
  | committed (db1 st s tx) (hc : Collapses f db ops db1 st) (hok : WalksOk db1 st.mutations)
      (hs : s.keyspaces = db1.edges.keyspaces)
      (htx : (runLocks db1 st.mutations).batchTx f (preparedOf st.mutations) st =
        ({ runLocks db1 st.mutations with edges := s }, .ok tx))
      (hdocs : tx.docs = (docTx db1 st.mutations).docs)
      (hindex : tx.index = (docTx db1 st.mutations).index) (hcommit : f.commit = .committed) :
      BatchOutcome f db ops
        (({ runLocks db1 st.mutations with edges := s } : Database).commitTx tx, .ok ())

/-- The writes do not depend on the locks. -/
theorem Database.Relocks.docTx {db db' : Database} (h : db.Relocks db')
    (ms : List PendingDocMutation) : docTx db' ms = docTx db ms := by
  have htx : ∀ m : PendingDocMutation, m.tx db' = m.tx db := by
    intro m
    rw [PendingDocMutation.tx, PendingDocMutation.tx, h.indexes]
  simp only [StellarDb.docTx, htx]

theorem atomicWriteBatch_outcome (f : BatchFaults) (db : Database) (ops : List WriteOp) :
    BatchOutcome f db ops (db.atomicWriteBatch f ops) := by
  obtain ⟨hopen, hvalid⟩ := Database.collapse_spec f.op db ⟨[], [], []⟩ ops
  unfold Database.atomicWriteBatch
  split
  · next hops => exact .empty (List.isEmpty_iff.mp hops)
  · rcases hcol : db.collapse f.op ⟨[], [], []⟩ ops with ⟨db1, res⟩
    rw [hcol] at hopen hvalid
    cases res with
    | error e => exact .refused db1 e hopen hcol
    | ok st =>
      have hv : ValidMutations db1 st.mutations := hvalid st rfl (.nil db)
      have hc : Collapses f db ops db1 st := ⟨hcol, hopen, hv⟩
      have hout : PrepareOutcome f.mutation db1 [] st.mutations
          (db1.prepareMutations f.mutation ⟨[], []⟩ st.mutations) :=
        prepareMutations_spec f.mutation hv
      simp only
      generalize db1.prepareMutations f.mutation ⟨[], []⟩ st.mutations = res at hout
      cases hout with
      | failed next e hpre hok hf => exact .failed db1 st next e hc hpre hok hf
      | undone next m e hpre hok hwhy => exact .undone db1 st next m e hc hpre hok hwhy
      | prepared hok =>
        have hre := runLocks_relocks db1 st.mutations
        obtain ⟨s, hs, hcases⟩ := commitBatch_cases f (hv.of_relocks hre) st
        rw [hre.edges] at hs
        rcases hcases with ⟨e, he⟩ | ⟨tx, htx, hdocs, hindex, hcommit, heq⟩
        · simp only [List.nil_append, he]
          exact .rolledBack db1 st s e hc hok hs
        · simp only [List.nil_append, heq]
          rw [hre.docTx] at hdocs hindex
          exact .committed db1 st s tx hc hok hs htx hdocs hindex hcommit

end Commit

end StellarDb
