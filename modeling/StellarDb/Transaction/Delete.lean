import StellarDb.Transaction.Commit
import StellarDb.Edges.Cascade

/-!
# StellarDb — deleting a document in a batch (`storage/database/batch.rs`)

`delete_document` asks the edge policies: a RESTRICT type with an edge at the document refuses,
the edges of the CASCADE types go in the same transaction. A `DeleteDoc` in a batch, and so a
delete in a transaction, does neither. Both do the same exactly when the policies have nothing
to do (`PoliciesIdle`).
-/

namespace StellarDb

open Keyspaces

/-! ## The policies -/

/-- The edge policies neither refuse nor remove anything at a node. -/
structure PoliciesIdle (s : EdgeStore) (node : String) : Prop where
  /-- A RESTRICT type lists no edge. -/
  restrict : ∀ label schema, s.getSchema label = some schema → schema.onDelete = .restrict →
    (∃ cursor, s.listOut node label none 1 = .ok ([], cursor)) ∧
      ∃ cursor, s.listIn node label none 1 = .ok ([], cursor)
  /-- A CASCADE type can be listed, and no key of the edges it lists is stored. -/
  cascade : ∀ label schema, s.getSchema label = some schema → schema.onDelete = .cascade →
    ∃ outs ins cursor cursor', s.listOut node label none EdgeStore.usizeMax = .ok (outs, cursor) ∧
      s.listIn node label none EdgeStore.usizeMax = .ok (ins, cursor') ∧
      ∀ e ∈ outs ++ ins, ∀ w ∈ deleteEdgeKeysInTx schema e.src e.dst e.nanoid,
        (s.keyspaces label)[w.1]? = none

section Policies

variable {s : EdgeStore} {node label : String} {schema : EdgeSchema}

theorem restrictAllows_iff : s.restrictAllows node label = .ok () ↔
    (∃ cursor, s.listOut node label none 1 = .ok ([], cursor)) ∧
      ∃ cursor, s.listIn node label none 1 = .ok ([], cursor) := by
  unfold EdgeStore.restrictAllows
  cases hout : s.listOut node label none 1 with
  | error e => simp [bind, Except.bind]
  | ok r =>
    obtain ⟨outs, cursor⟩ := r
    cases hin : s.listIn node label none 1 with
    | error e =>
      cases outs <;> simp [bind, Except.bind, throw, throwThe, MonadExceptOf.throw]
    | ok r' =>
      obtain ⟨ins, cursor'⟩ := r'
      cases outs <;> cases ins <;>
        simp [bind, Except.bind, throw, throwThe, MonadExceptOf.throw, pure, Except.pure]

theorem mem_listEdgeTypes (h : s.getSchema label = some schema) : label ∈ s.listEdgeTypes := by
  obtain ⟨l₁, l₂, hl, -⟩ := List.lookup_eq_some_iff.mp h
  simp [EdgeStore.listEdgeTypes, hl]

theorem forM_ok_iff {α ε : Type} {f : α → Except ε Unit} {l : List α} :
    l.forM f = .ok () ↔ ∀ a ∈ l, f a = .ok () := by
  induction l with
  | nil => simp [pure, Except.pure]
  | cons a l ih =>
    show (f a >>= fun _ => l.forM f) = .ok () ↔ _
    rw [List.forall_mem_cons]
    cases hf : f a with
    | error e => simp [bind, Except.bind]
    | ok u =>
      rw [← ih]
      simp [bind, Except.bind]

theorem checkDeleteAllowed_iff : s.checkDeleteAllowed node = .ok () ↔
    ∀ label schema, s.getSchema label = some schema → schema.onDelete = .restrict →
      s.restrictAllows node label = .ok () := by
  unfold EdgeStore.checkDeleteAllowed
  rw [forM_ok_iff]
  constructor
  · intro h label schema hschema hpolicy
    have hlabel := h label (mem_listEdgeTypes hschema)
    simpa only [hschema, hpolicy] using hlabel
  · intro h label _
    split
    · rfl
    · next schema hschema =>
      split
      · next hpolicy => exact h label schema hschema hpolicy
      · rfl

theorem cascadeLabel_iff {ws : List (Write EdgeEntry)} :
    s.cascadeLabel node label schema = .ok ws ↔
      ∃ outs ins cursor cursor', s.listOut node label none EdgeStore.usizeMax = .ok (outs, cursor) ∧
        s.listIn node label none EdgeStore.usizeMax = .ok (ins, cursor') ∧
        ws = (outs ++ ins).flatMap fun e => deleteEdgeKeysInTx schema e.src e.dst e.nanoid := by
  unfold EdgeStore.cascadeLabel
  cases hout : s.listOut node label none EdgeStore.usizeMax with
  | error e => simp [bind, Except.bind]
  | ok r =>
    obtain ⟨outs, cursor⟩ := r
    cases hin : s.listIn node label none EdgeStore.usizeMax with
    | error e => simp [bind, Except.bind]
    | ok r' =>
      obtain ⟨ins, cursor'⟩ := r'
      simp [bind, Except.bind, pure, Except.pure, eq_comm]

/-- Idle policies allow the delete and leave the edge keyspaces as they are; and the other way
round. -/
theorem policiesIdle_iff : PoliciesIdle s node ↔
    s.checkDeleteAllowed node = .ok () ∧ ∃ removals, s.deleteEdgesForNodeInTx node = .ok removals ∧
      applyNamed s.keyspaces removals = s.keyspaces := by
  have hlisted : ∀ {label schema} {ws : List (Write EdgeEntry)},
      s.cascadeLabel node label schema = .ok ws → ∀ w ∈ ws, w.2 = none := by
    intro label schema ws hws w hw
    obtain ⟨outs, ins, -, -, -, -, rfl⟩ := cascadeLabel_iff.mp hws
    obtain ⟨e, -, hw⟩ := List.mem_flatMap.mp hw
    simp only [deleteEdgeKeysInTx, List.mem_cons, List.not_mem_nil, or_false] at hw
    rcases hw with rfl | rfl | rfl <;> rfl
  constructor
  · intro h
    refine ⟨checkDeleteAllowed_iff.mpr fun label schema hschema hpolicy =>
      restrictAllows_iff.mpr (h.restrict label schema hschema hpolicy), ?_⟩
    have hok : ∀ label schema, s.getSchema label = some schema → schema.onDelete = .cascade →
        ∃ ws, s.cascadeLabel node label schema = .ok ws := by
      intro label schema hschema hpolicy
      obtain ⟨outs, ins, cursor, cursor', hout, hin, -⟩ := h.cascade label schema hschema hpolicy
      exact ⟨_, cascadeLabel_iff.mpr ⟨outs, ins, cursor, cursor', hout, hin, rfl⟩⟩
    obtain ⟨removals, hremovals, hmem⟩ := deleteEdgesForNodeInTx_ok hok
    refine ⟨removals, hremovals, (applyNamed_eq_self_iff ?_).mpr ?_⟩
    · intro label w hw
      obtain ⟨schema, ws, -, -, hws, hw⟩ := (hmem label w).mp hw
      exact hlisted hws w hw
    · intro label w hw
      obtain ⟨schema, ws, hschema, hpolicy, hws, hw⟩ := (hmem label w).mp hw
      obtain ⟨outs, ins, cursor, cursor', hout, hin, hgone⟩ := h.cascade label schema hschema hpolicy
      have heq := hws.symm.trans (cascadeLabel_iff.mpr ⟨outs, ins, cursor, cursor', hout, hin, rfl⟩)
      rw [Except.ok.inj heq] at hw
      obtain ⟨e, he, hw⟩ := List.mem_flatMap.mp hw
      exact hgone e he w hw
  · rintro ⟨hallowed, removals, hremovals, hsame⟩
    have hok : ∀ label schema, s.getSchema label = some schema → schema.onDelete = .cascade →
        ∃ ws, s.cascadeLabel node label schema = .ok ws := by
      intro label schema hschema hpolicy
      cases hlabels : s.listEdgeTypes.mapM (s.cascadeType node) with
      | error e =>
        rw [EdgeStore.deleteEdgesForNodeInTx, hlabels] at hremovals
        cases hremovals
      | ok wss =>
        obtain ⟨ws, hws⟩ := ok_of_mapM_ok hlabels label (mem_listEdgeTypes hschema)
        simp only [EdgeStore.cascadeType, hschema, hpolicy] at hws
        cases hlabel : s.cascadeLabel node label schema with
        | error e =>
          rw [hlabel] at hws
          cases hws
        | ok ws' => exact ⟨ws', rfl⟩
    obtain ⟨removals', hremovals', hmem⟩ := deleteEdgesForNodeInTx_ok hok
    obtain rfl := Except.ok.inj (hremovals.symm.trans hremovals')
    have hgone := (applyNamed_eq_self_iff fun label w hw => by
      obtain ⟨schema, ws, -, -, hws, hw⟩ := (hmem label w).mp hw
      exact hlisted hws w hw).mp hsame
    refine ⟨?_, ?_⟩
    · intro label schema hschema hpolicy
      exact restrictAllows_iff.mp (checkDeleteAllowed_iff.mp hallowed label schema hschema hpolicy)
    · intro label schema hschema hpolicy
      obtain ⟨ws, hws⟩ := hok label schema hschema hpolicy
      obtain ⟨outs, ins, cursor, cursor', hout, hin, rfl⟩ := cascadeLabel_iff.mp hws
      refine ⟨outs, ins, cursor, cursor', hout, hin, ?_⟩
      intro e he w hw
      exact hgone label w ((hmem label w).mpr ⟨schema, _, hschema, hpolicy, hws,
        List.mem_flatMap.mpr ⟨e, he, hw⟩⟩)

end Policies

/-! ## Both deletes -/

/-- The same documents, index entries, unique locks and edges. -/
structure SameStore (db db' : Database) : Prop where
  documents : ∀ c k, db.getDocument c k = db'.getDocument c k
  indexEntries : db.indexKeyspaces = db'.indexKeyspaces
  locks : ∀ c, db.locks c = db'.locks c
  edges : db.edges.keyspaces = db'.edges.keyspaces

theorem SameStore.refl (db : Database) : SameStore db db :=
  ⟨fun _ _ => rfl, rfl, fun _ => rfl, rfl⟩

section Deletes

variable [External]

namespace Database

variable {db : Database} {c k : String} {oldDoc : Document}

/-- The database without the unique locks of a document. -/
def unlocked (db : Database) (c : String) (oldDoc : Document) : Database :=
  db.setLocks c (removeForDocument (db.locks c) (db.indexes c) oldDoc)

/-- What a delete writes. -/
def deletion (db : Database) (c k : String) (oldDoc : Document)
    (removals : List (String × Write EdgeEntry)) : Tx where
  docs := [.removeDoc c (utf8 k), .removeExists c (utf8 k)]
  index := updateBTreeInTx (db.indexes c) c (some oldDoc) none
  edges := removals

omit [External] in
theorem keyspaces_of_getDocument (h : db.getDocument c (utf8 k) = some oldDoc) :
    ∃ ks, db.keyspaces c = some ks ∧ ks.docs[utf8 k]? = some oldDoc :=
  Option.bind_eq_some_iff.mp h

omit [External] in
/-- The collapsed batch: one mutation, from the stored version to none. -/
theorem collapse_delete (db : Database) (c k : String) :
    db.collapse BatchFaults.none.op ⟨[], [], []⟩ [.deleteDoc c k] =
      (db, .ok ⟨[⟨c, k, db.getDocument c (utf8 k), none, false⟩], [], []⟩) := by
  simp [collapse, collapseOp, pend, modifyMutation, PendingDocMutation.isOf, BatchFaults.none,
    Faults.none]

theorem atomicWriteBatch_delete_absent (h : db.getDocument c (utf8 k) = none) :
    db.atomicWriteBatch .none [.deleteDoc c k] = (db, .ok ()) := by
  unfold atomicWriteBatch
  rw [if_neg (by simp), collapse_delete, h]
  rfl

theorem atomicWriteBatch_delete (h : db.getDocument c (utf8 k) = some oldDoc) :
    db.atomicWriteBatch .none [.deleteDoc c k] =
      ((db.unlocked c oldDoc).commitTx (db.deletion c k oldDoc []), .ok ()) := by
  have hprepared : db.prepareMutations BatchFaults.none.mutation ⟨[], []⟩
      [⟨c, k, some oldDoc, none, false⟩] =
        (db.unlocked c oldDoc, .ok ⟨[], [⟨c, k, some oldDoc⟩]⟩) := by
    simp [prepareMutations, prepareMutation, prepareDocDelete, h, BatchFaults.none, Faults.none,
      unlocked]
  have hopen : ((db.unlocked c oldDoc).keyspaces c).isNone = false := by
    obtain ⟨ks, hks, -⟩ := keyspaces_of_getDocument h
    rw [Option.isNone_eq_false_iff, unlocked, setLocks_isSome, hks]
    rfl
  have hindexes : (db.unlocked c oldDoc).indexes = db.indexes := rfl
  have htx : (db.unlocked c oldDoc).batchTx .none ⟨[], [⟨c, k, some oldDoc⟩]⟩
      ⟨[⟨c, k, some oldDoc, none, false⟩], [], []⟩ =
        (db.unlocked c oldDoc, .ok (db.deletion c k oldDoc [])) := by
    simp only [batchTx, writeDocInserts, writeDocDeletes, writeDocDelete, writeEdgeInserts,
      writeEdgeDeletes, hopen, hindexes, BatchFaults.none, Faults.none, ensure, bind, Except.bind,
      pure, Except.pure, deletion, Tx.append, Tx.empty, List.nil_append, List.append_nil,
      Option.isSome_some, if_true, Bool.false_eq_true, if_false]
  unfold atomicWriteBatch
  rw [if_neg (by simp), collapse_delete, h]
  dsimp only
  rw [hprepared]
  dsimp only
  unfold commitBatch
  rw [htx]
  rfl

theorem deleteDocument_absent (h : db.getDocument c (utf8 k) = none) :
    db.deleteDocument .none c k = (db, .ok false) := by
  unfold deleteDocument
  cases hks : db.keyspaces c with
  | none => rfl
  | some ks =>
    have hdoc : ks.docs[utf8 k]? = none := by rwa [getDocument, hks] at h
    simp only [Faults.none, hdoc]

theorem deleteDocument_stored (h : db.getDocument c (utf8 k) = some oldDoc) :
    db.deleteDocument .none c k =
      match db.edges.checkDeleteAllowed (c ++ ":" ++ k) with
      | .error e => (db, .error e)
      | .ok () => (db.unlocked c oldDoc).finish c (some oldDoc) none
          ((db.unlocked c oldDoc).deleteBody .none c k oldDoc) .committed true (.ok false) := by
  obtain ⟨ks, hks, hdoc⟩ := keyspaces_of_getDocument h
  unfold deleteDocument
  simp only [hks, Faults.none, hdoc]
  rfl

theorem deleteDocument_stuck {e : StorageError} (h : db.getDocument c (utf8 k) = some oldDoc)
    (hallowed : db.edges.checkDeleteAllowed (c ++ ":" ++ k) = .ok ())
    (hstuck : db.edges.deleteEdgesForNodeInTx (c ++ ":" ++ k) = .error e) :
    (db.deleteDocument .none c k).2 = .error e := by
  have hedges : (db.unlocked c oldDoc).edges = db.edges := rfl
  have hbody : (db.unlocked c oldDoc).deleteBody .none c k oldDoc = .error (.error e) := by
    simp [deleteBody, Faults.none, attempt, bind, Except.bind, hedges, hstuck, throw, throwThe,
      MonadExceptOf.throw]
  rw [deleteDocument_stored h, hallowed, hbody]
  rfl

theorem deleteDocument_done {removals : List (String × Write EdgeEntry)}
    (h : db.getDocument c (utf8 k) = some oldDoc)
    (hallowed : db.edges.checkDeleteAllowed (c ++ ":" ++ k) = .ok ())
    (hremovals : db.edges.deleteEdgesForNodeInTx (c ++ ":" ++ k) = .ok removals) :
    db.deleteDocument .none c k =
      ((db.unlocked c oldDoc).commitTx (db.deletion c k oldDoc removals), .ok true) := by
  have hbody : (db.unlocked c oldDoc).deleteBody .none c k oldDoc =
      .ok (db.deletion c k oldDoc removals) := by
    simp [deleteBody, Faults.none, attempt, bind, Except.bind, pure, Except.pure, hremovals,
      deletion, unlocked]
  rw [deleteDocument_stored h, hallowed, hbody]
  rfl

end Database

/-! ## A transaction that deletes one document -/

omit [External] in
theorem splitn_encodeDocKey {c : String} (hc : ':' ∉ c.toList) (k : String) :
    splitn 3 ':' (fromUtf8Lossy (encodeDocKey c k)) = ["doc", c, k] := by
  have hkey : "doc:" ++ c ++ ":" ++ k = "doc" ++ ":" ++ (c ++ ":" ++ k) := by
    apply String.toList_inj.mp
    simp [String.toList_append]
  rw [encodeDocKey, fromUtf8Lossy_utf8, hkey, splitn, splitOnce_append (by decide)]
  simp only [splitn, splitOnce_append hc]

namespace Transaction

/-- Delete a document in a new transaction and commit it. -/
def deleteAndCommit (order : IterOrder) (db : Database) (c k : String) :
    Database × Except TransactionError Unit :=
  match new.delete c k with
  | .error e => (db, .error e)
  | .ok tx =>
    let r := tx.commit .none order db
    (r.1.1, r.2)

/-- It is a batch of one delete. -/
theorem deleteAndCommit_eq (order : IterOrder) (db : Database) {c : String}
    (hc : ':' ∉ c.toList) (k : String) :
    deleteAndCommit order db c k =
      ((db.atomicWriteBatch .none [.deleteDoc c k]).1,
        (db.atomicWriteBatch .none [.deleteDoc c k]).2.mapError .storage) := by
  let tx := new.pend (encodeDocKey c k) .delete ⟨c, k, rfl⟩ (Insert.insert (c ++ ":" ++ k) ∅)
  have hdelete : new.delete c k = .ok tx := rfl
  have hactive : tx.state = .active := rfl
  have hwrites : order.iter tx.pendingWrites.entries = [⟨encodeDocKey c k, .delete⟩] :=
    List.perm_singleton.mp (order.perm _)
  have hedges : order.iter tx.pendingEdges.entries = [] := List.perm_nil.mp (order.perm _)
  have hop : docOp ⟨encodeDocKey c k, .delete⟩ = .ok (.deleteDoc c k) := by
    unfold docOp
    rw [splitn_encodeDocKey hc]
    rfl
  have hops : tx.ops order = .ok [.deleteDoc c k] := by
    unfold ops
    rw [hwrites, hedges, List.mapM_cons, hop]
    rfl
  unfold deleteAndCommit commit
  rw [hdelete]
  simp only [hactive, ne_eq, not_true_eq_false, if_false, hops]
  rcases db.atomicWriteBatch .none [.deleteDoc c k] with ⟨db', _ | ⟨⟩⟩
  · rfl
  · rfl

end Transaction

/-! ## The equivalence -/

/-- A delete in a batch and one in a transaction succeed when `delete_document` does, and leave
the same store. -/
structure DeletesAlike (order : IterOrder) (db : Database) (c k : String) : Prop where
  batchOk : (db.atomicWriteBatch .none [.deleteDoc c k]).2.isOk =
    (db.deleteDocument .none c k).2.isOk
  batchStore : SameStore (db.atomicWriteBatch .none [.deleteDoc c k]).1
    (db.deleteDocument .none c k).1
  commitOk : (Transaction.deleteAndCommit order db c k).2.isOk =
    (db.deleteDocument .none c k).2.isOk
  commitStore : SameStore (Transaction.deleteAndCommit order db c k).1
    (db.deleteDocument .none c k).1

/-- The transaction adds nothing to the batch. -/
theorem deletesAlike_of_batch (order : IterOrder) {db : Database} {c k : String}
    (hc : ':' ∉ c.toList)
    (hok : (db.atomicWriteBatch .none [.deleteDoc c k]).2.isOk =
      (db.deleteDocument .none c k).2.isOk)
    (hstore : SameStore (db.atomicWriteBatch .none [.deleteDoc c k]).1
      (db.deleteDocument .none c k).1) : DeletesAlike order db c k := by
  refine ⟨hok, hstore, ?_, ?_⟩
  · rw [Transaction.deleteAndCommit_eq order db hc k, ← hok]
    cases (db.atomicWriteBatch .none [.deleteDoc c k]).2 <;> rfl
  · rw [Transaction.deleteAndCommit_eq order db hc k]
    exact hstore

/-- A delete in a batch or a transaction does what `delete_document` does exactly if the document
is not stored or the edge policies are idle. -/
theorem deletesAlike_iff (order : IterOrder) (db : Database) (d : Document) :
    DeletesAlike order db d.collection d.key ↔
      db.getDocument d.collection (utf8 d.key) = none ∨
        PoliciesIdle db.edges (d.collection ++ ":" ++ d.key) := by
  have hc := d.colon_notMem_collection
  cases hdoc : db.getDocument d.collection (utf8 d.key) with
  | none =>
    refine iff_of_true (deletesAlike_of_batch order hc ?_ ?_) (Or.inl rfl)
    · rw [Database.atomicWriteBatch_delete_absent hdoc, Database.deleteDocument_absent hdoc]
      rfl
    · rw [Database.atomicWriteBatch_delete_absent hdoc, Database.deleteDocument_absent hdoc]
      exact SameStore.refl db
  | some oldDoc =>
    have hbatch := Database.atomicWriteBatch_delete hdoc
    rw [policiesIdle_iff]
    simp only [reduceCtorEq, false_or]
    cases hallowed : db.edges.checkDeleteAllowed (d.collection ++ ":" ++ d.key) with
    | error e =>
      -- the policy refuses, the batch does not ask it
      refine iff_of_false ?_ (by simp)
      intro h
      have hok := h.batchOk
      rw [hbatch, Database.deleteDocument_stored hdoc, hallowed] at hok
      cases hok
    | ok u =>
      cases hremovals : db.edges.deleteEdgesForNodeInTx (d.collection ++ ":" ++ d.key) with
      | error e =>
        refine iff_of_false ?_ (by simp)
        intro h
        have hok := h.batchOk
        rw [hbatch, Database.deleteDocument_stuck hdoc hallowed hremovals] at hok
        cases hok
      | ok removals =>
        have hdone := Database.deleteDocument_done hdoc hallowed hremovals
        constructor
        · intro h
          have hedges := h.batchStore.edges
          rw [hbatch, hdone] at hedges
          exact ⟨rfl, removals, rfl, hedges.symm⟩
        · rintro ⟨-, removals', hremovals', hsame⟩
          obtain rfl := Except.ok.inj hremovals'
          apply deletesAlike_of_batch order hc
          · rw [hbatch, hdone]
            rfl
          · rw [hbatch, hdone]
            exact ⟨fun _ _ => rfl, rfl, fun _ => rfl, hsame.symm⟩

end Deletes

/-! ## A node with one edge -/

namespace Star

local instance : External := .standIn

/-- The hub goes with its edge in `delete_document`; the batch leaves the edge. -/
theorem batch_leaves_edge : ¬ DeletesAlike .asKept (hub 1) "users" "a" := by
  intro h
  have hentry := congrArg (fun edges : String → Keyspace EdgeEntry =>
    ((edges "follows")[encodeEdgeIdKey "x"]?).isSome) h.batchStore.edges
  revert hentry
  decide +kernel

end Star

end StellarDb
