import StellarDb.Indexes.Exact
import StellarDb.Batch.Rollback

/-!
# StellarDb — the documents after calls and batches

A call or a batch either changes the documents it says it changes or none. Callers that only care
for documents need no more of a write than `exec_getDocument` and `atomicWriteBatch_getDocument`.
-/

namespace StellarDb

open Keyspaces Database

section

variable [External]

/-! ## Calls -/

/-- A call that answers `true` stores its version of its document; no other document changes. -/
theorem DocCall.exec_getDocument (f : Faults) (db : Database) (call : DocCall) (c : String)
    (k : Bytes) : (call.exec f db).1.getDocument c k =
      if (call.exec f db).2 = .ok true ∧ call.collection = c ∧ call.key = k then call.newDoc
      else db.getDocument c k := by
  obtain ⟨db0, hopen, hout⟩ := exec_outcome f db call
  generalize call.exec f db = res at hout
  cases hout with
  | untouched r _ hr =>
    rw [if_neg (fun h => hr h.1)]
    exact hopen.getDocument c k
  | violated e _ _ =>
    rw [if_neg (fun h => nomatch h.1), (Relocks.setLocks ..).getDocument]
    exact hopen.getDocument c k
  | rolledBack r _ _ _ hr =>
    rw [if_neg (fun h => hr h.1), (Relocks.setLocks ..).getDocument]
    exact hopen.getDocument c k
  | committed removals hreach _ _ _ =>
    have hks : ((db0.setLocks call.collection (call.validated db0).1).keyspaces
        call.collection).isSome := by
      rw [setLocks_isSome]
      exact hreach.1
    rw [getDocument_eq, docs_commitTx _ _ _ hks, setLocks_docs, ← getDocument_eq,
      hopen.getDocument]
    simp

/-- Where a call that answers `true` started from. -/
theorem DocCall.oldDoc_of_exec {f : Faults} {db : Database} (call : DocCall)
    (h : (call.exec f db).2 = .ok true) :
    db.getDocument call.collection call.key = call.oldDoc db ∧
      call.Checks db := by
  obtain ⟨db0, hopen, hout⟩ := exec_outcome f db call
  have hold : call.oldDoc db0 = call.oldDoc db := by
    cases call with
    | create doc => rfl
    | _ => exact hopen.getDocument _ _
  have hchecks : call.Checks db0 → call.Checks db := by
    cases call with
    | create doc => exact id
    | set doc => exact id
    | update doc =>
      show (db0.getDocument _ _).isSome → (db.getDocument _ _).isSome
      rw [hopen.getDocument]
      exact id
    | delete c k =>
      show (db0.getDocument _ _).isSome ∧ db0.edges.checkDeleteAllowed _ = _ → _
      rw [hopen.getDocument, hopen.edges]
      exact id
  generalize call.exec f db = res at hout h
  cases hout with
  | untouched r _ hr => exact absurd h hr
  | violated e _ _ => cases h
  | rolledBack r _ _ _ hr => exact absurd h hr
  | committed removals hreach _ hcommits _ =>
    refine ⟨?_, hchecks hreach.2.2⟩
    rw [← hopen.getDocument, hcommits.2.2, hold]

/-! ### Calls that are answered with `Ok(false)` -/

omit [External] in
/-- A body that leaves early with `Ok(false)` has not failed before. -/
theorem false_of_attempt {α : Type} {fault : Option StorageError} {k : Unit → Body Bool α}
    (h : (attempt fault >>= k) = .error (.ok false)) : k () = .error (.ok false) := by
  cases fault with
  | none => exact h
  | some e => cases h

/-- Such a write has left early, or its commit conflicts. -/
theorem false_of_finish {db db' : Database} {c : String} {oldDoc newDoc : Option Document}
    {body : Body Bool Tx} {commit : Commit}
    (h : db.finish c oldDoc newDoc body commit true (.ok false) = (db', .ok false)) :
    body = .error (.ok false) ∨ commit = .conflict := by
  unfold finish at h
  split at h
  · exact Or.inl (congrArg Except.error (congrArg Prod.snd h))
  · split at h
    · cases congrArg Prod.snd h
    · cases congrArg Prod.snd h
    · exact Or.inr rfl

/-- `create_document` has found the document, or its commit conflicts. -/
theorem found_of_createDocument {f : Faults} {db db' : Database} {doc : Document}
    (h : db.createDocument f doc = (db', .ok false)) :
    (db.getDocument doc.collection doc.keyBytes).isSome ∨ f.commit = .conflict := by
  have hopen := Database.getOrCreateCollection_opened f db doc.collection
  unfold createDocument at h
  rcases hg : db.getOrCreateCollection f doc.collection with ⟨db0, e | u⟩
  · rw [hg] at h
    cases congrArg Prod.snd h
  · rw [hg] at h hopen
    dsimp only at h
    split at h
    · cases congrArg Prod.snd h
    · rcases hv : db0.validateAndUpdate doc.collection none (some doc) with ⟨db1, e | u⟩
      · rw [hv] at h
        cases congrArg Prod.snd h
      · rw [hv] at h
        have hdocs : db1.getDocument doc.collection doc.keyBytes =
            db.getDocument doc.collection doc.keyBytes := by
          rw [← hopen.getDocument, show db1 = (db0.validateAndUpdate doc.collection none
            (some doc)).1 from (congrArg Prod.fst hv).symm]
          exact setLocks_getDocument ..
        refine (false_of_finish h).imp (fun hbody => ?_) id
        have hcheck := false_of_attempt (false_of_attempt hbody)
        split at hcheck
        · next hfound => exact hdocs ▸ hfound
        · have hrest := false_of_attempt (false_of_attempt (false_of_attempt (false_of_attempt hcheck)))
          cases hrest

/-- `update_document` has not found the document, or its commit conflicts. -/
theorem missing_of_updateDocument {f : Faults} {db db' : Database} {doc : Document}
    (h : db.updateDocument f doc = (db', .ok false)) :
    db.getDocument doc.collection doc.keyBytes = none ∨ f.commit = .conflict := by
  unfold updateDocument at h
  split at h
  · next hks =>
    unfold getDocument
    rw [hks]
    exact Or.inl rfl
  · next ks hks =>
    split at h
    · cases congrArg Prod.snd h
    · split at h
      · next hdoc =>
        unfold getDocument
        rw [hks]
        exact Or.inl hdoc
      · next oldDoc hdoc =>
        rcases hv : db.validateAndUpdate doc.collection (some oldDoc) (some doc) with ⟨db1, e | u⟩
        · rw [hv] at h
          cases congrArg Prod.snd h
        · rw [hv] at h
          have hdocs : db1.getDocument doc.collection doc.keyBytes =
              db.getDocument doc.collection doc.keyBytes := by
            rw [show db1 = (db.validateAndUpdate doc.collection (some oldDoc) (some doc)).1 from
              (congrArg Prod.fst hv).symm]
            exact setLocks_getDocument ..
          refine (false_of_finish h).imp (fun hbody => ?_) id
          have hcheck := false_of_attempt (false_of_attempt hbody)
          split at hcheck
          · next hmissing => exact hdocs ▸ Option.isNone_iff_eq_none.mp hmissing
          · have hrest :=
              false_of_attempt (false_of_attempt (false_of_attempt (false_of_attempt hcheck)))
            cases hrest

/-! ## Batches -/

/-- After valid mutations each document of one is its version, and all others are as before. -/
theorem foldl_getDocument {db : Database} (ms : List PendingDocMutation) {db' : Database}
    (hv : ValidMutations db' ms) (hindexes : db'.indexes = db.indexes) :
    (∀ m ∈ ms, (ms.foldl (fun db' m => db'.commitTx (m.tx db)) db').getDocument m.collection
      (utf8 m.key) = m.currentDoc) ∧
    ∀ c k, (∀ m ∈ ms, ¬(m.collection = c ∧ m.key = k)) →
      (ms.foldl (fun db' m => db'.commitTx (m.tx db)) db').getDocument c (utf8 k) =
        db'.getDocument c (utf8 k) := by
  induction ms generalizing db' with
  | nil => exact ⟨nofun, fun _ _ _ => rfl⟩
  | cons m ms ih =>
    obtain ⟨hne, -⟩ := List.pairwise_cons.mp hv.distinct
    -- what the head does
    obtain ⟨hvalid, hind, hhead⟩ : ValidMutations (db'.commitTx (m.tx db)) ms ∧
        (db'.commitTx (m.tx db)).indexes = db.indexes ∧
        ∀ c k, (db'.commitTx (m.tx db)).getDocument c (utf8 k) =
          if m.collection = c ∧ m.key = k then m.currentDoc else db'.getDocument c (utf8 k) := by
      by_cases hempty : m.initialDoc = none ∧ m.currentDoc = none
      · have htx : m.tx db = .empty := by simp [PendingDocMutation.tx, hempty]
        rw [htx]
        refine ⟨hv.of_cons, hindexes, fun c k => ?_⟩
        by_cases hck : m.collection = c ∧ m.key = k
        · obtain ⟨rfl, rfl⟩ := hck
          rw [if_pos ⟨rfl, rfl⟩, hempty.2, ← hempty.1]
          exact (hv.initial m List.mem_cons_self).symm
        · rw [if_neg hck]
          rfl
      · have hchange := hv.changes List.mem_cons_self hindexes hempty
        refine ⟨hv.of_change hchange, hindexes, fun c k => ?_⟩
        rw [getDocument_eq, hchange.docs_commitTx, ← getDocument_eq]
        simp only [utf8_inj]
    obtain ⟨hin, hout⟩ := ih hvalid hind
    rw [List.foldl_cons]
    refine ⟨fun n hn => ?_, fun c k hck => ?_⟩
    · rcases List.mem_cons.mp hn with rfl | hn
      · rw [hout _ _ (fun n' hn' h => hne n' hn' ⟨h.1.symm, h.2.symm⟩), hhead, if_pos ⟨rfl, rfl⟩]
      · exact hin n hn
    · rw [hout c k (fun n hn => hck n (List.mem_cons_of_mem m hn)), hhead,
        if_neg (hck m List.mem_cons_self)]

/-- A batch that succeeds leaves of each document what its last operation says; a batch that
fails leaves all documents. -/
theorem atomicWriteBatch_getDocument (f : BatchFaults) (db : Database) (ops : List WriteOp)
    (c k : String) : (db.atomicWriteBatch f ops).1.getDocument c (utf8 k) =
      if (db.atomicWriteBatch f ops).2 = .ok () then lastDoc db ops c k
      else db.getDocument c (utf8 k) := by
  have hout := atomicWriteBatch_outcome f db ops
  generalize db.atomicWriteBatch f ops = res at hout
  cases hout with
  | empty hops =>
    rw [if_pos rfl, hops]
    rfl
  | refused db1 e hopen _ =>
    rw [if_neg nofun]
    exact hopen.getDocument c _
  | failed db1 st next e hc _ _ _ =>
    rw [if_neg nofun, ((runLocks_relocks db1 next).trans
      (undoAllLocks_relocks _ next)).getDocument]
    exact hc.opens.getDocument c _
  | undone db1 st next m e hc _ _ _ =>
    rw [if_neg nofun, (((runLocks_relocks db1 next).trans (m.walkLocks_relocks _)).trans
      ((m.undoLocks_relocks _).trans (undoAllLocks_relocks _ next))).getDocument]
    exact hc.opens.getDocument c _
  | rolledBack db1 st s e hc _ _ =>
    rw [if_neg nofun, (undoAllLocks_relocks _ st.mutations).getDocument]
    exact ((runLocks_relocks db1 st.mutations).getDocument c _).trans (hc.opens.getDocument c _)
  | committed db1 st s tx hc _ _ _ hdocs _ _ =>
    have hre := runLocks_relocks db1 st.mutations
    have hv : ValidMutations { runLocks db1 st.mutations with edges := s } st.mutations := by
      have hv := hc.valid.of_relocks hre
      exact ⟨hv.distinct, hv.initial, hv.current, hv.createOnly⟩
    have hnet : NetOf db ops st := collapse_net (by rw [hc.eq])
    have hbefore : ∀ c k, ({ runLocks db1 st.mutations with edges := s } : Database).getDocument c
        (utf8 k) = db.getDocument c (utf8 k) := fun c k =>
      (hre.getDocument c _).trans (hc.opens.getDocument c _)
    have hsame : (({ runLocks db1 st.mutations with edges := s } : Database).commitTx tx).getDocument
        c (utf8 k) = (({ runLocks db1 st.mutations with edges := s } : Database).commitTx
          (docTx db1 st.mutations)).getDocument c (utf8 k) := by
      rw [getDocument_eq, getDocument_eq]
      simp only [Database.docs, Database.commitTx, hdocs]
    obtain ⟨hin, hout⟩ := foldl_getDocument _ hv.of_inserts_first
      (show _ = db1.indexes from hre.indexes)
    rw [if_pos rfl, hsame, docTx, commitTx_foldl]
    by_cases htouched : (c, k) ∈ touched ops
    · rw [← hnet.targets] at htouched
      obtain ⟨m, hm, heq⟩ := List.mem_map.mp htouched
      obtain ⟨rfl, rfl⟩ := Prod.mk.inj heq
      refine (hin m ?_).trans (hnet.current m hm)
      exact (List.filter_append_perm (fun m => m.currentDoc.isSome) st.mutations).mem_iff.mpr hm
    · refine (hout c k fun m hm hck => htouched ?_).trans ?_
      · rw [← hnet.targets]
        have hmem := (List.filter_append_perm (fun m => m.currentDoc.isSome)
          st.mutations).mem_iff.mp hm
        exact List.mem_map.mpr ⟨m, hmem, by rw [hck.1, hck.2]⟩
      · refine (hbefore c k).trans (docAfter_of_not_touched (fun op hop htarget => ?_) _).symm
        exact htouched (mem_touched.mpr ⟨op, hop, htarget⟩)

/-- A batch without edge operations leaves the edges alone. -/
theorem atomicWriteBatch_edges (f : BatchFaults) (db : Database) {ops : List WriteOp}
    (hops : ∀ op ∈ ops, op.edgeInsert = none ∧ op.edgeDelete = none) :
    (db.atomicWriteBatch f ops).1.edges = db.edges := by
  obtain ⟨hopen, hvalid⟩ := Database.collapse_spec f.op db ⟨[], [], []⟩ ops
  unfold Database.atomicWriteBatch
  split
  · rfl
  · rcases hcol : db.collapse f.op ⟨[], [], []⟩ ops with ⟨db1, e | st⟩
    · rw [hcol] at hopen
      exact hopen.edges
    · rw [hcol] at hopen hvalid
      have hv : ValidMutations db1 st.mutations := hvalid st rfl (.nil db)
      have hnet : NetOf db ops st := collapse_net (by rw [hcol])
      have hins : st.edgeInserts = [] := by
        rw [hnet.edgeInserts]
        exact List.filterMap_eq_nil_iff.mpr fun op hop => (hops op hop).1
      have hdel : st.edgeDeletes = [] := by
        rw [hnet.edgeDeletes]
        exact List.filterMap_eq_nil_iff.mpr fun op hop => (hops op hop).2
      have hout : PrepareOutcome f.mutation db1 [] st.mutations
          (db1.prepareMutations f.mutation ⟨[], []⟩ st.mutations) :=
        prepareMutations_spec f.mutation hv
      simp only
      generalize db1.prepareMutations f.mutation ⟨[], []⟩ st.mutations = res at hout
      cases hout with
      | failed next e _ _ _ =>
        exact ((runLocks_relocks db1 next).trans (undoAllLocks_relocks _ _)).edges.trans hopen.edges
      | undone next m e _ _ _ =>
        have hre := ((runLocks_relocks db1 next).trans (m.walkLocks_relocks _)).trans
          (m.undoLocks_relocks _)
        exact (hre.trans (undoAllLocks_relocks _ _)).edges.trans hopen.edges
      | prepared _ =>
        have hre := runLocks_relocks db1 st.mutations
        have hcommit := commitBatch_edges f (hv.of_relocks hre) hins hdel
        exact (hcommit.trans hre.edges).trans hopen.edges

/-- A batch that succeeds was admitted. -/
theorem admitted_of_atomicWriteBatch {f : BatchFaults} {db : Database} {ops : List WriteOp}
    (h : (db.atomicWriteBatch f ops).2 = .ok ()) : db.Admitted ops := by
  have hout := atomicWriteBatch_outcome f db ops
  generalize db.atomicWriteBatch f ops = res at hout h
  cases hout with
  | empty hops =>
    intro pre op hpre
    rw [hops] at hpre
    exact absurd (List.prefix_nil.mp hpre) (List.append_ne_nil_of_right_ne_nil pre nofun)
  | committed db1 st s tx hc _ _ _ _ _ _ => exact hc.admitted
  | refused => cases h
  | failed => cases h
  | undone => cases h
  | rolledBack => cases h

/-! ## Runs -/

/-- The operation of a batch that writes what the call writes. -/
def DocCall.op : DocCall → WriteOp
  | .create doc => .createDoc doc
  | .set doc => .insertDoc doc
  | .update doc => .insertDoc doc
  | .delete c k => .deleteDoc c k

/-- The operations that a step has carried out. -/
def WriteStep.carriedOut (db : Database) : WriteStep → List WriteOp
  | .call f c => if (c.exec f db).2 = .ok true then [c.op] else []
  | .batch f ops => if (db.atomicWriteBatch f ops).2 = .ok () then ops else []

/-- The operations that a run has carried out. -/
def carriedOut : Database → List WriteStep → List WriteOp
  | _, [] => []
  | db, step :: steps => step.carriedOut db ++ carriedOut (step.exec db) steps

theorem WriteStep.exec_documents (db : Database) (step : WriteStep) (c k : String) :
    (step.exec db).getDocument c (utf8 k) = lastDoc db (step.carriedOut db) c k := by
  cases step with
  | call f write =>
    show (write.exec f db).1.getDocument c (utf8 k) =
      lastDoc db (if (write.exec f db).2 = .ok true then [write.op] else []) c k
    rw [DocCall.exec_getDocument]
    by_cases hok : (write.exec f db).2 = .ok true
    · rw [if_pos hok]
      cases write <;>
        simp [hok, DocCall.op, DocCall.collection, DocCall.key, DocCall.newDoc, lastDoc, docAfter,
          WriteOp.target, WriteOp.written, Document.keyBytes]
    · rw [if_neg hok, if_neg fun h => hok h.1]
      rfl
  | batch f ops =>
    show (db.atomicWriteBatch f ops).1.getDocument c (utf8 k) =
      lastDoc db (if (db.atomicWriteBatch f ops).2 = .ok () then ops else []) c k
    rw [atomicWriteBatch_getDocument]
    split <;> rfl

/-- A run leaves of each document what the operations that it has carried out leave. -/
theorem runWrites_documents (db : Database) (steps : List WriteStep) (c k : String) :
    (runWrites db steps).getDocument c (utf8 k) = lastDoc db (carriedOut db steps) c k := by
  induction steps generalizing db with
  | nil => rfl
  | cons step steps ih =>
    show (runWrites (step.exec db) steps).getDocument c (utf8 k) = _
    rw [ih, carriedOut]
    unfold lastDoc docAfter
    rw [List.foldl_append, step.exec_documents]
    rfl

end

end StellarDb
