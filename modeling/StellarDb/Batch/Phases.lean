import StellarDb.Batch.Net

/-!
# StellarDb — the phases of a batch one by one (`storage/database/batch.rs`)

Between the phases of a batch, and between the documents of each phase, other writers can come:
`prepare` reads the stored documents outside the transaction. What the batch will do to the
documents does not depend on what it has read, with one exception: a document to be deleted that
was not stored when the batch first looked is not deleted at all (`commitBatch_getDocument`).
-/

namespace StellarDb

open Keyspaces Database

section Phases

variable [External]

/-- No document has changed. -/
def SameDocuments (db db' : Database) : Prop :=
  ∀ c k, db'.getDocument c k = db.getDocument c k

namespace SameDocuments

variable {db db' db'' : Database}

omit [External] in
theorem refl (db : Database) : SameDocuments db db := fun _ _ => rfl

omit [External] in
theorem trans (h : SameDocuments db db') (h' : SameDocuments db' db'') : SameDocuments db db'' :=
  fun c k => (h' c k).trans (h c k)

omit [External] in
theorem of_opens (h : db.Opens db') : SameDocuments db db' := fun c k => h.getDocument c k

omit [External] in
theorem of_relocks (h : db.Relocks db') : SameDocuments db db' := fun c k => h.getDocument c k

end SameDocuments

/-- Rolling back changes locks only. -/
theorem rollbackConstraints_relocks (prepared : PreparedBatch) (db : Database) :
    db.Relocks (rollbackConstraints prepared db) := by
  unfold rollbackConstraints
  refine (foldl_relocks (fun db i => Database.Relocks.setLocks ..) db).trans
    (foldl_relocks (fun db d => ?_) _)
  split
  · exact Database.Relocks.setLocks ..
  · exact Database.Relocks.refl db

/-! ## Collapsing -/

omit [External] in
theorem collapseOp_same (f : Faults) (db : Database) (st : Collapsed) (op : WriteOp) :
    SameDocuments db (db.collapseOp f st op).1 :=
  .of_opens (collapseOp_spec f db st op).1

omit [External] in
theorem touched_nodup (ops : List WriteOp) : (touched ops).Nodup := by
  induction ops using List.reverseRecOn with
  | nil => exact List.nodup_nil
  | append_singleton ops op ih =>
    rw [touched_snoc, touch]
    split
    · next t _ =>
      split
      · exact ih
      · next ht =>
        refine List.nodup_append.mpr ⟨ih, List.nodup_singleton t, ?_⟩
        intro a ha b hb heq
        rw [List.mem_singleton.mp hb] at heq
        exact ht (heq ▸ ha)
    · exact ih

omit [External] in
/-- The version of a touched document is the one some operation leaves, whatever was there. -/
theorem docAfter_of_touched {ops : List WriteOp} {c k : String} (h : (c, k) ∈ touched ops) :
    ∃ op ∈ ops, op.target = some (c, k) ∧ ∀ doc, docAfter ops c k doc = op.written := by
  induction ops using List.reverseRecOn with
  | nil => cases h
  | append_singleton ops op ih =>
    have hsnoc : ∀ doc, docAfter (ops ++ [op]) c k doc =
        if op.target = some (c, k) then op.written else docAfter ops c k doc :=
      fun doc => by simp [docAfter]
    by_cases htarget : op.target = some (c, k)
    · refine ⟨op, by simp, htarget, fun doc => ?_⟩
      rw [hsnoc, if_pos htarget]
    · obtain ⟨op', hop', htarget'⟩ := mem_touched.mp h
      have hbefore : op' ∈ ops := by
        rcases List.mem_append.mp hop' with hmem | hmem
        · exact hmem
        · exact absurd (List.mem_singleton.mp hmem ▸ htarget') htarget
      obtain ⟨op'', hop'', htarget'', hlast⟩ := ih (mem_touched.mpr ⟨op', hbefore, htarget'⟩)
      refine ⟨op'', List.mem_append_left _ hop'', htarget'', fun doc => ?_⟩
      rw [hsnoc, if_neg htarget, hlast]

omit [External] in
/-- What is collapsed does not depend on the stored documents. -/
theorem NetOf.of_any {db : Database} {ops : List WriteOp} {st : Collapsed} (h : NetOf db ops st)
    (db' : Database) : NetOf db' ops st where
  targets := h.targets
  current m hm := by
    have htouched : (m.collection, m.key) ∈ touched ops := by
      rw [← h.targets]
      exact List.mem_map_of_mem hm
    obtain ⟨op, -, -, hlast⟩ := docAfter_of_touched htouched
    rw [h.current m hm, lastDoc, lastDoc, hlast, hlast]
  edgeInserts := h.edgeInserts
  edgeDeletes := h.edgeDeletes

namespace NetOf

variable {db : Database} {ops : List WriteOp} {st : Collapsed}

omit [External] in
/-- A mutation's version is a version of its document. -/
theorem named (h : NetOf db ops st) : ∀ m ∈ st.mutations, ∀ d, m.currentDoc = some d →
    d.collection = m.collection ∧ d.key = m.key := by
  intro m hm d hd
  have htouched : (m.collection, m.key) ∈ touched ops := by
    rw [← h.targets]
    exact List.mem_map_of_mem hm
  obtain ⟨op, -, htarget, hlast⟩ := docAfter_of_touched htouched
  have hwritten : op.written = some d := by
    rw [← hlast (db.getDocument m.collection (utf8 m.key)), ← hd, h.current m hm]
    rfl
  cases op with
  | insertDoc doc =>
    obtain rfl := Option.some.inj hwritten
    exact Prod.mk.inj (Option.some.inj htarget)
  | createDoc doc =>
    obtain rfl := Option.some.inj hwritten
    exact Prod.mk.inj (Option.some.inj htarget)
  | deleteDoc c k => cases hwritten
  | insertEdge edge => cases hwritten
  | deleteEdge src label dst => cases hwritten

end NetOf

/-! ## Preparing -/

/-- The document that the batch removes for a mutation. -/
def PendingDocMutation.removed (m : PendingDocMutation) : Option (String × String) :=
  if m.currentDoc.isNone && m.initialDoc.isSome then some (m.collection, m.key) else none

/-- What `prepare` takes over of some mutations. -/
structure PreparedFrom (ms : List PendingDocMutation) (prepared : PreparedBatch) : Prop where
  inserts : prepared.docInserts.map (·.doc) = ms.filterMap (·.currentDoc)
  deletes : prepared.docDeletes.map (fun d => (d.collection, d.key)) = ms.filterMap (·.removed)

omit [External] in
theorem PreparedFrom.nil : PreparedFrom [] ⟨[], []⟩ := ⟨rfl, rfl⟩

theorem prepareDocInsert_phase (f : Faults) (db : Database) (prepared : PreparedBatch)
    (doc : Document) (createOnly : Bool) :
    SameDocuments db (db.prepareDocInsert f prepared doc createOnly).1 ∧
      ∀ prepared', (db.prepareDocInsert f prepared doc createOnly).2 = .ok prepared' →
        ∃ i : PreparedDocInsert, i.doc = doc ∧
          prepared' = { prepared with docInserts := prepared.docInserts ++ [i] } := by
  have hopen := SameDocuments.of_opens (getOrCreateCollection_opened f db doc.collection).opens
  unfold prepareDocInsert
  rcases hget : db.getOrCreateCollection f doc.collection with ⟨db0, e | u⟩
  · rw [hget] at hopen
    exact ⟨hopen.trans (.of_relocks (rollbackConstraints_relocks ..)), nofun⟩
  · rw [hget] at hopen
    dsimp only
    cases f.read with
    | some e => exact ⟨hopen.trans (.of_relocks (rollbackConstraints_relocks ..)), nofun⟩
    | none =>
      dsimp only
      split
      · exact ⟨hopen.trans (.of_relocks (rollbackConstraints_relocks ..)), nofun⟩
      · -- the walk, and its undo where something fails after it
        have hwalk : ∀ old, db0.Relocks (db0.validateAndUpdate doc.collection old (some doc)).1 :=
          fun old => Database.Relocks.setLocks ..
        have hundo : ∀ (db1 : Database) old, db1.Relocks
            (rollbackConstraints prepared (db1.rollbackValidateAndUpdate doc.collection old
              (some doc))) := fun db1 old =>
          (Database.Relocks.setLocks ..).trans (rollbackConstraints_relocks ..)
        generalize hi : (PreparedDocInsert.mk doc (db0.getDocument doc.collection doc.keyBytes)
          createOnly) = i
        rcases hv : db0.validateAndUpdate doc.collection i.constraintOldDoc (some doc) with
          ⟨db1, e | u⟩
        · have hre := hwalk i.constraintOldDoc
          rw [hv] at hre
          exact ⟨hopen.trans (.of_relocks (hre.trans (hundo db1 _))), nofun⟩
        · have hre := hwalk i.constraintOldDoc
          rw [hv] at hre
          dsimp only
          cases f.hnsw with
          | some e => exact ⟨hopen.trans (.of_relocks (hre.trans (hundo db1 _))), nofun⟩
          | none =>
            refine ⟨hopen.trans (.of_relocks hre), fun prepared' h => ⟨i, ?_, ?_⟩⟩
            · rw [← hi]
            · exact (Except.ok.inj h).symm

theorem prepareDocDelete_phase (f : Faults) (db : Database) (prepared : PreparedBatch)
    (c k : String) :
    SameDocuments db (db.prepareDocDelete f prepared c k).1 ∧
      ∀ prepared', (db.prepareDocDelete f prepared c k).2 = .ok prepared' →
        ∃ d : PreparedDocDelete, (d.collection, d.key) = (c, k) ∧
          prepared' = { prepared with docDeletes := prepared.docDeletes ++ [d] } := by
  unfold prepareDocDelete
  cases f.read with
  | some e => exact ⟨.of_relocks (rollbackConstraints_relocks ..), nofun⟩
  | none =>
    dsimp only
    cases db.getDocument c (utf8 k) with
    | none =>
      exact ⟨.refl db, fun prepared' h => ⟨⟨c, k, none⟩, rfl, (Except.ok.inj h).symm⟩⟩
    | some old =>
      exact ⟨.of_relocks (Database.Relocks.setLocks ..), fun prepared' h =>
        ⟨⟨c, k, some old⟩, rfl, (Except.ok.inj h).symm⟩⟩

/-- One mutation more is taken over, whatever is stored by now. -/
theorem prepareMutation_phase (f : Faults) (db : Database) (prepared : PreparedBatch)
    (m : PendingDocMutation) :
    SameDocuments db (db.prepareMutation f prepared m).1 ∧
      ∀ prepared', (db.prepareMutation f prepared m).2 = .ok prepared' →
        ∀ ms, PreparedFrom ms prepared → PreparedFrom (ms ++ [m]) prepared' := by
  unfold prepareMutation
  cases hcurrent : m.currentDoc with
  | some doc =>
    obtain ⟨hsame, hok⟩ := prepareDocInsert_phase f db prepared doc m.createOnly
    have hstep : SameDocuments db (db.prepareDocInsert f prepared doc m.createOnly).1 ∧
        ∀ prepared', (db.prepareDocInsert f prepared doc m.createOnly).2 = .ok prepared' →
          ∀ ms, PreparedFrom ms prepared → PreparedFrom (ms ++ [m]) prepared' := by
      refine ⟨hsame, fun prepared' h ms hms => ?_⟩
      obtain ⟨i, rfl, rfl⟩ := hok prepared' h
      refine ⟨?_, ?_⟩
      · simp [hms.inserts, List.filterMap_append, hcurrent]
      · simp [hms.deletes, List.filterMap_append, PendingDocMutation.removed, hcurrent]
    cases m.initialDoc <;> exact hstep
  | none =>
    cases hinitial : m.initialDoc with
    | none =>
      refine ⟨.refl db, fun prepared' h ms hms => ?_⟩
      obtain rfl := Except.ok.inj h
      refine ⟨?_, ?_⟩
      · simp [hms.inserts, List.filterMap_append, hcurrent]
      · simp [hms.deletes, List.filterMap_append, PendingDocMutation.removed, hinitial]
    | some old =>
      obtain ⟨hsame, hok⟩ := prepareDocDelete_phase f db prepared m.collection m.key
      refine ⟨hsame, fun prepared' h ms hms => ?_⟩
      obtain ⟨d, hd, rfl⟩ := hok prepared' h
      refine ⟨?_, ?_⟩
      · simp [hms.inserts, List.filterMap_append, hcurrent]
      · simp [hms.deletes, List.filterMap_append, PendingDocMutation.removed, hcurrent, hinitial, hd]

/-! ## Committing -/

/-- The document writes of an insert. -/
def PreparedDocInsert.docWrites (i : PreparedDocInsert) : List DocWrite :=
  .putDoc i.doc :: (if i.oldDoc.isNone then [.putExists i.doc.collection i.doc.keyBytes] else [])

/-- The document writes of a delete. -/
def PreparedDocDelete.docWrites (d : PreparedDocDelete) : List DocWrite :=
  [.removeDoc d.collection (utf8 d.key), .removeExists d.collection (utf8 d.key)]

omit [External] in
theorem mem_insert_docWrites {i : PreparedDocInsert} {w : DocWrite} (hw : w ∈ i.docWrites)
    (c : String) (k : Bytes) : w.collection = i.doc.collection ∧ (w.onDoc c k = none ∨
      i.doc.collection = c ∧ i.doc.keyBytes = k ∧ w.onDoc c k = some (some i.doc)) := by
  rcases List.mem_cons.mp hw with rfl | hw
  · refine ⟨rfl, ?_⟩
    by_cases hck : i.doc.collection = c ∧ i.doc.keyBytes = k
    · exact Or.inr ⟨hck.1, hck.2, if_pos hck⟩
    · exact Or.inl (if_neg hck)
  · split at hw
    · obtain rfl := List.mem_singleton.mp hw
      exact ⟨rfl, Or.inl rfl⟩
    · cases hw

omit [External] in
theorem mem_delete_docWrites {d : PreparedDocDelete} {w : DocWrite} (hw : w ∈ d.docWrites)
    (c : String) (k : Bytes) : w.collection = d.collection ∧ (w.onDoc c k = none ∨
      d.collection = c ∧ utf8 d.key = k ∧ w.onDoc c k = some none) := by
  rcases List.mem_cons.mp hw with rfl | hw
  · refine ⟨rfl, ?_⟩
    by_cases hck : d.collection = c ∧ utf8 d.key = k
    · exact Or.inr ⟨hck.1, hck.2, if_pos hck⟩
    · exact Or.inl (if_neg hck)
  · obtain rfl := List.mem_singleton.mp hw
    exact ⟨rfl, Or.inl rfl⟩

theorem writeDocInserts_writes {f : Nat → Faults} {db : Database} {tx tx' : Tx}
    {is : List PreparedDocInsert} (h : db.writeDocInserts f tx is = .ok tx') :
    tx'.docs = tx.docs ++ is.flatMap (·.docWrites) ∧
      ∀ i ∈ is, (db.keyspaces i.doc.collection).isSome := by
  induction is generalizing f tx with
  | nil =>
    obtain rfl := Except.ok.inj h
    simp
  | cons i is ih =>
    unfold writeDocInserts at h
    cases hi : db.writeDocInsert (f 0) tx i with
    | error e =>
      rw [hi] at h
      cases h
    | ok tx1 =>
      rw [hi] at h
      obtain ⟨hdocs, hopen⟩ := ih h
      unfold writeDocInsert at hi
      simp only [ensure_bind_ok] at hi
      obtain ⟨hsome, -, -, -, -, hi⟩ := hi
      obtain rfl := (Except.ok.inj hi).symm
      have hcollection : (db.keyspaces i.doc.collection).isSome := by
        cases hks : db.keyspaces i.doc.collection with
        | none => simp [hks] at hsome
        | some ks => rfl
      refine ⟨?_, List.forall_mem_cons.mpr ⟨hcollection, hopen⟩⟩
      rw [hdocs, List.flatMap_cons, ← List.append_assoc]
      rfl

theorem writeDocDeletes_writes {f : Nat → Faults} {db : Database} {tx tx' : Tx}
    {ds : List PreparedDocDelete} (h : db.writeDocDeletes f tx ds = .ok tx') :
    tx'.docs = tx.docs ++
      (ds.filter fun d => (db.keyspaces d.collection).isSome).flatMap (·.docWrites) := by
  induction ds generalizing f tx with
  | nil =>
    obtain rfl := Except.ok.inj h
    simp
  | cons d ds ih =>
    unfold writeDocDeletes at h
    cases hd : db.writeDocDelete (f 0) tx d with
    | error e =>
      rw [hd] at h
      cases h
    | ok tx1 =>
      rw [hd] at h
      rw [ih h]
      unfold writeDocDelete at hd
      cases hks : db.keyspaces d.collection with
      | none =>
        rw [hks, Option.isNone_none, if_pos rfl] at hd
        obtain rfl := Except.ok.inj hd
        simp [hks]
      | some ks =>
        rw [hks, if_neg (by simp)] at hd
        simp only [ensure_bind_ok] at hd
        obtain ⟨-, -, hd⟩ := hd
        obtain rfl := (Except.ok.inj hd).symm
        rw [List.filter_cons_of_pos (by simp [hks]), List.flatMap_cons, ← List.append_assoc]
        rfl

/-- The transaction of a batch has the writes of its inserts and then those of its deletes. -/
theorem batchTx_writes {f : BatchFaults} {db db' : Database} {prepared : PreparedBatch}
    {st : Collapsed} {tx : Tx} (h : db.batchTx f prepared st = (db', .ok tx)) :
    (∃ s : EdgeStore, db' = { db with edges := s }) ∧
      tx.docs = prepared.docInserts.flatMap (·.docWrites) ++
        (prepared.docDeletes.filter fun d => (db.keyspaces d.collection).isSome).flatMap
          (·.docWrites) ∧
      ∀ i ∈ prepared.docInserts, (db.keyspaces i.doc.collection).isSome := by
  unfold batchTx at h
  cases hins : (ensure f.writeTx >>= fun _ =>
      db.writeDocInserts f.insert .empty prepared.docInserts) with
  | error e =>
    rw [hins] at h
    cases congrArg Prod.snd h
  | ok tx1 =>
    rw [hins] at h
    dsimp only at h
    obtain ⟨hdocs1, hopen⟩ := writeDocInserts_writes (ensure_bind_ok.mp hins).2
    cases hdel : db.writeDocDeletes f.delete tx1 prepared.docDeletes with
    | error e =>
      rw [hdel] at h
      cases congrArg Prod.snd h
    | ok tx2 =>
      rw [hdel] at h
      dsimp only at h
      have hdocs2 := writeDocDeletes_writes hdel
      obtain ⟨s, -, hdb, htx⟩ := writeEdgeInserts_spec f.edgeInsert db tx2 st.edgeInserts
      rcases hedges : db.writeEdgeInserts f.edgeInsert tx2 st.edgeInserts with ⟨db1, e | tx3⟩
      · rw [hedges] at h
        cases congrArg Prod.snd h
      · rw [hedges] at h hdb htx
        obtain ⟨rfl, hlast⟩ := Prod.mk.inj h
        refine ⟨⟨s, hdb⟩, ?_, hopen⟩
        rw [(writeEdgeDeletes_spec hlast).1, (htx tx3 rfl).1, hdocs2, hdocs1]
        rfl

omit [External] in
/-- All writes that concern a document agree, and without one it is as it should be. -/
theorem findSome_getD {α β : Type} {g : α → Option β} {l : List α} {old x : β}
    (hagree : ∀ w ∈ l, g w = none ∨ g w = some x) (hold : (∀ w ∈ l, g w = none) → old = x) :
    (l.findSome? g).getD old = x := by
  cases hfound : l.findSome? g with
  | none => exact hold (List.findSome?_eq_none_iff.mp hfound)
  | some y =>
    obtain ⟨w, hw, hy⟩ := List.exists_of_findSome?_eq_some hfound
    rcases hagree w hw with hnone | hx
    · rw [hnone] at hy
      cases hy
    · rw [hx] at hy
      exact (Option.some.inj hy).symm

/-- A batch that commits leaves of each document what its operations say, if the documents that
were not found when they were to be deleted are not there now. -/
theorem commitBatch_getDocument {f : BatchFaults} {db db0 : Database} {prepared : PreparedBatch}
    {st : Collapsed} {ops : List WriteOp} (hnet : NetOf db0 ops st)
    (hprepared : PreparedFrom st.mutations prepared)
    (hmissing : ∀ m ∈ st.mutations, m.initialDoc = none → m.currentDoc = none →
      db.getDocument m.collection (utf8 m.key) = none)
    (hok : (db.commitBatch f prepared st).2 = .ok ()) (c k : String) :
    (db.commitBatch f prepared st).1.getDocument c (utf8 k) = lastDoc db ops c k := by
  replace hnet := hnet.of_any db
  unfold commitBatch at hok ⊢
  rcases htx : db.batchTx f prepared st with ⟨db', e | tx⟩
  · rw [htx] at hok
    cases hok
  rw [htx] at hok
  dsimp only at hok ⊢
  obtain ⟨⟨s, rfl⟩, hdocs, hopen⟩ := batchTx_writes htx
  cases hcommit : f.commit with
  | failed e =>
    rw [hcommit] at hok
    cases hok
  | conflict =>
    rw [hcommit] at hok
    cases hok
  | committed =>
    dsimp only
    -- where the writes come from
    have hinsert : ∀ i ∈ prepared.docInserts, ∃ m ∈ st.mutations, m.currentDoc = some i.doc := by
      intro i hi
      have hmem : i.doc ∈ st.mutations.filterMap (·.currentDoc) := by
        rw [← hprepared.inserts]
        exact List.mem_map_of_mem hi
      exact List.mem_filterMap.mp hmem
    have hdelete : ∀ d ∈ prepared.docDeletes, ∃ m ∈ st.mutations,
        m.removed = some (d.collection, d.key) := by
      intro d hd
      have hmem : (d.collection, d.key) ∈ st.mutations.filterMap (·.removed) := by
        rw [← hprepared.deletes]
        exact List.mem_map_of_mem (f := fun d : PreparedDocDelete => (d.collection, d.key)) hd
      exact List.mem_filterMap.mp hmem
    have hwrite : ∀ w ∈ tx.docs, (∃ i ∈ prepared.docInserts, w ∈ i.docWrites) ∨
        ∃ d ∈ prepared.docDeletes, (db.keyspaces d.collection).isSome ∧ w ∈ d.docWrites := by
      intro w hw
      rw [hdocs] at hw
      rcases List.mem_append.mp hw with hw | hw
      · exact Or.inl (List.mem_flatMap.mp hw)
      · obtain ⟨d, hd, hw⟩ := List.mem_flatMap.mp hw
        obtain ⟨hd, hsome⟩ := List.mem_filter.mp hd
        exact Or.inr ⟨d, hd, hsome, hw⟩
    have hks : ∀ w ∈ tx.docs, (({ db with edges := s } : Database).keyspaces w.collection).isSome := by
      intro w hw
      rcases hwrite w hw with ⟨i, hi, hw⟩ | ⟨d, -, hsome, hw⟩
      · rw [(mem_insert_docWrites hw c (utf8 k)).1]
        exact hopen i hi
      · rw [(mem_delete_docWrites hw c (utf8 k)).1]
        exact hsome
    rw [getDocument_eq, docs_commitTx _ _ _ _ hks, ← getDocument_eq]
    have hsame : (({ db with edges := s } : Database).getDocument c (utf8 k)) =
        db.getDocument c (utf8 k) := rfl
    rw [hsame]
    -- a write that concerns the document belongs to its mutation
    have hconcerns : ∀ w ∈ tx.docs, w.onDoc c (utf8 k) = none ∨
        ∃ m ∈ st.mutations, m.collection = c ∧ m.key = k ∧
          w.onDoc c (utf8 k) = some m.currentDoc := by
      intro w hw
      rcases hwrite w hw with ⟨i, hi, hw⟩ | ⟨d, hd, -, hw⟩
      · obtain ⟨m, hm, hcurrent⟩ := hinsert i hi
        obtain ⟨hmc, hmk⟩ := hnet.named m hm i.doc hcurrent
        refine (mem_insert_docWrites hw c (utf8 k)).2.imp_right fun ⟨hc, hk, hdoc⟩ => ?_
        refine ⟨m, hm, hmc ▸ hc, ?_, by rw [hcurrent, hdoc]⟩
        rw [← hmk]
        exact utf8_inj.mp hk
      · obtain ⟨m, hm, hremoved⟩ := hdelete d hd
        unfold PendingDocMutation.removed at hremoved
        split at hremoved
        · next hnone =>
          obtain ⟨hmc, hmk⟩ := Prod.mk.inj (Option.some.inj hremoved)
          have hcurrent : m.currentDoc = none := by
            simp only [Bool.and_eq_true, Option.isNone_iff_eq_none] at hnone
            exact hnone.1
          refine (mem_delete_docWrites hw c (utf8 k)).2.imp_right fun ⟨hc, hk, hdoc⟩ => ?_
          refine ⟨m, hm, hmc.trans hc, hmk.trans (utf8_inj.mp hk), by rw [hcurrent, hdoc]⟩
        · cases hremoved
    have hnodup : (st.mutations.map fun m => (m.collection, m.key)).Nodup := by
      rw [hnet.targets]
      exact touched_nodup ops
    by_cases htouched : (c, k) ∈ touched ops
    · rw [← hnet.targets] at htouched
      obtain ⟨m, hm, hck⟩ := List.mem_map.mp htouched
      obtain ⟨rfl, rfl⟩ := Prod.mk.inj hck
      rw [← hnet.current m hm]
      refine findSome_getD (fun w hw => ?_) fun hnone => ?_
      · refine (hconcerns w (List.mem_reverse.mp hw)).imp_right fun ⟨m', hm', hc, hk, hdoc⟩ => ?_
        have heq : m' = m := List.inj_on_of_nodup_map hnodup hm' hm (Prod.ext hc hk)
        rw [hdoc, heq]
      · -- no write: the mutation was dropped, or its collection is not there
        replace hnone : ∀ w ∈ tx.docs, w.onDoc m.collection (utf8 m.key) = none :=
          fun w hw => hnone w (List.mem_reverse.mpr hw)
        cases hcurrent : m.currentDoc with
        | some d =>
          obtain ⟨i, hi, rfl⟩ : ∃ i ∈ prepared.docInserts, i.doc = d := by
            have hmem : d ∈ prepared.docInserts.map (·.doc) := by
              rw [hprepared.inserts]
              exact List.mem_filterMap.mpr ⟨m, hm, hcurrent⟩
            exact List.mem_map.mp hmem
          obtain ⟨hmc, hmk⟩ := hnet.named m hm i.doc hcurrent
          have hput : DocWrite.putDoc i.doc ∈ tx.docs := by
            rw [hdocs]
            exact List.mem_append_left _ (List.mem_flatMap.mpr ⟨i, hi, List.mem_cons_self⟩)
          have hwritten := hnone _ hput
          rw [DocWrite.onDoc, if_pos ⟨hmc, congrArg utf8 hmk⟩] at hwritten
          cases hwritten
        | none =>
          cases hinitial : m.initialDoc with
          | none => exact hmissing m hm hinitial hcurrent
          | some old =>
            obtain ⟨d, hd, hdm⟩ : ∃ d ∈ prepared.docDeletes,
                (d.collection, d.key) = (m.collection, m.key) := by
              have hmem : (m.collection, m.key) ∈
                  prepared.docDeletes.map fun d => (d.collection, d.key) := by
                rw [hprepared.deletes]
                refine List.mem_filterMap.mpr ⟨m, hm, ?_⟩
                simp [PendingDocMutation.removed, hcurrent, hinitial]
              exact List.mem_map.mp hmem
            obtain ⟨hdc, hdk⟩ := Prod.mk.inj hdm
            cases hcol : db.keyspaces d.collection with
            | none =>
              rw [hdc] at hcol
              rw [getDocument, hcol]
              rfl
            | some ks =>
              have hremove : DocWrite.removeDoc d.collection (utf8 d.key) ∈ tx.docs := by
                rw [hdocs]
                refine List.mem_append_right _ (List.mem_flatMap.mpr ⟨d, ?_, List.mem_cons_self⟩)
                exact List.mem_filter.mpr ⟨hd, by rw [hcol]; rfl⟩
              have hwritten := hnone _ hremove
              rw [DocWrite.onDoc, if_pos ⟨hdc, congrArg utf8 hdk⟩] at hwritten
              cases hwritten
    · have hnone : ∀ w ∈ tx.docs.reverse, w.onDoc c (utf8 k) = none := by
        intro w hw
        rcases hconcerns w (List.mem_reverse.mp hw) with hnone | ⟨m, hm, hc, hk, -⟩
        · exact hnone
        · refine absurd ?_ htouched
          rw [← hnet.targets]
          exact List.mem_map.mpr ⟨m, hm, Prod.ext hc hk⟩
      rw [List.findSome?_eq_none_iff.mpr hnone, Option.getD_none, lastDoc]
      refine (docAfter_of_not_touched (fun op hop htarget => ?_) _).symm
      exact htouched (mem_touched.mpr ⟨op, hop, htarget⟩)

/-- A batch that succeeds has been committed by the storage engine. -/
theorem committed_of_commitBatch {f : BatchFaults} {db db' : Database} {prepared : PreparedBatch}
    {st : Collapsed} (h : db.commitBatch f prepared st = (db', .ok ())) : f.commit = .committed := by
  unfold commitBatch at h
  split at h
  · cases congrArg Prod.snd h
  · split at h
    · cases congrArg Prod.snd h
    · next hcommit => exact hcommit
    · cases congrArg Prod.snd h

/-- A batch that does not commit changes no document. -/
theorem commitBatch_same {f : BatchFaults} {db : Database} {prepared : PreparedBatch}
    {st : Collapsed} (hok : (db.commitBatch f prepared st).2 ≠ .ok ()) :
    SameDocuments db (db.commitBatch f prepared st).1 := by
  have hedges : SameDocuments db (db.batchTx f prepared st).1 := by
    unfold batchTx
    split
    · exact .refl db
    · split
      · exact .refl db
      · next tx _ =>
        obtain ⟨s, -, hdb, -⟩ := writeEdgeInserts_spec f.edgeInsert db tx st.edgeInserts
        rcases hins : db.writeEdgeInserts f.edgeInsert tx st.edgeInserts with ⟨db1, e | tx1⟩
        · rw [hins] at hdb
          obtain rfl : db1 = { db with edges := s } := hdb
          exact fun c k => rfl
        · rw [hins] at hdb
          obtain rfl : db1 = { db with edges := s } := hdb
          exact fun c k => rfl
  unfold commitBatch at hok ⊢
  rcases htx : db.batchTx f prepared st with ⟨db', e | tx⟩
  · rw [htx] at hedges
    exact hedges.trans (.of_relocks (rollbackConstraints_relocks ..))
  · rw [htx] at hedges hok
    dsimp only at hok ⊢
    cases hcommit : f.commit with
    | failed e => exact hedges.trans (.of_relocks (rollbackConstraints_relocks ..))
    | conflict => exact hedges.trans (.of_relocks (rollbackConstraints_relocks ..))
    | committed =>
      rw [hcommit] at hok
      exact absurd rfl hok

end Phases

end StellarDb
