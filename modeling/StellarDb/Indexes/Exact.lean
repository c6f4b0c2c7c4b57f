import StellarDb.Lib.Run
import StellarDb.Batch.Outcome

/-!
# StellarDb — BTree indexes and existence markers over serial runs

Every committed write is a sequence of *changes*: one version of a document replaced by
another, with the old index keys removed and the new ones added (`changeTx`). A change keeps
the existence markers exact, and it keeps the index keyspaces exact as long as no two indexes
share a keyspace. Indexes on `a.b` and on `a_b` do share one, because the generated index name
replaces the dot: removing the old key of one index then takes the key of the other away.
-/

namespace StellarDb

open Keyspaces Runs

section

variable [External]

namespace Database

/-! ## Exactness -/

/-- The index keyspaces hold exactly the keys of the stored documents. -/
def IndexExact (db : Database) : Prop :=
  ∀ c, ∀ i ∈ db.indexes c, i.indexType = .btree → ∀ k : Bytes,
    (db.indexKeyspaces (indexKeyspaceName c i.name))[k]? = some () ↔
      ∃ (key : Bytes) (d : Document), (db.docs c)[key]? = some d ∧ buildIndexKey d i.fields = some k

omit [External] in
/-- The markers are exactly the keys of the stored documents. -/
def MarkersExact (db : Database) : Prop :=
  ∀ c (k : Bytes), (db.markers c)[k]?.isSome = (db.docs c)[k]?.isSome

omit [External] in
/-- BTree indexes with the same physical name are the same index. -/
def DistinctNames (indexes : String → List IndexDef) : Prop :=
  ∀ c c', ∀ i ∈ indexes c, ∀ i' ∈ indexes c', i.indexType = .btree → i'.indexType = .btree →
    indexKeyspaceName c i.name = indexKeyspaceName c' i'.name → c = c' ∧ i.fields = i'.fields

/-! ## One change -/

/-- The transaction replaces the stored version of a document, as far as documents and indexes
are concerned. -/
structure Changes (db : Database) (tx : Tx) (c : String) (k : Bytes) (newDoc : Option Document) :
    Prop where
  docs : tx.docs = (changeTx (db.indexes c) c k (db.getDocument c k) newDoc).docs
  index : tx.index = (changeTx (db.indexes c) c k (db.getDocument c k) newDoc).index
  isSome : (db.keyspaces c).isSome
  named : ∀ d, newDoc = some d → d.collection = c ∧ d.keyBytes = k

variable {db : Database} {tx : Tx} {c : String} {k : Bytes} {newDoc : Option Document}

theorem Changes.collections (h : db.Changes tx c k newDoc) :
    ∀ w ∈ tx.docs, (db.keyspaces w.collection).isSome := by
  intro w hw
  rw [h.docs] at hw
  have hcol : w.collection = c := by
    cases hd : newDoc with
    | none =>
      simp only [changeTx, hd, List.mem_cons, List.not_mem_nil, or_false] at hw
      rcases hw with rfl | rfl <;> rfl
    | some d =>
      simp only [changeTx, hd, List.mem_cons] at hw
      rcases hw with rfl | hw
      · exact (h.named d hd).1
      · split at hw
        · rw [List.mem_singleton.mp hw]
          rfl
        · cases hw
  rw [hcol]
  exact h.isSome

/-- The document is the new version, all others are as before. -/
theorem Changes.docs_commitTx (h : db.Changes tx c k newDoc) (c' : String) (k' : Bytes) :
    ((db.commitTx tx).docs c')[k']? = if c = c' ∧ k = k' then newDoc else (db.docs c')[k']? := by
  rw [Database.docs_commitTx _ _ _ _ h.collections, h.docs]
  cases hd : newDoc with
  | none => by_cases hck : c = c' ∧ k = k' <;> simp [changeTx, DocWrite.onDoc, hck]
  | some d =>
    obtain ⟨rfl, rfl⟩ := h.named d hd
    simp only [changeTx]
    by_cases hck : d.collection = c' ∧ d.keyBytes = k'
    · split <;> simp [DocWrite.onDoc, hck]
    · split <;> simp [DocWrite.onDoc, hck]

/-- A change keeps the markers exact. -/
theorem Changes.markersExact (h : db.Changes tx c k newDoc) (hm : db.MarkersExact) :
    (db.commitTx tx).MarkersExact := by
  intro c' k'
  rw [h.docs_commitTx, Database.markers_commitTx _ _ _ _ h.collections, h.docs]
  cases hd : newDoc with
  | none =>
    by_cases hck : c = c' ∧ k = k'
    · simp [changeTx, DocWrite.onMarker, hck]
    · have hsame := hm c' k'
      simpa [changeTx, DocWrite.onMarker, hck] using hsame
  | some d =>
    have hsame := hm c' k'
    simp only [changeTx]
    by_cases hck : c = c' ∧ k = k'
    · obtain ⟨rfl, rfl⟩ := hck
      rw [getDocument_eq]
      -- the marker of a stored document is there already
      cases hold : (db.docs c)[k]? with
      | none => simp [DocWrite.onMarker]
      | some old =>
        rw [hold] at hsame
        simpa [DocWrite.onMarker] using hsame
    · split <;> simpa [DocWrite.onMarker, hck] using hsame

/-- Indexes on the same fields write the same entries. -/
theorem getElem?_flatMap_updateInTx {fields : List String} {js : List IndexDef}
    (hjs : ∀ j ∈ js, j.fields = fields) (hne : js ≠ []) (ks : Keyspace Unit)
    (oldDoc newDoc : Option Document) (key : Bytes) :
    (ks.applyWrites (js.flatMap fun j => updateInTx j.fields oldDoc newDoc))[key]? =
      if newDoc.bind (buildIndexKey · fields) = some key then some ()
      else if oldDoc.bind (buildIndexKey · fields) = some key then none
      else ks[key]? := by
  induction js generalizing ks with
  | nil => exact absurd rfl hne
  | cons j js ih =>
    rw [List.forall_mem_cons] at hjs
    rw [List.flatMap_cons, Keyspace.applyWrites_append, hjs.1]
    cases js with
    | nil => exact getElem?_updateInTx ..
    | cons j' js =>
      rw [ih hjs.2 (by simp), getElem?_updateInTx]
      split
      · rfl
      · split <;> rfl

/-- The keyspace of an index after a change. -/
theorem Changes.getElem?_index (h : db.Changes tx c k newDoc) (hn : DistinctNames db.indexes)
    {c' : String} {i : IndexDef} (hi : i ∈ db.indexes c') (hb : i.indexType = .btree) (key : Bytes) :
    ((db.commitTx tx).indexKeyspaces (indexKeyspaceName c' i.name))[key]? =
      if c = c' then
        if newDoc.bind (buildIndexKey · i.fields) = some key then some ()
        else if (db.docs c)[k]?.bind (buildIndexKey · i.fields) = some key then none
        else (db.indexKeyspaces (indexKeyspaceName c' i.name))[key]?
      else (db.indexKeyspaces (indexKeyspaceName c' i.name))[key]? := by
  show (applyNamed db.indexKeyspaces tx.index (indexKeyspaceName c' i.name))[key]? = _
  rw [applyNamed_apply, h.index]
  show ((db.indexKeyspaces _).applyWrites (writesTo _ (updateBTreeInTx (db.indexes c) c
    (db.getDocument c k) newDoc)))[key]? = _
  rw [writesTo_updateBTreeInTx, ← getDocument_eq]
  have hsame : ∀ j ∈ ((db.indexes c).filter (·.indexType = .btree)).filter
      (fun j => indexKeyspaceName c j.name = indexKeyspaceName c' i.name),
      c = c' ∧ j.fields = i.fields := by
    intro j hj
    simp only [List.mem_filter, decide_eq_true_eq] at hj
    exact hn c c' j hj.1.1 i hi hj.1.2 hb hj.2
  by_cases hc : c = c'
  · subst hc
    rw [if_pos rfl]
    have hmem : i ∈ ((db.indexes c).filter (·.indexType = .btree)).filter
        (fun j => indexKeyspaceName c j.name = indexKeyspaceName c i.name) := by
      simp [hi, hb]
    exact getElem?_flatMap_updateInTx (fun j hj => (hsame j hj).2) (List.ne_nil_of_mem hmem) ..
  · rw [if_neg hc]
    have hnil : ((db.indexes c).filter (·.indexType = .btree)).filter
        (fun j => indexKeyspaceName c j.name = indexKeyspaceName c' i.name) = [] :=
      List.eq_nil_iff_forall_not_mem.mpr fun j hj => hc (hsame j hj).1
    rw [hnil]
    rfl

/-- A change keeps the index keyspaces exact, if no two indexes share one. -/
theorem Changes.indexExact (h : db.Changes tx c k newDoc) (hn : DistinctNames db.indexes)
    (hexact : db.IndexExact) : (db.commitTx tx).IndexExact := by
  intro c' i hi hb key
  rw [h.getElem?_index hn hi hb]
  by_cases hc : c = c'
  · subst hc
    have hdocs : ∀ k', ((db.commitTx tx).docs c)[k']? = if k = k' then newDoc else (db.docs c)[k']? := by
      intro k'
      simp [h.docs_commitTx]
    simp only [if_true, hdocs]
    split
    · next hnew =>
      obtain ⟨d, hd, hkey⟩ := Option.bind_eq_some_iff.mp hnew
      exact ⟨fun _ => ⟨k, d, by rw [if_pos rfl]; exact hd, hkey⟩, fun _ => rfl⟩
    · next hnew =>
      -- the new version has another key: the entry is about some other document
      have hother : (∃ (k' : Bytes) (d : Document), (if k = k' then newDoc else (db.docs c)[k']?) = some d ∧
          buildIndexKey d i.fields = some key) ↔ ∃ (k' : Bytes) (d : Document), k ≠ k' ∧
          (db.docs c)[k']? = some d ∧ buildIndexKey d i.fields = some key := by
        refine exists_congr fun k' => exists_congr fun d => ?_
        by_cases hk : k = k'
        · have hne : ¬ (newDoc = some d ∧ buildIndexKey d i.fields = some key) := by
            rintro ⟨rfl, hkey⟩
            exact hnew hkey
          simpa [hk] using hne
        · simp [hk]
      rw [hother]
      split
      · next hold =>
        obtain ⟨old, hstored, hkey⟩ := Option.bind_eq_some_iff.mp hold
        refine ⟨fun h => (by cases h), ?_⟩
        rintro ⟨k', d, hk, hd, hkey'⟩
        refine absurd ?_ hk
        rw [← db.keyed hstored, ← db.keyed hd]
        exact buildIndexKey_docKey hkey hkey'
      · next hold =>
        rw [hexact c i hi hb]
        refine exists_congr fun k' => exists_congr fun d => ?_
        refine ⟨?_, fun h => h.2⟩
        rintro ⟨hd, hkey⟩
        refine ⟨?_, hd, hkey⟩
        rintro rfl
        exact hold (Option.bind_eq_some_iff.mpr ⟨d, hd, hkey⟩)
  · rw [if_neg hc, hexact c' i hi hb]
    simp [h.docs_commitTx, hc]

/-! ## Calls and batches -/

/-- Index entries and markers are exact. -/
structure Indexed (db : Database) : Prop where
  names : DistinctNames db.indexes
  index : db.IndexExact
  markers : db.MarkersExact

/-- A property that documents, markers and indexes decide, and that every change keeps. -/
structure KeptByChanges (P : Database → Prop) : Prop where
  of_same : ∀ {db db' : Database}, P db → (∀ c, db'.docs c = db.docs c) →
    (∀ c, db'.markers c = db.markers c) → db'.indexes = db.indexes →
    db'.indexKeyspaces = db.indexKeyspaces → P db'
  change : ∀ {db : Database} {tx : Tx} {c : String} {k : Bytes} {newDoc : Option Document},
    db.Changes tx c k newDoc → P db → P (db.commitTx tx)

theorem indexed_kept : KeptByChanges Indexed where
  of_same := by
    intro db db' hdb hdocs hmarkers hindexes hks
    refine ⟨?_, ?_, ?_⟩
    · rw [hindexes]
      exact hdb.names
    · intro c i hi hb key
      rw [hks, hdocs]
      rw [hindexes] at hi
      exact hdb.index c i hi hb key
    · intro c k
      rw [hmarkers, hdocs]
      exact hdb.markers c k
  change := fun h hdb => ⟨hdb.names, h.indexExact hdb.names hdb.index, h.markersExact hdb.markers⟩

theorem markersExact_kept : KeptByChanges MarkersExact where
  of_same := by
    intro db db' hdb hdocs hmarkers _ _ c k
    rw [hmarkers, hdocs]
    exact hdb c k
  change := fun h hdb => h.markersExact hdb

namespace KeptByChanges

variable {P : Database → Prop}

theorem opens (hP : KeptByChanges P) {db db' : Database} (h : db.Opens db') (hdb : P db) : P db' :=
  hP.of_same hdb h.docs h.markers h.indexes h.indexKeyspaces

theorem relocks (hP : KeptByChanges P) {db db' : Database} (h : db.Relocks db') (hdb : P db) :
    P db' :=
  hP.of_same hdb h.docs h.markers h.indexes h.indexKeyspaces

theorem withEdges (hP : KeptByChanges P) {db : Database} (hdb : P db) (s : EdgeStore) :
    P { db with edges := s } :=
  hP.of_same hdb (fun _ => rfl) (fun _ => rfl) rfl rfl

end KeptByChanges

end Database

open Database

/-- The transaction of a document write that commits is a change. -/
theorem DocCall.changes {f : Faults} {db : Database} {call : DocCall} (hreach : call.Reaches f db)
    (hcommits : call.Commits f db) (removals : List (String × Write EdgeEntry)) :
    db.Changes (call.tx db removals) call.collection call.key call.newDoc where
  docs := by
    have hold := hcommits.2.2
    have hchk := hreach.2.2
    rw [hold]
    cases call with
    | create doc => rfl
    | set doc => rfl
    | update doc =>
      have hsome : ((DocCall.update doc).oldDoc db).isNone = false := by
        rw [← Option.not_isSome]
        exact congrArg (! ·) hchk
      simp only [tx, docWrites, changeTx, DocCall.newDoc, hsome, Bool.false_eq_true, if_false]
    | delete c k => rfl
  index := by
    rw [hcommits.2.2]
    rfl
  isSome := hreach.1
  named := by
    intro d hd
    cases call <;> cases hd <;> exact ⟨rfl, rfl⟩

/-- A call keeps what every change keeps. -/
theorem DocCall.exec_kept {P : Database → Prop} (hP : KeptByChanges P) {db : Database} (hdb : P db)
    (f : Faults) (call : DocCall) : P (call.exec f db).1 := by
  obtain ⟨db0, hopen, hout⟩ := exec_outcome f db call
  have hdb0 := hP.opens hopen.opens hdb
  generalize call.exec f db = res at hout
  cases hout with
  | untouched r _ _ => exact hdb0
  | violated e _ _ => exact hP.relocks (Relocks.setLocks ..) hdb0
  | rolledBack r _ _ _ _ => exact hP.relocks (Relocks.setLocks ..) hdb0
  | committed removals hreach hv hcommits hrem =>
    have hchange := changes hreach hcommits removals
    refine hP.change (c := call.collection) (k := call.key) ⟨?_, ?_, ?_, hchange.named⟩
      (hP.relocks (Relocks.setLocks ..) hdb0)
    · rw [setLocks_getDocument]
      exact hchange.docs
    · rw [setLocks_getDocument]
      exact hchange.index
    · rw [setLocks_isSome]
      exact hchange.isSome

/-! ## Batches -/

omit [External] in
theorem Database.commitTx_append (db : Database) (t u : Tx) :
    db.commitTx (t.append u) = (db.commitTx t).commitTx u := by
  simp only [Database.commitTx, Tx.append, List.foldl_append, applyNamed_append]

/-- The document writes of a batch are the changes of its mutations, one after the other. -/
theorem commitTx_foldl (db : Database) (ms : List PendingDocMutation) (t : Tx) (db' : Database) :
    db'.commitTx (ms.foldl (fun tx m => tx.append (m.tx db)) t) =
      ms.foldl (fun db' m => db'.commitTx (m.tx db)) (db'.commitTx t) := by
  induction ms generalizing t with
  | nil => rfl
  | cons m ms ih => rw [List.foldl_cons, List.foldl_cons, ih, commitTx_append]

omit [External] in
theorem ValidMutations.of_cons {db : Database} {m : PendingDocMutation}
    {ms : List PendingDocMutation} (h : ValidMutations db (m :: ms)) : ValidMutations db ms where
  distinct := (List.pairwise_cons.mp h.distinct).2
  initial n hn := h.initial n (List.mem_cons_of_mem m hn)
  current n hn := h.current n (List.mem_cons_of_mem m hn)
  createOnly n hn := h.createOnly n (List.mem_cons_of_mem m hn)

/-- A change of one document leaves the mutations of the others valid. -/
theorem ValidMutations.of_change {db : Database} {m : PendingDocMutation}
    {ms : List PendingDocMutation} (h : ValidMutations db (m :: ms)) {tx : Tx}
    {newDoc : Option Document} (hchange : db.Changes tx m.collection (utf8 m.key) newDoc) :
    ValidMutations (db.commitTx tx) ms where
  distinct := h.of_cons.distinct
  initial n hn := by
    have hne := (List.pairwise_cons.mp h.distinct).1 n hn
    rw [h.of_cons.initial n hn, getDocument_eq, getDocument_eq, hchange.docs_commitTx, if_neg]
    rwa [utf8_inj]
  current n hn d hd := by
    obtain ⟨hc, hk, hsome⟩ := h.of_cons.current n hn d hd
    refine ⟨hc, hk, ?_⟩
    show (tx.docs.foldl DocWrite.apply db.keyspaces n.collection).isSome
    rw [DocWrite.isSome_foldl_apply]
    exact hsome
  createOnly := h.of_cons.createOnly

/-- The writes of a valid mutation are a change. -/
theorem ValidMutations.changes {db db' : Database} {m : PendingDocMutation}
    {ms : List PendingDocMutation} (hv : ValidMutations db' ms) (hm : m ∈ ms)
    (hindexes : db'.indexes = db.indexes)
    (hsome : ¬ (m.initialDoc = none ∧ m.currentDoc = none)) :
    db'.Changes (m.tx db) m.collection (utf8 m.key) m.currentDoc := by
  have htx : m.tx db = changeTx (db'.indexes m.collection) m.collection (utf8 m.key)
      (db'.getDocument m.collection (utf8 m.key)) m.currentDoc := by
    rw [PendingDocMutation.tx, if_neg (by simpa using hsome), hindexes, hv.initial m hm]
  refine ⟨by rw [htx], by rw [htx], ?_, ?_⟩
  · cases hd : m.currentDoc with
    | some d => exact (hv.current m hm d hd).2.2
    | none =>
      have hinit := hv.initial m hm
      cases hks : db'.keyspaces m.collection with
      | some ks => rfl
      | none => exact absurd ⟨by simpa [Database.getDocument, hks] using hinit, hd⟩ hsome
  · intro d hd
    obtain ⟨hc, hk, -⟩ := hv.current m hm d hd
    exact ⟨hc, by rw [Document.keyBytes, hk]⟩

/-- Valid mutations, each a change of the state the ones before it lead to. -/
theorem foldl_kept {P : Database → Prop} (hP : KeptByChanges P) {db : Database}
    (ms : List PendingDocMutation) {db' : Database} (hv : ValidMutations db' ms)
    (hindexes : db'.indexes = db.indexes) (hdb : P db') :
    P (ms.foldl (fun db' m => db'.commitTx (m.tx db)) db') := by
  induction ms generalizing db' with
  | nil => exact hdb
  | cons m ms ih =>
    have hm : m ∈ m :: ms := List.mem_cons_self
    rw [List.foldl_cons]
    by_cases hempty : m.initialDoc = none ∧ m.currentDoc = none
    · have htx : m.tx db = .empty := by simp [PendingDocMutation.tx, hempty]
      rw [htx]
      exact ih hv.of_cons hindexes hdb
    · have hchange := hv.changes hm hindexes hempty
      exact ih (hv.of_change hchange) hindexes (hP.change hchange hdb)

omit [External] in
theorem ValidMutations.of_inserts_first {db : Database} {ms : List PendingDocMutation}
    (h : ValidMutations db ms) : ValidMutations db
      (ms.filter (·.currentDoc.isSome) ++ ms.filter (! ·.currentDoc.isSome)) := by
  have hperm : (ms.filter (·.currentDoc.isSome) ++ ms.filter (! ·.currentDoc.isSome)).Perm ms :=
    List.filter_append_perm (fun m => m.currentDoc.isSome) ms
  refine ⟨?_, ?_, ?_, ?_⟩
  · refine (hperm.pairwise_iff ?_).mpr h.distinct
    rintro m n hne ⟨hc, hk⟩
    exact hne ⟨hc.symm, hk.symm⟩
  · exact fun m hm => h.initial m (hperm.mem_iff.mp hm)
  · exact fun m hm => h.current m (hperm.mem_iff.mp hm)
  · exact fun m hm => h.createOnly m (hperm.mem_iff.mp hm)

/-- The edge writes of a transaction do not matter. -/
theorem Database.KeptByChanges.commitTx_congr {P : Database → Prop} (hP : KeptByChanges P)
    {db : Database} {t u : Tx} (hdocs : t.docs = u.docs) (hindex : t.index = u.index)
    (h : P (db.commitTx u)) : P (db.commitTx t) := by
  refine hP.of_same h (fun c => ?_) (fun c => ?_) rfl ?_
  · simp only [Database.docs, Database.commitTx, hdocs]
  · simp only [Database.markers, Database.commitTx, hdocs]
  · simp only [Database.commitTx, hindex]

/-- A batch keeps what every change keeps. -/
theorem atomicWriteBatch_kept {P : Database → Prop} (hP : KeptByChanges P) {db : Database}
    (hdb : P db) (f : BatchFaults) (ops : List WriteOp) : P (db.atomicWriteBatch f ops).1 := by
  have hout := atomicWriteBatch_outcome f db ops
  generalize db.atomicWriteBatch f ops = res at hout
  cases hout with
  | empty _ => exact hdb
  | refused db1 e hopen _ => exact hP.opens hopen hdb
  | failed db1 st next e hc _ _ _ =>
    exact hP.relocks ((runLocks_relocks db1 next).trans (undoAllLocks_relocks _ next))
      (hP.opens hc.opens hdb)
  | undone db1 st next m e hc _ _ _ =>
    have hre := ((runLocks_relocks db1 next).trans (m.walkLocks_relocks _)).trans
      (m.undoLocks_relocks _)
    exact hP.relocks (hre.trans (undoAllLocks_relocks _ next)) (hP.opens hc.opens hdb)
  | rolledBack db1 st s e hc _ _ =>
    have hlocked := hP.relocks (runLocks_relocks db1 st.mutations) (hP.opens hc.opens hdb)
    exact hP.relocks (undoAllLocks_relocks _ st.mutations) (hP.withEdges hlocked s)
  | committed db1 st s tx hc _ _ _ hdocs hindex _ =>
    have hre := runLocks_relocks db1 st.mutations
    have hlocked := hP.withEdges (hP.relocks hre (hP.opens hc.opens hdb)) s
    refine hP.commitTx_congr hdocs hindex ?_
    rw [docTx, commitTx_foldl]
    have hv : ValidMutations { runLocks db1 st.mutations with edges := s } st.mutations := by
      have hv := hc.valid.of_relocks hre
      exact ⟨hv.distinct, hv.initial, hv.current, hv.createOnly⟩
    exact foldl_kept hP _ hv.of_inserts_first hre.indexes hlocked

/-! ## Serial runs -/

/-- A document write or a batch, with the answers of the storage engine. -/
inductive WriteStep where
  | call (f : Faults) (call : DocCall)
  | batch (f : BatchFaults) (ops : List WriteOp)

def WriteStep.exec (db : Database) : WriteStep → Database
  | .call f c => (c.exec f db).1
  | .batch f ops => (db.atomicWriteBatch f ops).1

def runWrites (db : Database) (steps : List WriteStep) : Database :=
  steps.foldl WriteStep.exec db

theorem WriteStep.exec_indexed {db : Database} (hdb : db.Indexed) (step : WriteStep) :
    (step.exec db).Indexed := by
  cases step with
  | call f c => exact c.exec_kept indexed_kept hdb f
  | batch f ops => exact atomicWriteBatch_kept indexed_kept hdb f ops

/-- A run keeps an indexed database indexed. -/
theorem runWrites_indexed {db : Database} (hdb : db.Indexed) (steps : List WriteStep) :
    (runWrites db steps).Indexed := by
  induction steps generalizing db with
  | nil => exact hdb
  | cons step steps ih => exact ih (step.exec_indexed hdb)

/-- Without two indexes in one keyspace, index entries and markers are exact after every step
of every run. -/
theorem runWrites_exact {db : Database} (hn : DistinctNames db.indexes) (hindex : db.IndexExact)
    (hmarkers : db.MarkersExact) (steps : List WriteStep) :
    ∀ done, done <+: steps →
      (runWrites db done).IndexExact ∧ (runWrites db done).MarkersExact := by
  have hrun : ∀ done, done <+: steps → (runWrites db done).Indexed :=
    foldl_invariant Indexed (P := fun _ _ => True) (fun _ step hdb _ => step.exec_indexed hdb)
      ⟨hn, hindex, hmarkers⟩ (Meets.of_forall (fun _ _ => trivial) db steps)
  exact fun done hdone => ⟨(hrun done hdone).index, (hrun done hdone).markers⟩

end

/-! ## Runs on an items collection -/

namespace Items

local instance : External := .standIn

/-- An item with a nested field `a.b`. -/
def nested : Document where
  id := "items:1"
  fields := [("a", .object [("b", .int 1)])]
  wf := by decide

/-- The same with a field `a_b` of the same value. -/
def both : Document where
  id := "items:1"
  fields := [("a", .object [("b", .int 1)]), ("a_b", .int 1)]
  wf := by decide

def nestedIndex : IndexDef := ⟨"idx_items_btree_a_b", ["a.b"], false, .btree⟩

def flatIndex : IndexDef := ⟨"idx_items_btree_a_b", ["a_b"], false, .btree⟩

/-- No collection yet; `items` has these indexes. -/
def fresh (indexes : List IndexDef) : Database where
  keyspaces _ := none
  indexes c := if c = "items" then indexes else []
  indexKeyspaces _ := ∅
  edges := ⟨[], fun _ => ∅⟩

theorem fresh_indexExact (indexes : List IndexDef) :
    (fresh indexes).IndexExact ∧ (fresh indexes).MarkersExact := by
  refine ⟨?_, fun c k => rfl⟩
  intro c i _ _ k
  have hdocs : (fresh indexes).docs c = ∅ := rfl
  have hks : (fresh indexes).indexKeyspaces (indexKeyspaceName c i.name) = ∅ := rfl
  simp [hdocs, hks]

/-- Create the item with both fields, then replace it in a batch. -/
def writes : List WriteStep :=
  [.call .none (.create both),
    .batch ⟨fun _ => .none, fun _ => .none, none, fun _ => .none, fun _ => .none, fun _ => .none,
      fun _ => none, .committed⟩ [.insertDoc nested]]

/-- One index: exact throughout. -/
theorem one_index_exact : (fresh [nestedIndex]).IndexExact ∧ (fresh [nestedIndex]).MarkersExact ∧
    ∀ done, done <+: writes → (runWrites (fresh [nestedIndex]) done).IndexExact ∧
      (runWrites (fresh [nestedIndex]) done).MarkersExact := by
  obtain ⟨hindex, hmarkers⟩ := fresh_indexExact [nestedIndex]
  refine ⟨hindex, hmarkers, runWrites_exact ?_ hindex hmarkers writes⟩
  have hone : ∀ c, ∀ i ∈ (fresh [nestedIndex]).indexes c, c = "items" ∧ i = nestedIndex := by
    intro c i hi
    by_cases hc : c = "items"
    · simpa [fresh, hc] using hi
    · simp [fresh, hc] at hi
  intro c c' i hi i' hi' _ _ _
  obtain ⟨rfl, rfl⟩ := hone c i hi
  obtain ⟨rfl, rfl⟩ := hone c' i' hi'
  exact ⟨rfl, rfl⟩

/-- Indexes on `a.b` and `a_b` have one keyspace: when the item loses `a_b`, the entry for `a.b`
goes as well. -/
theorem shared_keyspace_not_exact :
    (fresh [nestedIndex, flatIndex]).IndexExact ∧ (fresh [nestedIndex, flatIndex]).MarkersExact ∧
      ¬ (runWrites (fresh [nestedIndex, flatIndex]) writes).IndexExact := by
  obtain ⟨hindex, hmarkers⟩ := fresh_indexExact [nestedIndex, flatIndex]
  refine ⟨hindex, hmarkers, ?_⟩
  intro h
  have hentry := (h "items" nestedIndex (by decide) rfl
    (encodeIndexKey [.int 1] "1")).mpr ⟨utf8 "1", nested, by rfl, by rfl⟩
  revert hentry
  decide

end Items

end StellarDb
