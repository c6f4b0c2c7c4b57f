import StellarDb.Database

/-!
# StellarDb — what a document write can do

`DocCall` names the four document writes, so that one statement covers them and a list of
calls is a serial run. The inversion theorem `exec_outcome` says once what a call does to the
database, for every answer of the storage engine:

* nothing, apart from creating an empty collection (`untouched`);
* the lock walk was refused at some index and what came before it stays (`violated`);
* the lock walk went through and was rolled back (`rolledBack`);
* the lock walk went through and the transaction committed (`committed`).

Every invariant below is proved from these four cases; no later module unfolds a call.
-/

namespace StellarDb

open Keyspaces Ownership

namespace Database

/-! ## Views of the state -/

/-- The documents of a collection. -/
def docs (db : Database) (c : String) : Keyspace Document :=
  match db.keyspaces c with
  | some ks => ks.docs
  | none => ∅

/-- The existence markers of a collection. -/
def markers (db : Database) (c : String) : Keyspace Unit :=
  match db.keyspaces c with
  | some ks => ks.markers
  | none => ∅

theorem getDocument_eq (db : Database) (c : String) (k : Bytes) :
    db.getDocument c k = (db.docs c)[k]? := by
  unfold getDocument docs
  cases db.keyspaces c <;> simp

theorem keyed (db : Database) {c : String} {k : Bytes} {d : Document}
    (h : (db.docs c)[k]? = some d) : d.keyBytes = k := by
  unfold docs at h
  split at h
  · next ks _ => exact ks.keyed k d h
  · simp at h

section Locks

variable (db : Database) (c : String) (ls : Keyspace Bytes)

@[simp] theorem setLocks_indexes : (db.setLocks c ls).indexes = db.indexes := rfl

@[simp] theorem setLocks_indexKeyspaces :
    (db.setLocks c ls).indexKeyspaces = db.indexKeyspaces := rfl

@[simp] theorem setLocks_edges : (db.setLocks c ls).edges = db.edges := rfl

@[simp] theorem setLocks_docs (c' : String) : (db.setLocks c ls).docs c' = db.docs c' := by
  unfold docs setLocks
  by_cases hc : c' = c
  · subst hc
    cases db.keyspaces c' <;> simp
  · simp [Function.update_of_ne hc]

@[simp] theorem setLocks_markers (c' : String) :
    (db.setLocks c ls).markers c' = db.markers c' := by
  unfold markers setLocks
  by_cases hc : c' = c
  · subst hc
    cases db.keyspaces c' <;> simp
  · simp [Function.update_of_ne hc]

@[simp] theorem setLocks_isSome (c' : String) :
    ((db.setLocks c ls).keyspaces c').isSome = (db.keyspaces c').isSome := by
  unfold setLocks
  by_cases hc : c' = c
  · subst hc
    simp
  · simp [Function.update_of_ne hc]

theorem setLocks_locks (hc : (db.keyspaces c).isSome) (c' : String) :
    (db.setLocks c ls).locks c' = if c' = c then ls else db.locks c' := by
  unfold locks setLocks
  by_cases hcc : c' = c
  · subst hcc
    obtain ⟨ks, hks⟩ := Option.isSome_iff_exists.mp hc
    simp [hks]
  · simp [hcc]

theorem setLocks_setLocks (ls' : Keyspace Bytes) :
    (db.setLocks c ls).setLocks c ls' = db.setLocks c ls' := by
  unfold setLocks
  simp only [Function.update_self, Option.map_map, Function.update_idem]
  rfl

theorem setLocks_self (hc : (db.keyspaces c).isSome) : db.setLocks c (db.locks c) = db := by
  obtain ⟨ks, hks⟩ := Option.isSome_iff_exists.mp hc
  have hlocks : db.locks c = ks.uniqueLocks := by simp [locks, hks]
  unfold setLocks
  rw [hlocks, hks]
  have hup : Function.update db.keyspaces c (some ks) = db.keyspaces := by
    rw [← hks, Function.update_eq_self]
  exact congrArg (fun kss => { db with keyspaces := kss }) hup

@[simp] theorem setLocks_getDocument (c' : String) (k : Bytes) :
    (db.setLocks c ls).getDocument c' k = db.getDocument c' k := by
  rw [getDocument_eq, getDocument_eq, setLocks_docs]

end Locks

/-! ## Opening a collection -/

/-- The database with an empty collection added. -/
def openCollection (db : Database) (c : String) : Database :=
  { db with keyspaces := Function.update db.keyspaces c (some .empty) }

/-- The collection was there, or it was created empty. -/
def Opened (db : Database) (c : String) (db0 : Database) : Prop :=
  db0 = db ∨ db.keyspaces c = none ∧ db0 = db.openCollection c

namespace Opened

variable {db db0 : Database} {c : String}

theorem indexes (h : db.Opened c db0) : db0.indexes = db.indexes := by
  rcases h with rfl | ⟨-, rfl⟩ <;> rfl

theorem indexKeyspaces (h : db.Opened c db0) : db0.indexKeyspaces = db.indexKeyspaces := by
  rcases h with rfl | ⟨-, rfl⟩ <;> rfl

theorem edges (h : db.Opened c db0) : db0.edges = db.edges := by
  rcases h with rfl | ⟨-, rfl⟩ <;> rfl

theorem docs (h : db.Opened c db0) (c' : String) : db0.docs c' = db.docs c' := by
  rcases h with rfl | ⟨hnone, rfl⟩
  · rfl
  · unfold Database.docs openCollection
    by_cases hc : c' = c
    · subst hc
      simp [hnone, CollectionKeyspaces.empty]
    · simp [Function.update_of_ne hc]

theorem locks (h : db.Opened c db0) (c' : String) : db0.locks c' = db.locks c' := by
  rcases h with rfl | ⟨hnone, rfl⟩
  · rfl
  · unfold Database.locks openCollection
    by_cases hc : c' = c
    · subst hc
      simp [hnone, CollectionKeyspaces.empty]
    · simp [Function.update_of_ne hc]

theorem markers (h : db.Opened c db0) (c' : String) : db0.markers c' = db.markers c' := by
  rcases h with rfl | ⟨hnone, rfl⟩
  · rfl
  · unfold Database.markers openCollection
    by_cases hc : c' = c
    · subst hc
      simp [hnone, CollectionKeyspaces.empty]
    · simp [Function.update_of_ne hc]

theorem getDocument (h : db.Opened c db0) (c' : String) (k : Bytes) :
    db0.getDocument c' k = db.getDocument c' k := by
  rw [getDocument_eq, getDocument_eq, h.docs]

end Opened

theorem getOrCreateCollection_opened (f : Faults) (db : Database) (c : String) :
    db.Opened c (db.getOrCreateCollection f c).1 := by
  unfold getOrCreateCollection
  split
  · exact Or.inl rfl
  · next hnone =>
    have hc : db.keyspaces c = none := by simpa using hnone
    split
    · exact Or.inl rfl
    · split
      · exact Or.inl rfl
      · split
        · exact Or.inr ⟨hc, rfl⟩
        · exact Or.inr ⟨hc, rfl⟩

/-- If opening fails, there is no collection, or its metadata could not be saved. -/
theorem getOrCreateCollection_error {f : Faults} {db db0 : Database} {c : String}
    {e : StorageError} (h : db.getOrCreateCollection f c = (db0, .error e)) :
    db0.keyspaces c = none ∨ f.saveMeta ≠ none := by
  unfold getOrCreateCollection at h
  split at h
  · cases h
  · next hnone =>
    have hc : db.keyspaces c = none := by simpa using hnone
    split at h
    · cases h; exact Or.inl hc
    · split at h
      · cases h; exact Or.inl hc
      · cases hsave : f.saveMeta with
        | none => simp [hsave] at h
        | some e' => exact Or.inr (by simp)

end Database

/-! ## Effect of a commit -/

namespace DocWrite

/-- What a write says about the document under a key. -/
def onDoc (c : String) (k : Bytes) : DocWrite → Option (Option Document)
  | .putDoc doc => if doc.collection = c ∧ doc.keyBytes = k then some (some doc) else none
  | .removeDoc c' k' => if c' = c ∧ k' = k then some none else none
  | _ => none

/-- What a write says about the marker under a key. -/
def onMarker (c : String) (k : Bytes) : DocWrite → Option (Option Unit)
  | .putExists c' k' => if c' = c ∧ k' = k then some (some ()) else none
  | .removeExists c' k' => if c' = c ∧ k' = k then some none else none
  | _ => none

theorem isSome_apply (kss : String → Option CollectionKeyspaces) (w : DocWrite) (c : String) :
    (w.apply kss c).isSome = (kss c).isSome := by
  unfold DocWrite.apply
  by_cases hc : c = w.collection
  · subst hc
    simp
  · rw [Function.update_of_ne hc]

theorem isSome_foldl_apply (ws : List DocWrite) (kss : String → Option CollectionKeyspaces)
    (c : String) : (ws.foldl DocWrite.apply kss c).isSome = (kss c).isSome := by
  induction ws generalizing kss with
  | nil => rfl
  | cons w ws ih => rw [List.foldl_cons, ih, isSome_apply]

end DocWrite

namespace Database

@[simp] theorem commitTx_indexes (db : Database) (tx : Tx) :
    (db.commitTx tx).indexes = db.indexes := rfl

/-- No transaction touches the locks. -/
theorem commitTx_locks (db : Database) (tx : Tx) (c : String) :
    (db.commitTx tx).locks c = db.locks c := by
  have hstep : ∀ (kss : String → Option CollectionKeyspaces) (w : DocWrite),
      (w.apply kss c).map (·.uniqueLocks) = (kss c).map (·.uniqueLocks) := by
    intro kss w
    unfold DocWrite.apply
    by_cases hc : c = w.collection
    · subst hc
      rw [Function.update_self, Option.map_map]
      cases w <;> rfl
    · rw [Function.update_of_ne hc]
  have hfold : ∀ (ws : List DocWrite) (kss : String → Option CollectionKeyspaces),
      (ws.foldl DocWrite.apply kss c).map (·.uniqueLocks) = (kss c).map (·.uniqueLocks) := by
    intro ws
    induction ws with
    | nil => intro kss; rfl
    | cons w ws ih => intro kss; rw [List.foldl_cons, ih, hstep]
  have hview : ∀ db : Database, db.locks c =
      ((db.keyspaces c).map (·.uniqueLocks)).getD ∅ := by
    intro db
    unfold locks
    cases db.keyspaces c <;> rfl
  rw [hview, hview]
  exact congrArg (·.getD ∅) (hfold tx.docs db.keyspaces)

theorem docs_apply (db : Database) (w : DocWrite) (hks : (db.keyspaces w.collection).isSome)
    (c : String) (k : Bytes) :
    ({ db with keyspaces := w.apply db.keyspaces }.docs c)[k]? =
      (w.onDoc c k).getD (db.docs c)[k]? := by
  obtain ⟨ks, hsome⟩ := Option.isSome_iff_exists.mp hks
  by_cases hc : w.collection = c
  · subst hc
    have hnew : { db with keyspaces := w.apply db.keyspaces }.docs w.collection =
        (w.applyTo ks).docs := by
      simp [docs, DocWrite.apply, hsome]
    have hold : db.docs w.collection = ks.docs := by simp [docs, hsome]
    rw [hnew, hold]
    cases w with
    | putDoc doc =>
      show (ks.docs.insert doc.keyBytes doc)[k]? = _
      rw [getElem?_insert_eq]
      by_cases hk : doc.keyBytes = k <;> simp [DocWrite.onDoc, DocWrite.collection, hk]
    | removeDoc c' k' =>
      show (ks.docs.erase k')[k]? = _
      rw [getElem?_erase_eq]
      by_cases hk : k' = k <;> simp [DocWrite.onDoc, DocWrite.collection, hk]
    | putExists c' k' => rfl
    | removeExists c' k' => rfl
  · have hkss : w.apply db.keyspaces c = db.keyspaces c :=
      Function.update_of_ne (Ne.symm hc) _ _
    have hnone : w.onDoc c k = none := by
      cases w <;> simp_all [DocWrite.onDoc, DocWrite.collection]
    rw [hnone]
    simp [docs, hkss]

theorem markers_apply (db : Database) (w : DocWrite) (hks : (db.keyspaces w.collection).isSome)
    (c : String) (k : Bytes) :
    ({ db with keyspaces := w.apply db.keyspaces }.markers c)[k]? =
      (w.onMarker c k).getD (db.markers c)[k]? := by
  obtain ⟨ks, hsome⟩ := Option.isSome_iff_exists.mp hks
  by_cases hc : w.collection = c
  · subst hc
    have hnew : { db with keyspaces := w.apply db.keyspaces }.markers w.collection =
        (w.applyTo ks).markers := by
      simp [markers, DocWrite.apply, hsome]
    have hold : db.markers w.collection = ks.markers := by simp [markers, hsome]
    rw [hnew, hold]
    cases w with
    | putDoc doc => rfl
    | removeDoc c' k' => rfl
    | putExists c' k' =>
      show (ks.markers.insert k' ())[k]? = _
      rw [getElem?_insert_eq]
      by_cases hk : k' = k <;> simp [DocWrite.onMarker, DocWrite.collection, hk]
    | removeExists c' k' =>
      show (ks.markers.erase k')[k]? = _
      rw [getElem?_erase_eq]
      by_cases hk : k' = k <;> simp [DocWrite.onMarker, DocWrite.collection, hk]
  · have hkss : w.apply db.keyspaces c = db.keyspaces c :=
      Function.update_of_ne (Ne.symm hc) _ _
    have hnone : w.onMarker c k = none := by
      cases w <;> simp_all [DocWrite.onMarker, DocWrite.collection]
    rw [hnone]
    simp [markers, hkss]

/-- The last write to a document decides. -/
theorem docs_commitTx (db : Database) (tx : Tx) (c : String) (k : Bytes)
    (hks : ∀ w ∈ tx.docs, (db.keyspaces w.collection).isSome) :
    ((db.commitTx tx).docs c)[k]? =
      (tx.docs.reverse.findSome? (·.onDoc c k)).getD (db.docs c)[k]? := by
  show ({ db with keyspaces := tx.docs.foldl DocWrite.apply db.keyspaces }.docs c)[k]? = _
  revert hks
  induction tx.docs using List.reverseRecOn with
  | nil => intro _; rfl
  | append_singleton ws w ih =>
    intro hks
    have hws : ∀ w ∈ ws, (db.keyspaces w.collection).isSome :=
      fun w hw => hks w (List.mem_append_left _ hw)
    have hw : ((ws.foldl DocWrite.apply db.keyspaces) w.collection).isSome := by
      rw [DocWrite.isSome_foldl_apply]
      exact hks w (by simp)
    have hstep := docs_apply { db with keyspaces := ws.foldl DocWrite.apply db.keyspaces } w hw c k
    rw [ih hws] at hstep
    rw [List.foldl_append, List.reverse_append]
    refine hstep.trans ?_
    cases h : w.onDoc c k <;> simp [h]

/-- The last write to a marker decides. -/
theorem markers_commitTx (db : Database) (tx : Tx) (c : String) (k : Bytes)
    (hks : ∀ w ∈ tx.docs, (db.keyspaces w.collection).isSome) :
    ((db.commitTx tx).markers c)[k]? =
      (tx.docs.reverse.findSome? (·.onMarker c k)).getD (db.markers c)[k]? := by
  show ({ db with keyspaces := tx.docs.foldl DocWrite.apply db.keyspaces }.markers c)[k]? = _
  revert hks
  induction tx.docs using List.reverseRecOn with
  | nil => intro _; rfl
  | append_singleton ws w ih =>
    intro hks
    have hws : ∀ w ∈ ws, (db.keyspaces w.collection).isSome :=
      fun w hw => hks w (List.mem_append_left _ hw)
    have hw : ((ws.foldl DocWrite.apply db.keyspaces) w.collection).isSome := by
      rw [DocWrite.isSome_foldl_apply]
      exact hks w (by simp)
    have hstep := markers_apply { db with keyspaces := ws.foldl DocWrite.apply db.keyspaces } w hw c k
    rw [ih hws] at hstep
    rw [List.foldl_append, List.reverse_append]
    refine hstep.trans ?_
    cases h : w.onMarker c k <;> simp [h]

end Database

/-! ## Calls -/

inductive DocCall where
  | create (doc : Document)
  | set (doc : Document)
  | update (doc : Document)
  | delete (collection key : String)

namespace DocCall

def collection : DocCall → String
  | .create doc => doc.collection
  | .set doc => doc.collection
  | .update doc => doc.collection
  | .delete c _ => c

/-- The key of the document the call is about. -/
def key : DocCall → Bytes
  | .create doc => doc.keyBytes
  | .set doc => doc.keyBytes
  | .update doc => doc.keyBytes
  | .delete _ k => utf8 k

/-- The version to be stored. -/
def newDoc : DocCall → Option Document
  | .create doc => some doc
  | .set doc => some doc
  | .update doc => some doc
  | .delete _ _ => none

/-- The version the constraint check starts from: `create` does not look. -/
def oldDoc (db : Database) : DocCall → Option Document
  | .create _ => none
  | call => db.getDocument call.collection call.key

/-- The call gets to the constraint check. -/
def Checks (db : Database) : DocCall → Prop
  | .create _ => True
  | .set _ => True
  | .update doc => (db.getDocument doc.collection doc.keyBytes).isSome
  | .delete c k => (db.getDocument c (utf8 k)).isSome ∧
      db.edges.checkDeleteAllowed (c ++ ":" ++ k) = .ok ()

/-- The edge entries the call's transaction removes. -/
def Cascades (db : Database) (removals : List (String × Write EdgeEntry)) : DocCall → Prop
  | .delete c k => db.edges.deleteEdgesForNodeInTx (c ++ ":" ++ k) = .ok removals
  | _ => removals = []

/-- The stored version can be read, where the call reads it. -/
def Reads (f : Faults) : DocCall → Prop
  | .create _ => True
  | _ => f.read = none

/-- The collection is open, and nothing stops the call before its constraint check. -/
def Reaches (f : Faults) (db : Database) (call : DocCall) : Prop :=
  (db.keyspaces call.collection).isSome ∧ call.Reads f ∧ call.Checks db

/-- Every step of the transaction body succeeds. -/
def Clean (f : Faults) (db : Database) : DocCall → Prop
  | .create _ => f.writeTx = none ∧ f.txGet = none ∧ f.serialize = none ∧ f.btree = none ∧
      f.hnsw = none ∧ f.job = none
  | .set _ => f.writeTx = none ∧ f.serialize = none ∧ f.btree = none ∧ f.hnsw = none ∧
      f.job = none
  | .update _ => f.writeTx = none ∧ f.txGet = none ∧ f.serialize = none ∧ f.btree = none ∧
      f.hnsw = none ∧ f.job = none
  | .delete c k => f.writeTx = none ∧ f.edges = none ∧
      (∃ removals, db.edges.deleteEdgesForNodeInTx (c ++ ":" ++ k) = .ok removals) ∧
      f.btree = none ∧ f.job = none

/-- A call whose constraint check passes goes on to commit: nothing fails, and the version the
check started from is the stored one. -/
def Commits (f : Faults) (db : Database) (call : DocCall) : Prop :=
  call.Clean f db ∧ f.commit = .committed ∧
    db.getDocument call.collection call.key = call.oldDoc db

/-- The document and marker writes; an update leaves the marker alone. -/
def docWrites (db : Database) : DocCall → List DocWrite
  | .create doc => [.putDoc doc, .putExists doc.collection doc.keyBytes]
  | .set doc => .putDoc doc ::
      (if (db.getDocument doc.collection doc.keyBytes).isNone then
        [.putExists doc.collection doc.keyBytes] else [])
  | .update doc => [.putDoc doc]
  | .delete c k => [.removeDoc c (utf8 k), .removeExists c (utf8 k)]

section Exec

variable [External]

/-- Run a call; a successful `set_document` counts as `true`. -/
def exec (f : Faults) (db : Database) : DocCall → Database × Except StorageError Bool
  | .create doc => db.createDocument f doc
  | .set doc => ((db.setDocument f doc).1, (db.setDocument f doc).2.map fun _ => true)
  | .update doc => db.updateDocument f doc
  | .delete c k => db.deleteDocument f c k

/-- The transaction of the call. -/
def tx (db : Database) (removals : List (String × Write EdgeEntry)) (call : DocCall) : Tx where
  docs := call.docWrites db
  index := updateBTreeInTx (db.indexes call.collection) call.collection (call.oldDoc db)
    call.newDoc
  edges := removals

/-- The locks after the constraint check of the call, and whether it passed. -/
def validated (db : Database) (call : DocCall) : Keyspace Bytes × Except StorageError Unit :=
  validateAndUpdate (db.locks call.collection) (db.indexes call.collection) (call.oldDoc db)
    call.newDoc

/-- The locks after the rollback of a constraint check that passed. -/
def rolledBackLocks (db : Database) (call : DocCall) : Keyspace Bytes :=
  rollbackValidateAndUpdate (call.validated db).1 (db.indexes call.collection) (call.oldDoc db)
    call.newDoc

/-- What a call does to a database in which its collection is open. -/
inductive Outcome (f : Faults) (db : Database) (call : DocCall) :
    Database × Except StorageError Bool → Prop
  | untouched (r) (hwhy : f.saveMeta = none → ¬ call.Reaches f db) (hr : r ≠ .ok true) :
      Outcome f db call (db, r)
  | violated (e) (hreach : call.Reaches f db) (hv : (call.validated db).2 = .error e) :
      Outcome f db call (db.setLocks call.collection (call.validated db).1, .error e)
  | rolledBack (r) (hreach : call.Reaches f db) (hv : (call.validated db).2 = .ok ())
      (hfail : ¬ call.Commits f db) (hr : r ≠ .ok true) :
      Outcome f db call (db.setLocks call.collection (call.rolledBackLocks db), r)
  | committed (removals) (hreach : call.Reaches f db) (hv : (call.validated db).2 = .ok ())
      (hcommits : call.Commits f db) (hrem : call.Cascades db removals) :
      Outcome f db call
        ((db.setLocks call.collection (call.validated db).1).commitTx (call.tx db removals),
          .ok true)

/-! ## The inversion theorem -/

omit [External] in
theorem attempt_bind_ok {α β : Type} {fault : Option StorageError} {k : Unit → Body α β} {x : β} :
    (attempt fault >>= k) = .ok x ↔ fault = none ∧ k () = .ok x := by
  cases fault with
  | none => simp [attempt, bind, Except.bind]
  | some e => simp [attempt, bind, Except.bind]

omit [External] in
/-- A step that fails returns its error; otherwise the rest of the body decides. -/
theorem attempt_bind_error {α β : Type} {Q : Prop} {fault : Option StorageError}
    {k : Unit → Body α β} {r : Except StorageError α} (herr : ∀ e, r = .error e → Q)
    (h : (attempt fault >>= k) = .error r) (hk : k () = .error r → Q) : Q := by
  cases fault with
  | none => exact hk h
  | some e => exact herr e (Except.error.inj h).symm

theorem finish_cases {α : Type} (db : Database) (c : String) (oldDoc newDoc : Option Document)
    (body : Body α Tx) (commit : Commit) (done : α) (conflict : Except StorageError α) :
    (∃ tx, body = .ok tx ∧ commit = .committed ∧
      db.finish c oldDoc newDoc body commit done conflict = (db.commitTx tx, .ok done)) ∨
    ∃ r, (body = .error r ∨ commit ≠ .committed ∧ ((∃ e, r = .error e) ∨ r = conflict)) ∧
      db.finish c oldDoc newDoc body commit done conflict =
        (db.rollbackValidateAndUpdate c oldDoc newDoc, r) := by
  unfold Database.finish
  cases body with
  | error exit => exact Or.inr ⟨exit, Or.inl rfl, rfl⟩
  | ok tx =>
    cases commit with
    | committed => exact Or.inl ⟨tx, rfl, rfl, rfl⟩
    | failed e => exact Or.inr ⟨.error e, Or.inr ⟨by simp, Or.inl ⟨e, rfl⟩⟩, rfl⟩
    | conflict => exact Or.inr ⟨conflict, Or.inr ⟨by simp, Or.inr rfl⟩, rfl⟩

theorem createBody_ok_iff {f : Faults} {db : Database} {doc : Document} {t : Tx} :
    db.createBody f doc = .ok t ↔ (DocCall.create doc).Clean f db ∧
      db.getDocument doc.collection doc.keyBytes = none ∧ tx db [] (.create doc) = t := by
  unfold Database.createBody Clean
  simp only [attempt_bind_ok]
  by_cases hd : (db.getDocument doc.collection doc.keyBytes).isSome
  · have hne : db.getDocument doc.collection doc.keyBytes ≠ none := by
      intro h
      simp [h] at hd
    simp [hd, hne, throw, throwThe, MonadExceptOf.throw, bind, Except.bind]
  · have hnone : db.getDocument doc.collection doc.keyBytes = none := by simpa using hd
    simp only [hnone, Option.isSome_none, if_false, Bool.false_eq_true, attempt_bind_ok,
      true_and, and_assoc]
    simp only [pure, Except.pure, Except.ok.injEq]
    rfl

theorem createBody_error {f : Faults} {db : Database} {doc : Document}
    {r : Except StorageError Bool} (h : db.createBody f doc = .error r) : r ≠ .ok true := by
  have herr : ∀ e, r = .error e → r ≠ .ok true := by simp_all
  unfold Database.createBody at h
  refine attempt_bind_error herr h fun h => attempt_bind_error herr h fun h => ?_
  by_cases hd : (db.getDocument doc.collection doc.keyBytes).isSome
  · simp only [hd, if_true, throw, throwThe, MonadExceptOf.throw, bind, Except.bind] at h
    simp [← Except.error.inj h]
  · simp only [hd, if_false, Bool.false_eq_true] at h
    refine attempt_bind_error herr h fun h => attempt_bind_error herr h fun h =>
      attempt_bind_error herr h fun h => attempt_bind_error herr h fun h => ?_
    cases h

theorem setBody_ok_iff {f : Faults} {db : Database} {doc : Document} {t : Tx} :
    db.setBody f (db.getDocument doc.collection doc.keyBytes) doc = .ok t ↔
      (DocCall.set doc).Clean f db ∧ tx db [] (.set doc) = t := by
  unfold Database.setBody Clean
  simp only [attempt_bind_ok, and_assoc, pure, Except.pure, Except.ok.injEq]
  rfl

theorem setBody_error {f : Faults} {db : Database} {oldDoc : Option Document} {doc : Document}
    {r : Except StorageError Unit} (h : db.setBody f oldDoc doc = .error r) :
    ∃ e, r = .error e := by
  have herr : ∀ e, r = .error e → ∃ e, r = .error e := fun e he => ⟨e, he⟩
  unfold Database.setBody at h
  refine attempt_bind_error herr h fun h => attempt_bind_error herr h fun h =>
    attempt_bind_error herr h fun h => attempt_bind_error herr h fun h =>
    attempt_bind_error herr h fun h => ?_
  cases h

theorem updateBody_ok_iff {f : Faults} {db : Database} {oldDoc doc : Document} {t : Tx}
    (hold : db.getDocument doc.collection doc.keyBytes = some oldDoc) :
    db.updateBody f oldDoc doc = .ok t ↔
      (DocCall.update doc).Clean f db ∧ tx db [] (.update doc) = t := by
  have htx : tx db [] (.update doc) = ⟨[.putDoc doc], updateBTreeInTx (db.indexes doc.collection)
      doc.collection (some oldDoc) (some doc), []⟩ := by
    simp [tx, docWrites, DocCall.oldDoc, DocCall.collection, DocCall.key, DocCall.newDoc, hold]
  unfold Database.updateBody Clean
  simp only [attempt_bind_ok, hold, Option.isNone_some, Bool.false_eq_true, if_false, htx,
    and_assoc, pure, Except.pure, Except.ok.injEq]

theorem updateBody_error {f : Faults} {db : Database} {oldDoc doc : Document}
    {r : Except StorageError Bool} (h : db.updateBody f oldDoc doc = .error r) :
    r ≠ .ok true := by
  have herr : ∀ e, r = .error e → r ≠ .ok true := by simp_all
  unfold Database.updateBody at h
  refine attempt_bind_error herr h fun h => attempt_bind_error herr h fun h => ?_
  by_cases hd : (db.getDocument doc.collection doc.keyBytes).isNone
  · simp only [hd, if_true, throw, throwThe, MonadExceptOf.throw, bind, Except.bind] at h
    simp [← Except.error.inj h]
  · simp only [hd, if_false, Bool.false_eq_true] at h
    refine attempt_bind_error herr h fun h => attempt_bind_error herr h fun h =>
      attempt_bind_error herr h fun h => attempt_bind_error herr h fun h => ?_
    cases h

theorem deleteBody_ok_iff {f : Faults} {db : Database} {c k : String} {oldDoc : Document} {t : Tx}
    (hold : db.getDocument c (utf8 k) = some oldDoc) :
    db.deleteBody f c k oldDoc = .ok t ↔ (DocCall.delete c k).Clean f db ∧
      ∃ removals, (DocCall.delete c k).Cascades db removals ∧
        tx db removals (.delete c k) = t := by
  have htx : ∀ removals, tx db removals (.delete c k) =
      ⟨[.removeDoc c (utf8 k), .removeExists c (utf8 k)],
        updateBTreeInTx (db.indexes c) c (some oldDoc) none, removals⟩ := by
    intro removals
    simp [tx, docWrites, DocCall.oldDoc, DocCall.collection, DocCall.key, DocCall.newDoc, hold]
  unfold Database.deleteBody Clean Cascades
  simp only [attempt_bind_ok, htx]
  cases hrem : db.edges.deleteEdgesForNodeInTx (c ++ ":" ++ k) with
  | error e => simp [throw, throwThe, MonadExceptOf.throw, bind, Except.bind]
  | ok removals =>
    simp only [pure_bind, attempt_bind_ok, and_assoc, Except.ok.injEq, exists_eq', true_and,
      exists_eq_left']
    simp only [pure, Except.pure, Except.ok.injEq]

theorem deleteBody_error {f : Faults} {db : Database} {c k : String} {oldDoc : Document}
    {r : Except StorageError Bool} (h : db.deleteBody f c k oldDoc = .error r) :
    r ≠ .ok true := by
  have herr : ∀ e, r = .error e → r ≠ .ok true := by simp_all
  unfold Database.deleteBody at h
  refine attempt_bind_error herr h fun h => attempt_bind_error herr h fun h => ?_
  cases hrem : db.edges.deleteEdgesForNodeInTx (c ++ ":" ++ k) with
  | error e =>
    simp only [hrem, throw, throwThe, MonadExceptOf.throw, bind, Except.bind] at h
    simp [← Except.error.inj h]
  | ok removals =>
    simp only [hrem, pure_bind] at h
    refine attempt_bind_error herr h fun h => attempt_bind_error herr h fun h => ?_
    cases h

section SetLocks

variable (db : Database) (c : String) (ls : Keyspace Bytes) (call : DocCall)

omit [External] in
@[simp] theorem oldDoc_setLocks : call.oldDoc (db.setLocks c ls) = call.oldDoc db := by
  cases call <;> simp [DocCall.oldDoc]

omit [External] in
@[simp] theorem docWrites_setLocks : call.docWrites (db.setLocks c ls) = call.docWrites db := by
  cases call <;> simp [docWrites]

omit [External] in
@[simp] theorem clean_setLocks (f : Faults) :
    call.Clean f (db.setLocks c ls) ↔ call.Clean f db := by
  cases call <;> rfl

omit [External] in
@[simp] theorem cascades_setLocks (removals : List (String × Write EdgeEntry)) :
    call.Cascades (db.setLocks c ls) removals ↔ call.Cascades db removals := by
  cases call <;> rfl

@[simp] theorem tx_setLocks (removals : List (String × Write EdgeEntry)) :
    call.tx (db.setLocks c ls) removals = call.tx db removals := by
  simp [tx]

end SetLocks

/-- Rolling back right after the check only replaces the locks once more. -/
theorem rollback_validated (db : Database) (call : DocCall)
    (hks : (db.keyspaces call.collection).isSome) :
    (db.setLocks call.collection (call.validated db).1).rollbackValidateAndUpdate call.collection
        (call.oldDoc db) call.newDoc =
      db.setLocks call.collection (call.rolledBackLocks db) := by
  unfold Database.rollbackValidateAndUpdate rolledBackLocks
  rw [Database.setLocks_locks _ _ _ hks, if_pos rfl, Database.setLocks_setLocks,
    Database.setLocks_indexes]

omit [External] in
theorem exists_cascades {f : Faults} {db : Database} {call : DocCall} (h : call.Clean f db) :
    ∃ removals, call.Cascades db removals := by
  cases call with
  | delete c k => exact h.2.2.1
  | _ => exact ⟨[], rfl⟩

/-- A body that leaves or commits, after a constraint check that passed. -/
theorem finish_outcome {f : Faults} {db : Database} {call : DocCall} {body : Body Bool Tx}
    {conflict : Except StorageError Bool} (hreach : call.Reaches f db)
    (hv : (call.validated db).2 = .ok ())
    (hok : ∀ t, body = .ok t ↔ call.Clean f db ∧
      db.getDocument call.collection call.key = call.oldDoc db ∧
      ∃ removals, call.Cascades db removals ∧ call.tx db removals = t)
    (herr : ∀ r, body = .error r → r ≠ .ok true) (hconf : conflict ≠ .ok true) :
    Outcome f db call ((db.setLocks call.collection (call.validated db).1).finish call.collection
      (call.oldDoc db) call.newDoc body f.commit true conflict) := by
  rcases finish_cases (db.setLocks call.collection (call.validated db).1) call.collection
    (call.oldDoc db) call.newDoc body f.commit true conflict with
    ⟨t, ht, hcommit, hfin⟩ | ⟨r, hr, hfin⟩
  · obtain ⟨hclean, hstored, removals, hrem, rfl⟩ := (hok t).mp ht
    rw [hfin]
    exact .committed removals hreach hv ⟨hclean, hcommit, hstored⟩ hrem
  · rw [hfin, rollback_validated db call hreach.1]
    refine .rolledBack r hreach hv ?_ ?_
    · rintro ⟨hclean, hcommit, hstored⟩
      rcases hr with hr | ⟨hne, -⟩
      · obtain ⟨removals, hrem⟩ := exists_cascades hclean
        rw [(hok _).mpr ⟨hclean, hstored, removals, hrem, rfl⟩] at hr
        cases hr
      · exact hne hcommit
    · rcases hr with hr | ⟨-, ⟨e, rfl⟩ | rfl⟩
      · exact herr r hr
      · simp
      · exact hconf

theorem create_outcome (f : Faults) (db : Database) (doc : Document) :
    ∃ db0, db.Opened doc.collection db0 ∧
      Outcome f db0 (.create doc) (db.createDocument f doc) := by
  have hopen := Database.getOrCreateCollection_opened f db doc.collection
  unfold Database.createDocument
  rcases hg : db.getOrCreateCollection f doc.collection with ⟨db0, res⟩
  rw [hg] at hopen
  refine ⟨db0, hopen, ?_⟩
  cases res with
  | error e =>
    refine .untouched _ ?_ (by simp)
    rintro hsave ⟨hsome, -, -⟩
    rcases Database.getOrCreateCollection_error hg with hnone | hne
    · simp [DocCall.collection, hnone] at hsome
    · exact hne hsave
  | ok u =>
    cases hks : db0.keyspaces doc.collection with
    | none =>
      simp only [hks]
      exact .untouched _ (fun _ h => by simp [Reaches, DocCall.collection, hks] at h) (by simp)
    | some ks =>
      have hsome : (db0.keyspaces doc.collection).isSome := by simp [hks]
      have hval : db0.validateAndUpdate doc.collection none (some doc) =
          (db0.setLocks doc.collection ((DocCall.create doc).validated db0).1,
            ((DocCall.create doc).validated db0).2) := rfl
      simp only [hks]
      rw [hval]
      cases hv : ((DocCall.create doc).validated db0).2 with
      | error e => exact .violated e ⟨hsome, trivial, trivial⟩ hv
      | ok u =>
        refine finish_outcome ⟨hsome, trivial, trivial⟩ hv ?_ (fun r => createBody_error)
          (by simp)
        intro t
        rw [createBody_ok_iff, clean_setLocks, Database.setLocks_getDocument, tx_setLocks]
        simp [Cascades, DocCall.oldDoc, DocCall.collection, DocCall.key]

theorem set_outcome (f : Faults) (db : Database) (doc : Document) :
    ∃ db0, db.Opened doc.collection db0 ∧
      Outcome f db0 (.set doc) ((DocCall.set doc).exec f db) := by
  have hopen := Database.getOrCreateCollection_opened f db doc.collection
  rcases hset : db.setDocument f doc with ⟨db', r⟩
  have hexec : (DocCall.set doc).exec f db = (db', r.map fun _ => true) := by
    simp [exec, hset]
  rw [hexec]
  unfold Database.setDocument at hset
  rcases hg : db.getOrCreateCollection f doc.collection with ⟨db0, res⟩
  rw [hg] at hopen hset
  refine ⟨db0, hopen, ?_⟩
  cases res with
  | error e =>
    obtain ⟨rfl, rfl⟩ := Prod.mk.inj hset
    refine .untouched (.error e) ?_ (by simp)
    rintro hsave ⟨hsome, -, -⟩
    rcases Database.getOrCreateCollection_error hg with hnone | hne
    · simp [DocCall.collection, hnone] at hsome
    · exact hne hsave
  | ok u =>
    simp only at hset
    cases hks : db0.keyspaces doc.collection with
    | none =>
      rw [hks] at hset
      obtain ⟨rfl, rfl⟩ := Prod.mk.inj hset
      exact .untouched (.error _)
        (fun _ h => by simp [Reaches, DocCall.collection, hks] at h) (by simp)
    | some ks =>
      have hsome : (db0.keyspaces doc.collection).isSome := by simp [hks]
      have hold : ks.docs[doc.keyBytes]? = (DocCall.set doc).oldDoc db0 := by
        simp [DocCall.oldDoc, Database.getDocument, DocCall.collection, DocCall.key, hks]
      rw [hks] at hset
      cases hread : f.read with
      | some e =>
        simp only [hread] at hset
        obtain ⟨rfl, rfl⟩ := Prod.mk.inj hset
        exact .untouched (.error e) (fun _ h => by simp [Reaches, Reads, hread] at h) (by simp)
      | none =>
        have hval : db0.validateAndUpdate doc.collection ((DocCall.set doc).oldDoc db0)
            (some doc) = (db0.setLocks doc.collection ((DocCall.set doc).validated db0).1,
              ((DocCall.set doc).validated db0).2) := rfl
        simp only [hread, hold] at hset
        rw [hval] at hset
        cases hv : ((DocCall.set doc).validated db0).2 with
        | error e =>
          rw [hv] at hset
          obtain ⟨rfl, rfl⟩ := Prod.mk.inj hset
          exact .violated e ⟨hsome, hread, trivial⟩ hv
        | ok u =>
          rw [hv] at hset
          simp only at hset
          have hbody : ∀ t, (db0.setLocks doc.collection
              ((DocCall.set doc).validated db0).1).setBody f ((DocCall.set doc).oldDoc db0) doc =
                .ok t ↔ (DocCall.set doc).Clean f db0 ∧ tx db0 [] (.set doc) = t := by
            intro t
            rw [← tx_setLocks db0 doc.collection ((DocCall.set doc).validated db0).1,
              ← clean_setLocks db0 doc.collection ((DocCall.set doc).validated db0).1,
              ← setBody_ok_iff, Database.setLocks_getDocument]
            rfl
          rcases finish_cases (db0.setLocks doc.collection ((DocCall.set doc).validated db0).1)
            doc.collection ((DocCall.set doc).oldDoc db0) (some doc)
            (Database.setBody f _ ((DocCall.set doc).oldDoc db0) doc) f.commit ()
            (.error (.conflict "set_document write conflict")) with
            ⟨t, ht, hcommit, hfin⟩ | ⟨r', hr, hfin⟩
          · rw [hfin] at hset
            obtain ⟨rfl, rfl⟩ := Prod.mk.inj hset
            obtain ⟨hclean, rfl⟩ := (hbody t).mp ht
            exact .committed [] ⟨hsome, hread, trivial⟩ hv ⟨hclean, hcommit, rfl⟩ rfl
          · rw [hfin] at hset
            obtain ⟨rfl, rfl⟩ := Prod.mk.inj hset
            have herr : ∃ e, r' = .error e := by
              rcases hr with hr | ⟨-, hr | rfl⟩
              · exact setBody_error hr
              · exact hr
              · exact ⟨_, rfl⟩
            have hfail : ¬ (DocCall.set doc).Commits f db0 := by
              rintro ⟨hclean, hcommit, -⟩
              rcases hr with hr | ⟨hne, -⟩
              · rw [(hbody _).mpr ⟨hclean, rfl⟩] at hr
                cases hr
              · exact hne hcommit
            obtain ⟨e, rfl⟩ := herr
            have hrb := rollback_validated db0 (.set doc) hsome
            have hout : Outcome f db0 (.set doc) (_, .error e) :=
              .rolledBack (.error e) ⟨hsome, hread, trivial⟩ hv hfail (by simp)
            rw [← hrb] at hout
            exact hout

theorem update_outcome (f : Faults) (db : Database) (doc : Document) :
    Outcome f db (.update doc) (db.updateDocument f doc) := by
  unfold Database.updateDocument
  cases hks : db.keyspaces doc.collection with
  | none =>
    exact .untouched _ (fun _ h => by simp [Reaches, DocCall.collection, hks] at h) (by simp)
  | some ks =>
    have hsome : (db.keyspaces doc.collection).isSome := by simp [hks]
    cases hread : f.read with
    | some e => exact .untouched _ (fun _ h => by simp [Reaches, Reads, hread] at h) (by simp)
    | none =>
      cases hd : ks.docs[doc.keyBytes]? with
      | none =>
        simp only [hd]
        exact .untouched _
          (fun _ h => by simp [Reaches, Checks, Database.getDocument, hks, hd] at h) (by simp)
      | some oldDoc =>
        have hold : db.getDocument doc.collection doc.keyBytes = some oldDoc := by
          simp [Database.getDocument, hks, hd]
        have hold' : (DocCall.update doc).oldDoc db = some oldDoc := hold
        have hchk : (DocCall.update doc).Checks db := by
          show (db.getDocument doc.collection doc.keyBytes).isSome = true
          rw [hold]; rfl
        have hval : db.validateAndUpdate doc.collection (some oldDoc) (some doc) =
            (db.setLocks doc.collection ((DocCall.update doc).validated db).1,
              ((DocCall.update doc).validated db).2) := by
          unfold validated
          rw [hold']
          rfl
        simp only [hd]
        rw [hval]
        cases hv : ((DocCall.update doc).validated db).2 with
        | error e => exact .violated e ⟨hsome, hread, hchk⟩ hv
        | ok u =>
          rw [← hold']
          refine finish_outcome ⟨hsome, hread, hchk⟩ hv ?_ (fun r => updateBody_error) (by simp)
          intro t
          rw [updateBody_ok_iff (by simpa using hold), clean_setLocks, tx_setLocks]
          simp [Cascades, DocCall.oldDoc, DocCall.collection, DocCall.key]

theorem delete_outcome (f : Faults) (db : Database) (c k : String) :
    Outcome f db (.delete c k) (db.deleteDocument f c k) := by
  unfold Database.deleteDocument
  cases hks : db.keyspaces c with
  | none =>
    exact .untouched _ (fun _ h => by simp [Reaches, DocCall.collection, hks] at h) (by simp)
  | some ks =>
    have hsome : (db.keyspaces c).isSome := by simp [hks]
    cases hread : f.read with
    | some e => exact .untouched _ (fun _ h => by simp [Reaches, Reads, hread] at h) (by simp)
    | none =>
      cases hd : ks.docs[utf8 k]? with
      | none =>
        simp only [hd]
        exact .untouched _
          (fun _ h => by simp [Reaches, Checks, Database.getDocument, hks, hd] at h) (by simp)
      | some oldDoc =>
        have hold : db.getDocument c (utf8 k) = some oldDoc := by
          simp [Database.getDocument, hks, hd]
        have hold' : (DocCall.delete c k).oldDoc db = some oldDoc := hold
        have hval : (DocCall.delete c k).validated db =
            (removeForDocument (db.locks c) (db.indexes c) oldDoc, .ok ()) := by
          unfold validated
          rw [hold']
          exact removeForDocument_eq _ _ _
        simp only [hd]
        cases hrestrict : db.edges.checkDeleteAllowed (c ++ ":" ++ k) with
        | error e =>
          exact .untouched _ (fun _ h => by simp [Reaches, Checks, hrestrict] at h) (by simp)
        | ok u =>
          have hchk : (DocCall.delete c k).Checks db := ⟨by rw [hold]; rfl, hrestrict⟩
          have hv : ((DocCall.delete c k).validated db).2 = .ok () := by rw [hval]
          have hlocks : removeForDocument (db.locks c) (db.indexes c) oldDoc =
              ((DocCall.delete c k).validated db).1 := by rw [hval]
          simp only [hlocks]
          rw [← hold']
          refine finish_outcome ⟨hsome, hread, hchk⟩ hv ?_ (fun r => deleteBody_error) (by simp)
          intro t
          rw [deleteBody_ok_iff (by simpa using hold), clean_setLocks]
          simp [DocCall.oldDoc, DocCall.collection, DocCall.key]

/-- Everything a document write can do, whatever the storage engine answers. -/
theorem exec_outcome (f : Faults) (db : Database) (call : DocCall) :
    ∃ db0, db.Opened call.collection db0 ∧ Outcome f db0 call (call.exec f db) := by
  cases call with
  | create doc => exact create_outcome f db doc
  | set doc => exact set_outcome f db doc
  | update doc => exact ⟨db, Or.inl rfl, update_outcome f db doc⟩
  | delete c k => exact ⟨db, Or.inl rfl, delete_outcome f db c k⟩

/-! ## A storage engine that refuses transactions -/

omit [External] in
/-- Nothing fails except the start of the transaction. -/
def noTx (e : StorageError) : Faults := { Faults.none with writeTx := some e }

/-- Without transactions a call ends right after its constraint check, or its rollback. -/
theorem exec_noTx (e : StorageError) {db : Database} {call : DocCall}
    (hks : (db.keyspaces call.collection).isSome) (hchk : call.Checks db) :
    (call.exec (noTx e) db).2 ≠ .ok true ∧ (call.exec (noTx e) db).1 =
      db.setLocks call.collection (if (call.validated db).2 = .ok () then call.rolledBackLocks db
        else (call.validated db).1) := by
  obtain ⟨db0, hopen, hout⟩ := exec_outcome (noTx e) db call
  have hdb : db0 = db := by
    rcases hopen with rfl | ⟨hnone, -⟩
    · rfl
    · simp [hnone] at hks
  subst hdb
  revert hout
  generalize call.exec (noTx e) db0 = res
  intro hout
  cases hout with
  | untouched r hwhy _ =>
    have hreads : call.Reads (noTx e) := by cases call <;> trivial
    exact absurd ⟨hks, hreads, hchk⟩ (hwhy rfl)
  | violated e' _ hv => exact ⟨by simp, by rw [if_neg (by simp [hv])]⟩
  | rolledBack r _ hv _ hr => exact ⟨hr, by rw [if_pos hv]⟩
  | committed removals _ _ hcommits _ =>
    have hclean := hcommits.1
    cases call <;> exact absurd hclean.1 (by simp [noTx])

/-! ## Documents after a commit -/

omit [External] in
theorem collection_of_mem_docWrites {db : Database} {call : DocCall} {w : DocWrite}
    (h : w ∈ call.docWrites db) : w.collection = call.collection := by
  cases call with
  | set doc =>
    simp only [docWrites, List.mem_cons] at h
    rcases h with rfl | h
    · rfl
    · split at h
      · rw [List.mem_singleton.mp h]; rfl
      · cases h
  | _ =>
    simp only [docWrites, List.mem_cons, List.not_mem_nil, or_false] at h
    rcases h with rfl | rfl <;> rfl

/-- After the commit the call's document is the new version; all others are as before. -/
theorem docs_commitTx (db : Database) (call : DocCall) (removals : List (String × Write EdgeEntry))
    {db' : Database} (hks : (db'.keyspaces call.collection).isSome) (c : String) (k : Bytes) :
    ((db'.commitTx (call.tx db removals)).docs c)[k]? =
      if call.collection = c ∧ call.key = k then call.newDoc else (db'.docs c)[k]? := by
  rw [Database.docs_commitTx]
  · cases call with
    | set doc =>
      simp only [tx, docWrites]
      by_cases hd : doc.collection = c ∧ doc.keyBytes = k
      · split <;> simp [DocWrite.onDoc, collection, key, newDoc, hd]
      · split <;> simp [DocWrite.onDoc, collection, key, hd]
    | create doc =>
      by_cases hd : doc.collection = c ∧ doc.keyBytes = k
      · simp [tx, docWrites, DocWrite.onDoc, collection, key, newDoc, hd]
      · simp [tx, docWrites, DocWrite.onDoc, collection, key, hd]
    | update doc =>
      by_cases hd : doc.collection = c ∧ doc.keyBytes = k
      · simp [tx, docWrites, DocWrite.onDoc, collection, key, newDoc, hd]
      · simp [tx, docWrites, DocWrite.onDoc, collection, key, hd]
    | delete c' k' =>
      by_cases hd : c' = c ∧ utf8 k' = k
      · simp [tx, docWrites, DocWrite.onDoc, collection, key, newDoc, hd]
      · simp [tx, docWrites, DocWrite.onDoc, collection, key, hd]
  · intro w hw
    rw [collection_of_mem_docWrites hw]
    exact hks

end Exec

end DocCall

end StellarDb
