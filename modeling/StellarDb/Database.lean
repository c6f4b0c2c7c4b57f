import StellarDb.Constraints.Unique
import StellarDb.Indexes.BTree
import StellarDb.Edges.Store

/-!
# StellarDb — the database (`storage/database.rs`)

The state is the keyspaces of every collection (documents, unique locks, existence markers),
the index definitions, the index keyspaces by physical name, and the edge store. The four
document writes share one shape:

1. claim and release unique locks, directly on the lock keyspace;
2. build a transaction (documents, markers, index entries, edges), any step of which may fail;
3. commit it; a failed step and a failed commit roll the locks back by walking the hand-overs
   the other way.

What the storage engine answers at each of these points is the oracle `Faults`, so a theorem
over all `Faults` covers every early return of the source.
-/

namespace StellarDb

open Keyspaces Ownership

/-! ## State -/

/-- The keyspaces of a collection. A document is stored under its own key. -/
structure CollectionKeyspaces where
  docs : Keyspace Document
  uniqueLocks : Keyspace Bytes
  /-- The `exists` keyspace. -/
  markers : Keyspace Unit
  keyed : ∀ (k : Bytes) (d : Document), docs[k]? = some d → d.keyBytes = k

namespace CollectionKeyspaces

/-- `create_keyspaces` for a new collection. -/
def empty : CollectionKeyspaces where
  docs := ∅
  uniqueLocks := ∅
  markers := ∅
  keyed := by simp

def putDoc (ks : CollectionKeyspaces) (doc : Document) : CollectionKeyspaces where
  docs := ks.docs.insert doc.keyBytes doc
  uniqueLocks := ks.uniqueLocks
  markers := ks.markers
  keyed := by
    intro k d hd
    rw [getElem?_insert_eq] at hd
    split at hd
    · next hk => rw [← Option.some.inj hd, hk]
    · exact ks.keyed k d hd

def removeDoc (ks : CollectionKeyspaces) (key : Bytes) : CollectionKeyspaces where
  docs := ks.docs.erase key
  uniqueLocks := ks.uniqueLocks
  markers := ks.markers
  keyed := by
    intro k d hd
    rw [getElem?_erase_eq] at hd
    split at hd
    · cases hd
    · exact ks.keyed k d hd

end CollectionKeyspaces

structure Database where
  keyspaces : String → Option CollectionKeyspaces
  /-- The registry of index definitions, by collection. -/
  indexes : String → List IndexDef
  /-- Index keyspaces, by physical name. -/
  indexKeyspaces : String → Keyspace Unit
  edges : EdgeStore

/-! ## Transactions -/

/-- A buffered write to the `docs` or `exists` keyspace of a collection. -/
inductive DocWrite where
  | putDoc (doc : Document)
  | removeDoc (collection : String) (key : Bytes)
  | putExists (collection : String) (key : Bytes)
  | removeExists (collection : String) (key : Bytes)

namespace DocWrite

def collection : DocWrite → String
  | .putDoc doc => doc.collection
  | .removeDoc c _ => c
  | .putExists c _ => c
  | .removeExists c _ => c

def applyTo (ks : CollectionKeyspaces) : DocWrite → CollectionKeyspaces
  | .putDoc doc => ks.putDoc doc
  | .removeDoc _ key => ks.removeDoc key
  | .putExists _ key => { ks with markers := ks.markers.insert key () }
  | .removeExists _ key => { ks with markers := ks.markers.erase key }

def apply (kss : String → Option CollectionKeyspaces) (w : DocWrite) :
    String → Option CollectionKeyspaces :=
  Function.update kss w.collection ((kss w.collection).map (w.applyTo ·))

end DocWrite

/-- The writes of a transaction, by kind of keyspace. -/
structure Tx where
  docs : List DocWrite
  index : List (String × Write Unit)
  edges : List (String × Write EdgeEntry)

namespace Tx

def empty : Tx := ⟨[], [], []⟩

def append (t u : Tx) : Tx := ⟨t.docs ++ u.docs, t.index ++ u.index, t.edges ++ u.edges⟩

end Tx

/-- How a commit ends. -/
inductive Commit where
  | committed
  | failed (e : StorageError)
  | conflict

/-- What the storage engine answers at each fallible point of a call; `none` is success. -/
structure Faults where
  ensureExists : Option StorageError
  saveMeta : Option StorageError
  read : Option StorageError
  writeTx : Option StorageError
  txGet : Option StorageError
  serialize : Option StorageError
  edges : Option StorageError
  btree : Option StorageError
  hnsw : Option StorageError
  job : Option StorageError
  commit : Commit

/-- Nothing fails. -/
def Faults.none : Faults where
  ensureExists := .none
  saveMeta := .none
  read := .none
  writeTx := .none
  txGet := .none
  serialize := .none
  edges := .none
  btree := .none
  hnsw := .none
  job := .none
  commit := .committed

/-- A transaction body of a call that returns `α`: it may leave with an early `return`. -/
abbrev Body (α : Type) := Except (Except StorageError α)

/-- `Err(err) => return Err(err)` -/
def attempt {α : Type} : Option StorageError → Body α Unit
  | some e => .error (.error e)
  | none => .ok ()

namespace Database

/-- Make a transaction's writes visible, all at once. -/
def commitTx (db : Database) (tx : Tx) : Database where
  keyspaces := tx.docs.foldl DocWrite.apply db.keyspaces
  indexes := db.indexes
  indexKeyspaces := applyNamed db.indexKeyspaces tx.index
  edges := { db.edges with keyspaces := applyNamed db.edges.keyspaces tx.edges }

/-- Create the keyspaces of a collection that does not exist yet. -/
def getOrCreateCollection (f : Faults) (db : Database) (name : String) :
    Database × Except StorageError Unit :=
  if (db.keyspaces name).isSome then (db, .ok ())
  else
    match validateName "collection" name with
    | .error e => (db, .error e)
    | .ok () =>
      match f.ensureExists with
      | some e => (db, .error e)
      | none =>
        let db := { db with keyspaces := Function.update db.keyspaces name (some .empty) }
        match f.saveMeta with
        | some e => (db, .error e)
        | none => (db, .ok ())

/-- A stored document; a collection that does not exist has none. -/
def getDocument (db : Database) (collection : String) (key : Bytes) : Option Document :=
  (db.keyspaces collection).bind fun ks => ks.docs[key]?

/-! ## Locks of a collection -/

/-- Replace the lock keyspace of a collection. -/
def setLocks (db : Database) (c : String) (locks : Keyspace Bytes) : Database :=
  { db with keyspaces :=
      Function.update db.keyspaces c ((db.keyspaces c).map ({ · with uniqueLocks := locks })) }

/-- The lock keyspace of a collection. -/
def locks (db : Database) (c : String) : Keyspace Bytes :=
  match db.keyspaces c with
  | some ks => ks.uniqueLocks
  | none => ∅

section Calls

variable [External]

def validateAndUpdate (db : Database) (c : String) (oldDoc newDoc : Option Document) :
    Database × Except StorageError Unit :=
  let r := StellarDb.validateAndUpdate (db.locks c) (db.indexes c) oldDoc newDoc
  (db.setLocks c r.1, r.2)

def rollbackValidateAndUpdate (db : Database) (c : String) (oldDoc newDoc : Option Document) :
    Database :=
  db.setLocks c
    (StellarDb.rollbackValidateAndUpdate (db.locks c) (db.indexes c) oldDoc newDoc)

/-- The end of every write: run the body and commit. An early return, a failed commit and a
conflict roll the constraints back. -/
def finish {α : Type} (db : Database) (c : String) (oldDoc newDoc : Option Document)
    (body : Body α Tx) (commit : Commit) (done : α) (conflict : Except StorageError α) :
    Database × Except StorageError α :=
  match body with
  | .error exit => (db.rollbackValidateAndUpdate c oldDoc newDoc, exit)
  | .ok tx =>
    match commit with
    | .failed e => (db.rollbackValidateAndUpdate c oldDoc newDoc, .error e)
    | .committed => (db.commitTx tx, .ok done)
    | .conflict => (db.rollbackValidateAndUpdate c oldDoc newDoc, conflict)

/-! ## Document writes -/

/-- The transaction of `set_document`; the marker is added for new documents only. -/
def setBody (f : Faults) (db : Database) (oldDoc : Option Document) (doc : Document) :
    Body Unit Tx := do
  attempt f.writeTx
  attempt f.serialize
  attempt f.btree
  attempt f.hnsw
  attempt f.job
  return {
    docs := .putDoc doc ::
      (if oldDoc.isNone then [.putExists doc.collection doc.keyBytes] else [])
    index := updateBTreeInTx (db.indexes doc.collection) doc.collection oldDoc (some doc)
    edges := [] }

/-- Store a document, creating the collection if needed. -/
def setDocument (f : Faults) (db : Database) (doc : Document) :
    Database × Except StorageError Unit :=
  match db.getOrCreateCollection f doc.collection with
  | (db, .error e) => (db, .error e)
  | (db, .ok ()) =>
    match db.keyspaces doc.collection with
    | none => (db, .error (.collectionNotLoaded "collection missing after creation"))
    | some ks =>
      match f.read with
      | some e => (db, .error e)
      | none =>
        let oldDoc := ks.docs[doc.keyBytes]?
        match db.validateAndUpdate doc.collection oldDoc (some doc) with
        | (db, .error e) => (db, .error e)
        | (db, .ok ()) =>
          db.finish doc.collection oldDoc (some doc) (db.setBody f oldDoc doc) f.commit ()
            (.error (.conflict "set_document write conflict"))

/-- The transaction of `create_document`: it leaves with `Ok(false)` if the document exists. -/
def createBody (f : Faults) (db : Database) (doc : Document) : Body Bool Tx := do
  attempt f.writeTx
  attempt f.txGet
  if (db.getDocument doc.collection doc.keyBytes).isSome then throw (.ok false)
  attempt f.serialize
  attempt f.btree
  attempt f.hnsw
  attempt f.job
  return {
    docs := [.putDoc doc, .putExists doc.collection doc.keyBytes]
    index := updateBTreeInTx (db.indexes doc.collection) doc.collection none (some doc)
    edges := [] }

/-- Create a document; `Ok(false)` if it exists. The constraint check does not know of a
stored document. -/
def createDocument (f : Faults) (db : Database) (doc : Document) :
    Database × Except StorageError Bool :=
  match db.getOrCreateCollection f doc.collection with
  | (db, .error e) => (db, .error e)
  | (db, .ok ()) =>
    match db.keyspaces doc.collection with
    | none => (db, .error (.collectionNotLoaded "collection missing after creation"))
    | some _ =>
      match db.validateAndUpdate doc.collection none (some doc) with
      | (db, .error e) => (db, .error e)
      | (db, .ok ()) =>
        db.finish doc.collection none (some doc) (db.createBody f doc) f.commit true (.ok false)

/-- The transaction of `update_document`: it checks once more that the document exists. -/
def updateBody (f : Faults) (db : Database) (oldDoc doc : Document) : Body Bool Tx := do
  attempt f.writeTx
  attempt f.txGet
  if (db.getDocument doc.collection doc.keyBytes).isNone then throw (.ok false)
  attempt f.serialize
  attempt f.btree
  attempt f.hnsw
  attempt f.job
  return {
    docs := [.putDoc doc]
    index := updateBTreeInTx (db.indexes doc.collection) doc.collection (some oldDoc) (some doc)
    edges := [] }

/-- Update a document; `Ok(false)` if it does not exist. -/
def updateDocument (f : Faults) (db : Database) (doc : Document) :
    Database × Except StorageError Bool :=
  match db.keyspaces doc.collection with
  | none => (db, .ok false)
  | some ks =>
    match f.read with
    | some e => (db, .error e)
    | none =>
      match ks.docs[doc.keyBytes]? with
      | none => (db, .ok false)
      | some oldDoc =>
        match db.validateAndUpdate doc.collection (some oldDoc) (some doc) with
        | (db, .error e) => (db, .error e)
        | (db, .ok ()) =>
          db.finish doc.collection (some oldDoc) (some doc) (db.updateBody f oldDoc doc)
            f.commit true (.ok false)

/-- The transaction of `delete_document`, with the removal of the node's edges. -/
def deleteBody (f : Faults) (db : Database) (collection key : String) (oldDoc : Document) :
    Body Bool Tx := do
  attempt f.writeTx
  attempt f.edges
  let removals ← match db.edges.deleteEdgesForNodeInTx (collection ++ ":" ++ key) with
    | .error e => throw (.error e)
    | .ok removals => pure removals
  attempt f.btree
  attempt f.job
  return {
    docs := [.removeDoc collection (utf8 key), .removeExists collection (utf8 key)]
    index := updateBTreeInTx (db.indexes collection) collection (some oldDoc) none
    edges := removals }

/-- Delete a document and its edges; `Ok(false)` if it does not exist. -/
def deleteDocument (f : Faults) (db : Database) (collection key : String) :
    Database × Except StorageError Bool :=
  match db.keyspaces collection with
  | none => (db, .ok false)
  | some ks =>
    match f.read with
    | some e => (db, .error e)
    | none =>
      match ks.docs[utf8 key]? with
      | none => (db, .ok false)
      | some oldDoc =>
        match db.edges.checkDeleteAllowed (collection ++ ":" ++ key) with
        | .error e => (db, .error e)
        | .ok () =>
          let db := db.setLocks collection
            (removeForDocument (db.locks collection) (db.indexes collection) oldDoc)
          db.finish collection (some oldDoc) none (db.deleteBody f collection key oldDoc)
            f.commit true (.ok false)

end Calls

/-! ## Edges -/

/-- The collection and the key of a document id. -/
def splitId (id : String) : Except StorageError (String × String) :=
  match splitOnce ':' id with
  | none => .error (.conflict ("Invalid document ID format: '" ++ id ++ "'"))
  | some parts => .ok parts

def loaded (db : Database) (collection : String) : Except StorageError CollectionKeyspaces :=
  match db.keyspaces collection with
  | none => .error (.notFound ("Collection '" ++ collection ++ "' does not exist"))
  | some ks => .ok ks

/-- Leave with the error, if there is one. -/
def ensure (fault : Option StorageError) : Except StorageError Unit :=
  match fault with
  | some e => .error e
  | none => .ok ()

/-- Both endpoints of the edge have an existence marker. `view` is the database as the
transaction sees it. -/
def validateEdgeEndpointsInTx (f : Faults) (view : Database) (edge : Edge) :
    Except StorageError Unit := do
  let src ← splitId edge.src
  let dst ← splitId edge.dst
  let srcKs ← view.loaded src.1
  let dstKs ← view.loaded dst.1
  ensure f.txGet
  ensure (if srcKs.markers[utf8 src.2]?.isNone then
    some (.notFound ("Source document '" ++ edge.src ++ "' does not exist")) else none)
  ensure f.edges
  ensure (if dstKs.markers[utf8 dst.2]?.isNone then
    some (.notFound ("Target document '" ++ edge.dst ++ "' does not exist")) else none)

/-- Create an edge between two stored documents. The edge type is defined at once. -/
def createEdgeValidated (f : Faults) (db : Database) (edge : Edge) :
    Database × Except StorageError Unit :=
  match f.writeTx with
  | some e => (db, .error e)
  | none =>
    match db.validateEdgeEndpointsInTx f edge with
    | .error e => (db, .error e)
    | .ok () =>
      match db.edges.createInTx edge with
      | (edges, .error e) => ({ db with edges := edges }, .error e)
      | (edges, .ok ws) =>
        let db := { db with edges := edges }
        match f.commit with
        | .failed e => (db, .error e)
        | .committed => (db.commitTx ⟨[], [], ws.map (Prod.mk edge.label)⟩, .ok ())
        | .conflict =>
          (db, .error (.notFound "Document was deleted during edge creation"))

end Database

end StellarDb
