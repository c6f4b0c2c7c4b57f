import StellarDb.Calls

/-!
# StellarDb — atomic batches (`storage/database/batch.rs`)

`atomic_write_batch` works in two phases.

1. *Prepare.* The document operations are collapsed, in the order in which a document is first
   touched, to one net mutation per document. Then each mutation walks the unique locks, as a
   document write does. A failed walk is rolled back, and after it all walks before it.
2. *Commit.* One transaction with the document inserts, the document deletes, the edge inserts
   and the edge deletes, in this order. Any failure rolls back all walks.

`rollbackConstraints` undoes the inserts in the order in which they were prepared and then the
deletes; each undo stops at its first refused claim.
-/

namespace StellarDb

open Keyspaces Ownership

inductive WriteOp where
  /-- Insert or replace a document. -/
  | insertDoc (doc : Document)
  /-- Insert a document only if its key does not already exist. -/
  | createDoc (doc : Document)
  | deleteDoc (collection key : String)
  | insertEdge (edge : Edge)
  | deleteEdge (src label dst : String)

/-! ## Prepared batches -/

structure PreparedDocInsert where
  doc : Document
  oldDoc : Option Document
  createOnly : Bool

/-- The version the constraint check starts from. -/
def PreparedDocInsert.constraintOldDoc (i : PreparedDocInsert) : Option Document :=
  if i.createOnly then none else i.oldDoc

structure PreparedDocDelete where
  collection : String
  key : String
  oldDoc : Option Document

structure PreparedBatch where
  docInserts : List PreparedDocInsert
  docDeletes : List PreparedDocDelete

/-- The net mutation of a document. -/
structure PendingDocMutation where
  collection : String
  key : String
  initialDoc : Option Document
  currentDoc : Option Document
  createOnly : Bool

/-- The mutation is about this document. -/
def PendingDocMutation.isOf (c key : String) (m : PendingDocMutation) : Bool :=
  m.collection = c && m.key = key

/-- A document takes the place of the current one. -/
def PendingDocMutation.put (m : PendingDocMutation) (doc : Document) (createOnly : Bool) :
    PendingDocMutation :=
  { m with
    createOnly := m.createOnly || (createOnly && m.initialDoc.isNone)
    currentDoc := some doc }

/-- Change the mutation of one document. -/
def modifyMutation (ms : List PendingDocMutation) (c key : String)
    (g : PendingDocMutation → PendingDocMutation) : List PendingDocMutation :=
  ms.map fun m => if m.isOf c key then g m else m

/-- The operations, collapsed: one mutation per document, and the edges. -/
structure Collapsed where
  mutations : List PendingDocMutation
  edgeInserts : List Edge
  edgeDeletes : List (String × String × String)

/-- What the storage engine answers during a batch: for each operation while collapsing, for
each mutation while preparing, for each write of the transaction, and at the commit. -/
structure BatchFaults where
  op : Nat → Faults
  mutation : Nat → Faults
  writeTx : Option StorageError
  insert : Nat → Faults
  delete : Nat → Faults
  edgeInsert : Nat → Faults
  edgeDelete : Nat → Option StorageError
  commit : Commit

/-- Nothing fails. -/
def BatchFaults.none : BatchFaults where
  op := fun _ => .none
  mutation := fun _ => .none
  writeTx := .none
  insert := fun _ => .none
  delete := fun _ => .none
  edgeInsert := fun _ => .none
  edgeDelete := fun _ => .none
  commit := .committed

/-- The answers from the second step on. -/
def shift {α : Type} (f : Nat → α) : Nat → α := fun n => f (n + 1)

namespace Database

/-! ## Collapsing -/

/-- The mutations with an entry for this document; the stored version is read at the first
touch. -/
def pend (f : Faults) (db : Database) (ms : List PendingDocMutation) (c key : String) :
    Except StorageError (List PendingDocMutation) :=
  if ms.any (·.isOf c key) then .ok ms
  else
    match f.read with
    | some e => .error e
    | none =>
      let initialDoc := db.getDocument c (utf8 key)
      .ok (ms ++ [⟨c, key, initialDoc, initialDoc, false⟩])

/-- `InsertDoc` and `CreateDoc`: the latter fails if the batch so far leaves a document. -/
def collapsePut (f : Faults) (db : Database) (st : Collapsed) (doc : Document)
    (createOnly : Bool) : Database × Except StorageError Collapsed :=
  match db.getOrCreateCollection f doc.collection with
  | (db, .error e) => (db, .error e)
  | (db, .ok ()) =>
    match db.pend f st.mutations doc.collection doc.key with
    | .error e => (db, .error e)
    | .ok ms =>
      if createOnly && ms.any (fun m => m.isOf doc.collection doc.key && m.currentDoc.isSome) then
        (db, .error (.alreadyExists doc.id))
      else
        (db, .ok { st with
          mutations := modifyMutation ms doc.collection doc.key (·.put doc createOnly) })

def collapseOp (f : Faults) (db : Database) (st : Collapsed) :
    WriteOp → Database × Except StorageError Collapsed
  | .insertDoc doc => db.collapsePut f st doc false
  | .createDoc doc => db.collapsePut f st doc true
  | .deleteDoc c key =>
    match db.pend f st.mutations c key with
    | .error e => (db, .error e)
    | .ok ms =>
      (db, .ok { st with mutations := modifyMutation ms c key ({ · with currentDoc := none }) })
  | .insertEdge edge => (db, .ok { st with edgeInserts := st.edgeInserts ++ [edge] })
  | .deleteEdge src label dst =>
    (db, .ok { st with edgeDeletes := st.edgeDeletes ++ [(src, label, dst)] })

def collapse (f : Nat → Faults) (db : Database) (st : Collapsed) :
    List WriteOp → Database × Except StorageError Collapsed
  | [] => (db, .ok st)
  | op :: ops =>
    match db.collapseOp (f 0) st op with
    | (db, .error e) => (db, .error e)
    | (db, .ok st) => db.collapse (shift f) st ops

section Constraints

variable [External]

/-! ## Preparing -/

/-- Undo the inserts, then the deletes, each in the order of preparation. -/
def rollbackConstraints (prepared : PreparedBatch) (db : Database) : Database :=
  prepared.docDeletes.foldl
    (fun db d =>
      match d.oldDoc with
      | some oldDoc => db.rollbackValidateAndUpdate d.collection (some oldDoc) none
      | none => db)
    (prepared.docInserts.foldl
      (fun db i => db.rollbackValidateAndUpdate i.doc.collection i.constraintOldDoc (some i.doc))
      db)

def prepareDocInsert (f : Faults) (db : Database) (prepared : PreparedBatch) (doc : Document)
    (createOnly : Bool) : Database × Except StorageError PreparedBatch :=
  match db.getOrCreateCollection f doc.collection with
  | (db, .error e) => (rollbackConstraints prepared db, .error e)
  | (db, .ok ()) =>
    match f.read with
    | some e => (rollbackConstraints prepared db, .error e)
    | none =>
      let insert : PreparedDocInsert :=
        ⟨doc, db.getDocument doc.collection doc.keyBytes, createOnly⟩
      if (db.keyspaces doc.collection).isNone then
        (rollbackConstraints prepared db, .error (.other "Collection not found after creation"))
      else
        match db.validateAndUpdate doc.collection insert.constraintOldDoc (some doc) with
        | (db, .error e) =>
          (rollbackConstraints prepared (db.rollbackValidateAndUpdate doc.collection
            insert.constraintOldDoc (some doc)), .error e)
        | (db, .ok ()) =>
          match f.hnsw with
          | some e =>
            (rollbackConstraints prepared (db.rollbackValidateAndUpdate doc.collection
              insert.constraintOldDoc (some doc)), .error e)
          | none => (db, .ok { prepared with docInserts := prepared.docInserts ++ [insert] })

def prepareDocDelete (f : Faults) (db : Database) (prepared : PreparedBatch)
    (c key : String) : Database × Except StorageError PreparedBatch :=
  match f.read with
  | some e => (rollbackConstraints prepared db, .error e)
  | none =>
    let oldDoc := db.getDocument c (utf8 key)
    let prepared := { prepared with docDeletes := prepared.docDeletes ++ [⟨c, key, oldDoc⟩] }
    match oldDoc with
    | some old => (db.setLocks c (removeForDocument (db.locks c) (db.indexes c) old), .ok prepared)
    | none => (db, .ok prepared)

def prepareMutation (f : Faults) (db : Database) (prepared : PreparedBatch)
    (m : PendingDocMutation) : Database × Except StorageError PreparedBatch :=
  match m.initialDoc, m.currentDoc with
  | _, some doc => db.prepareDocInsert f prepared doc m.createOnly
  | some _, none => db.prepareDocDelete f prepared m.collection m.key
  | none, none => (db, .ok prepared)

def prepareMutations (f : Nat → Faults) (db : Database) (prepared : PreparedBatch) :
    List PendingDocMutation → Database × Except StorageError PreparedBatch
  | [] => (db, .ok prepared)
  | m :: ms =>
    match db.prepareMutation (f 0) prepared m with
    | (db, .error e) => (db, .error e)
    | (db, .ok prepared) => db.prepareMutations (shift f) prepared ms

/-! ## The transaction -/

/-- A `CreateDoc` reads its key through the transaction. -/
def createConflict (f : Faults) (db : Database) (tx : Tx) (i : PreparedDocInsert) :
    Option StorageError :=
  if i.createOnly then
    match f.txGet with
    | some e => some e
    | none =>
      if ((db.commitTx tx).getDocument i.doc.collection i.doc.keyBytes).isSome then
        some (.alreadyExists i.doc.id)
      else none
  else none

/-- The writes of one insert, after those the transaction already has. -/
def writeDocInsert (f : Faults) (db : Database) (tx : Tx) (i : PreparedDocInsert) :
    Except StorageError Tx := do
  ensure (if (db.keyspaces i.doc.collection).isNone then
    some (.collectionNotLoaded "collection not found") else none)
  ensure (db.createConflict f tx i)
  ensure f.serialize
  ensure f.btree
  ensure f.job
  return tx.append {
    docs := .putDoc i.doc ::
      (if i.oldDoc.isNone then [.putExists i.doc.collection i.doc.keyBytes] else [])
    index := updateBTreeInTx (db.indexes i.doc.collection) i.doc.collection i.oldDoc (some i.doc)
    edges := [] }

def writeDocInserts (f : Nat → Faults) (db : Database) (tx : Tx) :
    List PreparedDocInsert → Except StorageError Tx
  | [] => .ok tx
  | i :: is => do
    let tx ← db.writeDocInsert (f 0) tx i
    db.writeDocInserts (shift f) tx is

def writeDocDelete (f : Faults) (db : Database) (tx : Tx) (d : PreparedDocDelete) :
    Except StorageError Tx :=
  if (db.keyspaces d.collection).isNone then .ok tx
  else do
    ensure (if d.oldDoc.isSome then f.btree else none)
    ensure (if d.oldDoc.isSome then f.job else none)
    return tx.append {
      docs := [.removeDoc d.collection (utf8 d.key), .removeExists d.collection (utf8 d.key)]
      index :=
        if d.oldDoc.isSome then
          updateBTreeInTx (db.indexes d.collection) d.collection d.oldDoc none
        else []
      edges := [] }

def writeDocDeletes (f : Nat → Faults) (db : Database) (tx : Tx) :
    List PreparedDocDelete → Except StorageError Tx
  | [] => .ok tx
  | d :: ds => do
    let tx ← db.writeDocDelete (f 0) tx d
    db.writeDocDeletes (shift f) tx ds

end Constraints

/-- The endpoint check sees the writes of the transaction; a new edge type is defined at
once. -/
def writeEdgeInserts (f : Nat → Faults) (db : Database) (tx : Tx) :
    List Edge → Database × Except StorageError Tx
  | [] => (db, .ok tx)
  | edge :: edges =>
    match (db.commitTx tx).validateEdgeEndpointsInTx (f 0) edge with
    | .error e => (db, .error e)
    | .ok () =>
      match db.edges.createInTx edge with
      | (store, .error e) => ({ db with edges := store }, .error e)
      | (store, .ok ws) =>
        writeEdgeInserts (shift f) { db with edges := store }
          (tx.append ⟨[], [], ws.map (Prod.mk edge.label)⟩) edges

def writeEdgeDeletes (f : Nat → Option StorageError) (db : Database) (tx : Tx) :
    List (String × String × String) → Except StorageError Tx
  | [] => .ok tx
  | (src, label, dst) :: ds => do
    ensure (f 0)
    let ws ← db.edges.deleteInTx (writesTo label tx.edges) src label dst
    db.writeEdgeDeletes (shift f) (tx.append ⟨[], [], ws.map (Prod.mk label)⟩) ds

section Constraints

variable [External]

/-- The transaction of a batch: documents before edges, inserts before deletes. -/
def batchTx (f : BatchFaults) (db : Database) (prepared : PreparedBatch) (st : Collapsed) :
    Database × Except StorageError Tx :=
  match ensure f.writeTx >>= fun _ => db.writeDocInserts f.insert .empty prepared.docInserts with
  | .error e => (db, .error e)
  | .ok tx =>
    match db.writeDocDeletes f.delete tx prepared.docDeletes with
    | .error e => (db, .error e)
    | .ok tx =>
      match db.writeEdgeInserts f.edgeInsert tx st.edgeInserts with
      | (db, .error e) => (db, .error e)
      | (db, .ok tx) => (db, db.writeEdgeDeletes f.edgeDelete tx st.edgeDeletes)

def commitBatch (f : BatchFaults) (db : Database) (prepared : PreparedBatch) (st : Collapsed) :
    Database × Except StorageError Unit :=
  match db.batchTx f prepared st with
  | (db, .error e) => (rollbackConstraints prepared db, .error e)
  | (db, .ok tx) =>
    match f.commit with
    | .failed e => (rollbackConstraints prepared db, .error e)
    | .committed => (db.commitTx tx, .ok ())
    | .conflict => (rollbackConstraints prepared db, .error (.conflict "batch write conflict"))

def atomicWriteBatch (f : BatchFaults) (db : Database) (ops : List WriteOp) :
    Database × Except StorageError Unit :=
  if ops.isEmpty then (db, .ok ())
  else
    match db.collapse f.op ⟨[], [], []⟩ ops with
    | (db, .error e) => (db, .error e)
    | (db, .ok st) =>
      match db.prepareMutations f.mutation ⟨[], []⟩ st.mutations with
      | (db, .error e) => (db, .error e)
      | (db, .ok prepared) => db.commitBatch f prepared st

end Constraints

end Database

end StellarDb
