import StellarDb.Transaction
import StellarDb.Transaction.Documents

/-!
# StellarDb — committing a transaction (`transaction/types.rs`)

`commit` makes one batch of the pending writes, the documents first, in the order in which the
maps hand them out. A failed batch leaves the transaction as it is; after a successful one the
buffers are empty.
-/

namespace StellarDb

open Keyspaces

namespace Transaction

def malformedKey (key : String) : TransactionError :=
  .internal ("malformed pending_writes key: expected 'doc:collection:key', got '" ++ key ++ "'")

/-- The operation of a pending document; a delete takes its document from the key. -/
def docOp (entry : Sigma fun _ : Bytes => PendingWrite Document) :
    Except TransactionError WriteOp :=
  match splitn 3 ':' (fromUtf8Lossy entry.1) with
  | ["doc", collection, key] =>
    match entry.2 with
    | .insert doc => .ok (.insertDoc doc)
    | .delete => .ok (.deleteDoc collection key)
  | _ => .error (malformedKey (fromUtf8Lossy entry.1))

def edgeOp (entry : Sigma fun _ : String × String × String => PendingWrite Edge) : WriteOp :=
  match entry.2 with
  | .insert edge => .insertEdge edge
  | .delete => .deleteEdge entry.1.1 entry.1.2.1 entry.1.2.2

/-- The operations of the batch. -/
def ops (order : IterOrder) (tx : Transaction) : Except TransactionError (List WriteOp) := do
  let docs ← (order.iter tx.pendingWrites.entries).mapM docOp
  return docs ++ (order.iter tx.pendingEdges.entries).map edgeOp

/-- A transaction with nothing pending. -/
def cleared (state : TransactionState) : Transaction := { new with state := state }

def commit [External] (f : BatchFaults) (order : IterOrder) (db : Database) (tx : Transaction) :
    (Database × Transaction) × Except TransactionError Unit :=
  if tx.state ≠ .active then ((db, tx), .error .alreadyCompleted)
  else
    match tx.ops order with
    | .error e => ((db, tx), .error e)
    | .ok ops =>
      match db.atomicWriteBatch f ops with
      | (db, .error e) => ((db, tx), .error (.storage e))
      | (db, .ok ()) => ((db, cleared .committed), .ok ())

end Transaction

end StellarDb
