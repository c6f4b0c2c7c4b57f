import StellarDb.Batch
import StellarDb.Indexes.Scan

/-!
# StellarDb — explicit transactions (`transaction/types.rs`, `transaction/context_impl.rs`)

A transaction buffers its writes and reads through the buffer:

* documents in a hash map under the text `doc:{collection}:{key}`, edges in a hash map under
  `(from, label, to)`, each with the version to store or a delete marker;
* the ids of the deleted documents in a set of their own, which the index scans ask.

Every read first asks storage and then merges the buffer in. A map is handed out in an order
of its own (`IterOrder`), so a theorem over all orders covers every state of the hasher.
Reads of storage do not fail here, and stored bytes are read back as they were written.
-/

namespace StellarDb

open Keyspaces

/-! ## State -/

/-- A pending write. -/
inductive PendingWrite (α : Type) where
  /-- Insert or update. -/
  | insert (a : α)
  | delete

inductive TransactionState where
  | active
  | committed
  | rolledBack
  deriving DecidableEq, Repr

inductive TransactionError where
  | conflict
  | timeout
  | alreadyCompleted
  | noActiveTransaction
  | storage (e : StorageError)
  | internal (msg : String)
  deriving DecidableEq, Repr

/-- Key of a document in the pending writes. -/
def encodeDocKey (collection key : String) : Bytes :=
  utf8 ("doc:" ++ collection ++ ":" ++ key)

/-- The key belongs to the document that the write is about. -/
def PendingWrite.NamedBy (key : Bytes) : PendingWrite Document → Prop
  | .insert doc => key = encodeDocKey doc.collection doc.key
  | .delete => ∃ collection k, key = encodeDocKey collection k

structure Transaction where
  pendingWrites : AList fun _ : Bytes => PendingWrite Document
  pendingEdges : AList fun _ : String × String × String => PendingWrite Edge
  /-- Ids of deleted documents, in the form `collection:key`. -/
  pendingDeletes : Finset String
  state : TransactionState
  named : ∀ key w, pendingWrites.lookup key = some w → w.NamedBy key
  edgesNamed : ∀ ends edge, pendingEdges.lookup ends = some (.insert edge) →
    ends = (edge.src, edge.label, edge.dst)

/-- `s.starts_with(p)` -/
def startsWith (s p : String) : Bool := p.toList.isPrefixOf s.toList

/-- `s.splitn(n, c)` -/
def splitn : Nat → Char → String → List String
  | 0, _, _ => []
  | 1, _, s => [s]
  | n + 2, c, s =>
    match splitOnce c s with
    | some (head, rest) => head :: splitn (n + 1) c rest
    | none => [s]

/-! ## Listing stored documents (`storage/documents/store.rs`) -/

/-- A page of a collection in key order. The cursor is the key of the last document. -/
def Database.listDocuments (db : Database) (collection : String) (after : Option String)
    (limit : Nat) : List Document × Option String :=
  match db.keyspaces collection with
  | none => ([], none)
  | some ks =>
    let items : List (Bytes × Document) :=
      match after with
      | some cursor => (ks.docs.toList.filter fun e => (compare (utf8 cursor) e.1).isLE).drop 1
      | none => ks.docs.toList
    let docs := (items.take (limit + 1)).map (·.2)
    if limit < docs.length then (docs.dropLast, docs.dropLast.getLast?.map (·.key))
    else (docs, none)

namespace Transaction

def new : Transaction where
  pendingWrites := ∅
  pendingEdges := ∅
  pendingDeletes := ∅
  state := .active
  named := by simp
  edgesNamed := by simp

def ensureActive (tx : Transaction) : Except TransactionError Unit :=
  if tx.state ≠ .active then .error .alreadyCompleted else .ok ()

/-! ## Documents -/

/-- Check if a document is marked for deletion. -/
def isPendingDelete (tx : Transaction) (docId : String) : Bool := docId ∈ tx.pendingDeletes

/-- The pending inserts whose key starts with the collection. -/
def pendingInsertsForCollection (order : IterOrder) (tx : Transaction) (collection : String) :
    List Document :=
  (order.iter tx.pendingWrites.entries).filterMap fun entry =>
    if startsWith (fromUtf8Lossy entry.1) ("doc:" ++ collection ++ ":") then
      match entry.2 with
      | .insert doc => some doc
      | .delete => none
    else none

/-- Get a document, checking pending writes first. -/
def get (tx : Transaction) (db : Database) (collection key : String) :
    Except TransactionError (Option Document) := do
  tx.ensureActive
  match tx.pendingWrites.lookup (encodeDocKey collection key) with
  | some (.insert doc) => return some doc
  | some .delete => return none
  | none => return db.getDocument collection (utf8 key)

/-- Put a write in the buffer. -/
def pend (tx : Transaction) (key : Bytes) (w : PendingWrite Document) (hw : w.NamedBy key)
    (deletes : Finset String) : Transaction where
  pendingWrites := tx.pendingWrites.insert key w
  pendingEdges := tx.pendingEdges
  pendingDeletes := deletes
  state := tx.state
  named := by
    intro k v hv
    by_cases hk : k = key
    · subst hk
      rw [AList.lookup_insert, Option.some_inj] at hv
      exact hv ▸ hw
    · rw [AList.lookup_insert_ne hk] at hv
      exact tx.named k v hv
  edgesNamed := tx.edgesNamed

def insert (tx : Transaction) (doc : Document) : Except TransactionError Transaction := do
  tx.ensureActive
  return tx.pend (encodeDocKey doc.collection doc.key) (.insert doc) rfl
    (tx.pendingDeletes.erase doc.id)

/-- Update a document: full replacement. -/
def update (tx : Transaction) (doc : Document) : Except TransactionError Transaction :=
  tx.insert doc

def delete (tx : Transaction) (collection key : String) : Except TransactionError Transaction := do
  tx.ensureActive
  return tx.pend (encodeDocKey collection key) .delete ⟨collection, key, rfl⟩
    (Insert.insert (collection ++ ":" ++ key) tx.pendingDeletes)

/-- How many documents of a collection a listing reads from storage. -/
def listedFromStorage : Nat := 10000

/-- Stored documents that the transaction has not written, and the pending inserts, sorted by
key. -/
def mergedDocuments (order : IterOrder) (tx : Transaction) (db : Database) (collection : String) :
    List Document :=
  let stored := (db.listDocuments collection none listedFromStorage).1
  let untouched := stored.filter fun doc =>
    (tx.pendingWrites.lookup (encodeDocKey collection doc.key)).isNone
  (untouched ++ tx.pendingInsertsForCollection order collection).mergeSort
    fun a b => (compare a.keyBytes b.keyBytes).isLE

/-- A page, behind the document with the cursor's key. The whole list is built for each page;
its limit of `usize::MAX - 1` is above the length of any `Vec`. -/
def listDocumentsPaged (order : IterOrder) (tx : Transaction) (db : Database)
    (collection : String) (after : Option String) (limit : Nat) :
    Except TransactionError (List Document × Option String) := do
  tx.ensureActive
  let all := tx.mergedDocuments order db collection
  let start :=
    match after with
    | some cursor =>
      match all.findIdx? fun d => d.key = cursor with
      | some i => i + 1
      | none => all.length
    | none => 0
  let page := (all.drop start).take limit
  return (page, if page.length = limit then page.getLast?.map (·.key) else none)

/-- The documents under the last segment of each id, missing ones skipped. -/
def getDocumentsByIds (tx : Transaction) (db : Database) (collection : String) :
    List String → Except TransactionError (List Document)
  | [] => .ok []
  | id :: ids => do
    let doc ← tx.get db collection ((splitChar ':' id).getLast?.getD id)
    let docs ← tx.getDocumentsByIds db collection ids
    return doc.toList ++ docs

/-! ## What a pending document matches -/

/-- Resolve a dot-separated field path. -/
def resolveNestedField (fields : List (String × Value)) (path : String) : Option Value :=
  match splitChar '.' path with
  | [] => none
  | root :: segments => do
    let value ← fields.lookup root
    segments.foldlM Value.getSegment value

def getFieldValue (doc : Document) (field : String) : Option Value :=
  if field = "id" then some (.string doc.id)
  else if '.' ∈ field.toList then resolveNestedField doc.fields field
  else doc.fields.lookup field

def fieldMatches (doc : Document) (field : String) (expected : Value) : Bool :=
  (getFieldValue doc field).any (·.beq expected)

/-- Compare two values for ordering: numbers, strings and booleans only. -/
def valuesCompare : Value → Value → Option Ordering
  | .int a, .int b => some (compare a b)
  | .float a, .float b => a.partialCmp b
  | .int a, .float b => (F64.ofInt a.toInt).partialCmp b
  | .float a, .int b => a.partialCmp (F64.ofInt b.toInt)
  | .string a, .string b => some (compare (utf8 a) (utf8 b))
  | .bool a, .bool b => some (compare a b)
  | _, _ => none

def fieldMatchesRange (doc : Document) (field : String) (value : Value) (op : RangeOp) : Bool :=
  match (getFieldValue doc field).bind (valuesCompare · value) with
  | none => false
  | some cmp =>
    match op with
    | .gt => cmp = .gt
    | .gte => cmp = .gt || cmp = .eq
    | .lt => cmp = .lt
    | .lte => cmp = .lt || cmp = .eq

def fieldMatchesBetween (doc : Document) (field : String) (lower : Value) (lowerInclusive : Bool)
    (upper : Value) (upperInclusive : Bool) : Bool :=
  match (getFieldValue doc field).bind (valuesCompare · lower),
      (getFieldValue doc field).bind (valuesCompare · upper) with
  | some lowerCmp, some upperCmp =>
    (if lowerInclusive then lowerCmp ≠ .lt else lowerCmp = .gt) &&
      (if upperInclusive then upperCmp ≠ .gt else upperCmp = .lt)
  | _, _ => false

def allFieldsMatch (doc : Document) (fieldValues : List (String × Value)) : Bool :=
  fieldValues.all fun fv => fieldMatches doc fv.1 fv.2

end Transaction

/-! ## Index scans -/

section Scans

variable [External]

/-- Documents a compound lookup of storage returns. -/
def Database.scanCompoundIndexEqDocs (db : Database) (collection : String)
    (fieldValues : List (String × Value)) (limit : Nat) :
    Except IndexLookupFailed (List Document × Bool) :=
  (db.scanCompoundIndexEq collection fieldValues limit).map fun r =>
    (db.getDocumentsByIds collection r.docIds, r.exceededLimit)

namespace Transaction

/-- `BUFFER`: how much more a scan asks of storage than its limit. -/
def scanBuffer : Nat := 100

omit [External] in
/-- The ids of matching documents that are not there yet are added. -/
def addPending (test : Document → Bool) (ids : List String) (docs : List Document) : List String :=
  docs.foldl (fun ids doc => if test doc && !ids.contains doc.id then ids ++ [doc.id] else ids) ids

omit [External] in
/-- What all scans do with the ids from storage: filter out pending deletes, add the pending
inserts that match, apply the limit. -/
def mergeScan (order : IterOrder) (tx : Transaction) (collection : String)
    (test : Document → Bool) (limit : Nat) (storage : ScanResult) : ScanResult :=
  let kept := storage.docIds.filter fun id => !tx.isPendingDelete id
  let ids := addPending test kept (tx.pendingInsertsForCollection order collection)
  if limit < ids.length then ⟨ids.take limit, true⟩ else ⟨ids, storage.exceededLimit⟩

def scanIndexEq (order : IterOrder) (tx : Transaction) (db : Database) (collection field : String)
    (value : Value) (limit : Nat) : Except IndexLookupFailed ScanResult :=
  (db.scanIndexEq collection field value (limit + scanBuffer)).map
    (tx.mergeScan order collection (fieldMatches · field value) limit)

def scanIndexRange (order : IterOrder) (tx : Transaction) (db : Database)
    (collection field : String) (value : Value) (op : RangeOp) (limit : Nat) :
    Except IndexLookupFailed ScanResult :=
  (db.scanIndexRange collection field value op (limit + scanBuffer)).map
    (tx.mergeScan order collection (fieldMatchesRange · field value op) limit)

def scanIndexRangeBetween (order : IterOrder) (tx : Transaction) (db : Database)
    (collection field : String) (lower : Value) (lowerInclusive : Bool) (upper : Value)
    (upperInclusive : Bool) (limit : Nat) : Except IndexLookupFailed ScanResult :=
  (db.scanIndexRangeBetween collection field lower lowerInclusive upper upperInclusive
    (limit + scanBuffer)).map
    (tx.mergeScan order collection
      (fieldMatchesBetween · field lower lowerInclusive upper upperInclusive) limit)

def scanCompoundIndexEq (order : IterOrder) (tx : Transaction) (db : Database)
    (collection : String) (fieldValues : List (String × Value)) (limit : Nat) :
    Except IndexLookupFailed ScanResult :=
  (db.scanCompoundIndexEq collection fieldValues (limit + scanBuffer)).map
    (tx.mergeScan order collection (allFieldsMatch · fieldValues) limit)

/-- The loop of an `IN` lookup. -/
def scanIndexInLoop (order : IterOrder) (tx : Transaction) (db : Database)
    (collection field : String) (limit : Nat) :
    List String → Bool → List Value → Except IndexLookupFailed (List String × Bool)
  | allIds, exceeded, [] => .ok (allIds, exceeded)
  | allIds, exceeded, value :: values =>
    match tx.scanIndexEq order db collection field value limit with
    | .error e => .error e
    | .ok result =>
      if limit ≤ (allIds ++ result.docIds).length then .ok (allIds ++ result.docIds, true)
      else
        tx.scanIndexInLoop order db collection field limit (allIds ++ result.docIds)
          (exceeded || result.exceededLimit) values

/-- Equality scans for each value of a list, sorted and deduplicated. -/
def scanIndexIn (order : IterOrder) (tx : Transaction) (db : Database) (collection field : String)
    (values : List Value) (limit : Nat) : Except IndexLookupFailed ScanResult :=
  (tx.scanIndexInLoop order db collection field limit [] false values).map fun r =>
    ⟨(r.1.mergeSort fun a b => (compare (utf8 a) (utf8 b)).isLE).dedup, r.2⟩

/-- The documents of a compound lookup: stored ones that the transaction has not written, and
the pending inserts that match. -/
def scanCompoundIndexEqDocs (order : IterOrder) (tx : Transaction) (db : Database)
    (collection : String) (fieldValues : List (String × Value)) (limit : Nat) :
    Except IndexLookupFailed (List Document × Bool) :=
  (db.scanCompoundIndexEqDocs collection fieldValues (limit + scanBuffer)).map fun r =>
    let untouched := r.1.filter fun doc =>
      (tx.pendingWrites.lookup (encodeDocKey collection doc.key)).isNone
    let docs := untouched ++
      (tx.pendingInsertsForCollection order collection).filter (allFieldsMatch · fieldValues)
    (docs.take limit, decide (limit < docs.length))

end Transaction

end Scans

/-! ## Edges -/

/-- Key of an edge in the pending edges. -/
def Edge.ends (e : Edge) : String × String × String := (e.src, e.label, e.dst)

/-- The edge store's lists for several nodes, by node. -/
def EdgeStore.listBatch (list : String → Except StorageError (List Edge × Option String)) :
    List String → Except StorageError (String → Option (List Edge))
  | nodes => nodes.foldlM
    (fun result node => (list node).map fun r => Function.update result node (some r.1))
    fun _ => none

namespace Transaction

/-- Put an edge write in the buffer. -/
def pendEdge (tx : Transaction) (ends : String × String × String) (w : PendingWrite Edge)
    (hw : ∀ edge, w = .insert edge → ends = edge.ends) : Transaction where
  pendingWrites := tx.pendingWrites
  pendingEdges := tx.pendingEdges.insert ends w
  pendingDeletes := tx.pendingDeletes
  state := tx.state
  named := tx.named
  edgesNamed := by
    intro k edge hedge
    by_cases hk : k = ends
    · subst hk
      rw [AList.lookup_insert, Option.some_inj] at hedge
      exact hw edge hedge
    · rw [AList.lookup_insert_ne hk] at hedge
      exact tx.edgesNamed k edge hedge

def createEdge (tx : Transaction) (edge : Edge) : Except TransactionError Transaction := do
  tx.ensureActive
  return tx.pendEdge edge.ends (.insert edge) (by intro e he; cases he; rfl)

def deleteEdge (tx : Transaction) (src label dst : String) :
    Except TransactionError Transaction := do
  tx.ensureActive
  return tx.pendEdge (src, label, dst) .delete (by intro e he; cases he)

/-- What all listings do with the edges from storage: filter out pending deletes, add the
pending inserts at the node that are not there yet, sort by neighbour. -/
def mergeEdges (order : IterOrder) (tx : Transaction) (atNode : String × String × String → Bool)
    (neighbour : Edge → String) (edges : List Edge) : List Edge :=
  let kept := edges.filter fun e =>
    match tx.pendingEdges.lookup e.ends with
    | some .delete => false
    | _ => true
  let merged := (order.iter tx.pendingEdges.entries).foldl
    (fun edges entry =>
      match entry.2 with
      | .insert edge =>
        if atNode entry.1 && !edges.any (fun e => decide (e.ends = edge.ends)) then edges ++ [edge]
        else edges
      | .delete => edges)
    kept
  merged.mergeSort fun a b => (compare (utf8 (neighbour a)) (utf8 (neighbour b))).isLE

/-- Cut a page; the cursor is the last neighbour. -/
def pageEdges (neighbour : Edge → String) (limit : Nat) (edges : List Edge) :
    List Edge × Option String :=
  if limit < edges.length then (edges.take limit, (edges.take limit).getLast?.map neighbour)
  else (edges, none)

/-- How much more a listing asks of storage than its limit. -/
def listBuffer : Nat := 100

/-- The pending edges out of a node. -/
def outOf (node label : String) (ends : String × String × String) : Bool :=
  ends.1 = node && ends.2.1 = label

/-- The pending edges into a node. -/
def into (node label : String) (ends : String × String × String) : Bool :=
  ends.2.2 = node && ends.2.1 = label

def listEdgesOut (order : IterOrder) (tx : Transaction) (db : Database) (src label : String)
    (after : Option String) (limit : Nat) : Except StorageError (List Edge × Option String) :=
  (db.edges.listOut src label after (limit + listBuffer)).map fun r =>
    pageEdges (·.dst) limit (tx.mergeEdges order (outOf src label) (·.dst) r.1)

def listEdgesIn (order : IterOrder) (tx : Transaction) (db : Database) (dst label : String)
    (after : Option String) (limit : Nat) : Except StorageError (List Edge × Option String) :=
  (db.edges.listIn dst label after (limit + listBuffer)).map fun r =>
    pageEdges (·.src) limit (tx.mergeEdges order (into dst label) (·.src) r.1)

/-- Merge the pending edges into the lists of several nodes, one after the other. -/
def mergeBatch (order : IterOrder) (tx : Transaction)
    (atNode : String → String × String × String → Bool) (neighbour : Edge → String) (limit : Nat)
    (nodes : List String) (results : String → Option (List Edge)) : String → Option (List Edge) :=
  nodes.foldl (fun results node => Function.update results node
    (some ((tx.mergeEdges order (atNode node) neighbour ((results node).getD [])).take limit)))
    results

def batchListEdgesOut (order : IterOrder) (tx : Transaction) (db : Database)
    (nodes : List String) (label : String) (limit : Nat) :
    Except StorageError (String → Option (List Edge)) :=
  (EdgeStore.listBatch (db.edges.listOut · label none limit) nodes).map
    (tx.mergeBatch order (outOf · label) (·.dst) limit nodes)

def batchListEdgesIn (order : IterOrder) (tx : Transaction) (db : Database)
    (nodes : List String) (label : String) (limit : Nat) :
    Except StorageError (String → Option (List Edge)) :=
  (EdgeStore.listBatch (db.edges.listIn · label none limit) nodes).map
    (tx.mergeBatch order (into · label) (·.src) limit nodes)

end Transaction

end StellarDb
