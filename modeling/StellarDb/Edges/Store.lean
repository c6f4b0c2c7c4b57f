import StellarDb.Schema

/-!
# StellarDb — the edge store (`edge.rs`, `storage/edges/store.rs`)

Every edge type has a keyspace of its own with four key families:

* OUT `0x01|from|0|to[|0|id]` — the edge data (for an undirected type in both orientations);
* IN `0x02|to|0|from[|0|id]` — the edge id, or nothing where the id is in the key
  (directed types only);
* ID `0x03|id` — the two endpoints;
* IDX `0x04|…` — the field indexes.

The edge id is part of the OUT and IN keys for `Multiple` cardinality only; for `Single` a
second edge between the same nodes takes the place of the first.

Writes are lists of `Write EdgeEntry`; the direct operations apply them at once, the `InTx`
ones hand them to the caller's transaction.
-/

namespace StellarDb

open Keyspaces

/-! ## Edge types -/

inductive EdgeDirection where
  | directed
  | undirected
  deriving DecidableEq, Repr

inductive EdgeCardinality where
  | single
  | multiple
  deriving DecidableEq, Repr

inductive OnDeletePolicy where
  | cascade
  | restrict
  | noAction
  deriving DecidableEq, Repr

structure EdgeSchema where
  name : String
  direction : EdgeDirection
  cardinality : EdgeCardinality
  onDelete : OnDeletePolicy
  /-- The field names of each index. -/
  indexes : List (List String)
  deriving DecidableEq, Repr

namespace EdgeSchema

/-- Default settings: directed, single cardinality, cascading. -/
def new (name : String) : EdgeSchema := ⟨name, .directed, .single, .cascade, []⟩

def isUndirected (s : EdgeSchema) : Bool := s.direction = .undirected

end EdgeSchema

/-- `s.strip_prefix(p)` -/
def stripPrefix (p s : String) : Option String :=
  if p.toList.isPrefixOf s.toList then some (String.ofList (s.toList.drop p.toList.length))
  else none

structure Edge where
  id : String
  src : String
  dst : String
  label : String
  createdAt : BitVec 64
  updatedAt : Option (BitVec 64)
  fields : List (String × Value)

/-- The part of the id after `label:`, or the whole id. -/
def Edge.nanoid (e : Edge) : String :=
  ((stripPrefix e.label e.id).bind (stripPrefix ":")).getD e.id

/-- What is stored under an OUT key. -/
structure EdgeData where
  id : String
  createdAt : BitVec 64
  updatedAt : BitVec 64
  fields : List (String × Value)

namespace EdgeData

def fromEdge (e : Edge) : EdgeData := ⟨e.nanoid, e.createdAt, e.updatedAt.getD 0, e.fields⟩

def toEdge (d : EdgeData) (label src dst : String) : Edge where
  id := label ++ ":" ++ d.id
  src := src
  dst := dst
  label := label
  createdAt := d.createdAt
  updatedAt := if d.updatedAt = 0 then none else some d.updatedAt
  fields := d.fields

def isCompact (d : EdgeData) : Bool := d.fields.isEmpty && d.updatedAt = 0

end EdgeData

/-- A value of an edge keyspace: plain bytes, or the full format, whose body is the `rkyv`
image of the data. -/
inductive EdgeEntry where
  | bytes (bs : Bytes)
  | full (data : EdgeData)

def edgeFormatCompact : UInt8 := 0x00
def edgeFormatFull : UInt8 := 0x01

def serializeEdgeData (d : EdgeData) : EdgeEntry :=
  if d.isCompact then
    .bytes (edgeFormatCompact :: utf8 d.id ++ 0x00 :: leBytes 8 d.createdAt.toNat)
  else .full d

def deserializeEdgeData : EdgeEntry → Except StorageError EdgeData
  | .bytes [] => .error (.serialization "Empty edge data")
  | .bytes (marker :: rest) =>
    if marker = edgeFormatCompact then
      if 0 ∈ rest then
        let timestamp := ((rest.dropWhile (· ≠ 0)).drop 1).take 8
        if timestamp.length = 8 then
          .ok ⟨fromUtf8Lossy (rest.takeWhile (· ≠ 0)), BitVec.ofNat 64 (ofLeBytes timestamp), 0, []⟩
        else .error (.serialization "Invalid timestamp")
      else .error (.serialization "Invalid compact format")
    else .error (.serialization ("Unknown edge format marker: " ++ toString marker.toNat))
  | .full d => .ok d

/-! ## Keys of one edge -/

section Keys

variable (schema : EdgeSchema)

/-- Undirected edges are stored under the ordered pair of their endpoints. -/
def normalize (src dst : String) : String × String :=
  if schema.isUndirected && compare (utf8 src) (utf8 dst) = .gt then (dst, src) else (src, dst)

def outKey (src dst edgeId : String) : Bytes :=
  match schema.cardinality with
  | .single => encodeEdgeOutKeySingle src dst
  | .multiple => encodeEdgeOutKeyMulti src dst edgeId

def inKey (dst src edgeId : String) : Bytes :=
  match schema.cardinality with
  | .single => encodeEdgeInKeySingle dst src
  | .multiple => encodeEdgeInKeyMulti dst src edgeId

/-- The value of an IN entry: the edge id, unless the key has it already. -/
def inValue (edgeId : String) : EdgeEntry :=
  match schema.cardinality with
  | .single => .bytes (utf8 edgeId)
  | .multiple => .bytes []

/-- The key of the other orientation: a second OUT key, or the IN key. -/
def reverseKey (src dst edgeId : String) : Bytes :=
  if schema.isUndirected then outKey schema dst src edgeId else inKey schema dst src edgeId

/-- The OUT, reverse OUT or IN, and ID entries of a new edge. -/
def insertEdgeKeys (src dst : String) (data : EdgeData) : List (Write EdgeEntry) :=
  [(outKey schema src dst data.id, some (serializeEdgeData data)),
    (reverseKey schema src dst data.id,
      some (if schema.isUndirected then serializeEdgeData data else inValue schema data.id)),
    (encodeEdgeIdKey data.id, some (.bytes (encodeEdgeIdValue src dst)))]

/-- All keys of a single edge, to be removed. -/
def deleteEdgeKeysInTx (src dst edgeId : String) : List (Write EdgeEntry) :=
  [(outKey schema src dst edgeId, none), (reverseKey schema src dst edgeId, none),
    (encodeEdgeIdKey edgeId, none)]

/-- The field index entries of an edge. -/
def updateFieldIndexes [External] (edgeId : String) (fields : List (String × Value))
    (insert : Bool) : List (Write EdgeEntry) :=
  schema.indexes.flatMap fun index => index.filterMap fun field =>
    (fields.lookup field).map fun value =>
      (encodeEdgeFieldIndexKey field value edgeId, if insert then some (.bytes []) else none)

end Keys

/-! ## The store -/

/-- Defined types with their schemas, and the keyspace of each label. The keyspace of a
defined type is always open: `define_edge_type` opens it, `drop_edge_type` closes it. -/
structure EdgeStore where
  schemas : List (String × EdgeSchema)
  keyspaces : String → Keyspace EdgeEntry

namespace EdgeStore

def getSchema (s : EdgeStore) (label : String) : Option EdgeSchema := s.schemas.lookup label

def listEdgeTypes (s : EdgeStore) : List String := s.schemas.map Prod.fst

def defineEdgeType (s : EdgeStore) (schema : EdgeSchema) : Except StorageError EdgeStore :=
  match validateName "edge type" schema.name with
  | .error e => .error e
  | .ok () =>
    if (s.getSchema schema.name).isSome then
      .error (.alreadyExists ("Edge type '" ++ schema.name ++ "' already exists"))
    else .ok { s with schemas := s.schemas ++ [(schema.name, schema)] }

/-- The schema of a label; an unknown label is defined with the default schema first. -/
def schemaOrDefine (s : EdgeStore) (label : String) :
    Except StorageError (EdgeStore × EdgeSchema) :=
  match s.getSchema label with
  | some schema => .ok (s, schema)
  | none =>
    match s.defineEdgeType (EdgeSchema.new label) with
    | .error e => .error e
    | .ok s => .ok (s, EdgeSchema.new label)

/-- Write to the keyspace of one label. -/
def write (s : EdgeStore) (label : String) (ws : List (Write EdgeEntry)) : EdgeStore :=
  { s with keyspaces :=
      Function.update s.keyspaces label ((s.keyspaces label).applyWrites ws) }

/-! ### Create -/

/-- The writes of a new edge. -/
def createWrites (schema : EdgeSchema) (edge : Edge) : List (Write EdgeEntry) :=
  let ends := normalize schema edge.src edge.dst
  insertEdgeKeys schema ends.1 ends.2 (EdgeData.fromEdge edge)

def create [External] (s : EdgeStore) (edge : Edge) : EdgeStore × Except StorageError Unit :=
  match s.schemaOrDefine edge.label with
  | .error e => (s, .error e)
  | .ok (s, schema) =>
    (s.write edge.label (createWrites schema edge ++
      updateFieldIndexes schema edge.nanoid edge.fields true), .ok ())

/-- The type is defined at once, the entries go to the transaction; field indexes are not
updated here. -/
def createInTx (s : EdgeStore) (edge : Edge) :
    EdgeStore × Except StorageError (List (Write EdgeEntry)) :=
  match s.schemaOrDefine edge.label with
  | .error e => (s, .error e)
  | .ok (s, schema) => (s, .ok (createWrites schema edge))

/-! ### Read -/

def notDefined (label : String) : StorageError :=
  .notFound ("Edge type '" ++ label ++ "' not defined")

/-- Read an OUT entry. -/
def getData (ks : Keyspace EdgeEntry) (key : Bytes) : Except StorageError (Option EdgeData) :=
  match ks[key]? with
  | none => .ok none
  | some entry => (deserializeEdgeData entry).map some

/-- The endpoints an id entry names. -/
def getEnds (ks : Keyspace EdgeEntry) (edgeId : String) :
    Except StorageError (Option (String × String)) :=
  match ks[encodeEdgeIdKey edgeId]? with
  | none => .ok none
  | some (.full _) => .error (.serialization "Invalid ID value format")
  | some (.bytes bs) =>
    match decodeEdgeIdValue bs with
    | none => .error (.serialization "Invalid ID value format")
    | some ends => .ok (some ends)

def getById (s : EdgeStore) (label edgeId : String) : Except StorageError (Option Edge) :=
  match s.getSchema label with
  | none => .error (notDefined label)
  | some schema =>
    match getEnds (s.keyspaces label) edgeId with
    | .error e => .error e
    | .ok none => .ok none
    | .ok (some (src, dst)) =>
      match getData (s.keyspaces label) (outKey schema src dst edgeId) with
      | .error e => .error e
      | .ok none => .ok none
      | .ok (some data) => .ok (some (data.toEdge label src dst))

/-! ### Delete -/

/-- The field index entries of a deleted edge, if its data was found. -/
def cleanup [External] (schema : EdgeSchema) (edgeId : String) :
    Option EdgeData → List (Write EdgeEntry)
  | some data => updateFieldIndexes schema edgeId data.fields false
  | none => []

def deleteById [External] (s : EdgeStore) (label edgeId : String) :
    EdgeStore × Except StorageError Bool :=
  match s.getSchema label with
  | none => (s, .ok false)
  | some schema =>
    match getEnds (s.keyspaces label) edgeId with
    | .error e => (s, .error e)
    | .ok none => (s, .ok false)
    | .ok (some (src, dst)) =>
      match getData (s.keyspaces label) (outKey schema src dst edgeId) with
      | .error e => (s, .error e)
      | .ok data =>
        (s.write label (deleteEdgeKeysInTx schema src dst edgeId ++ cleanup schema edgeId data),
          .ok true)

/-- The data of all edges between two nodes of a `Multiple` type. -/
def scanBetween (ks : Keyspace EdgeEntry) (src dst : String) :
    Except StorageError (List EdgeData) :=
  (ks.range (encodeEdgeOutTargetPrefix src dst) (encodeEdgeOutTargetPrefixEnd src dst)).mapM
    fun e => deserializeEdgeData e.2

/-- Delete the edge, or all edges, between two nodes. -/
def delete [External] (s : EdgeStore) (src label dst : String) :
    EdgeStore × Except StorageError Nat :=
  match s.getSchema label with
  | none => (s, .ok 0)
  | some schema =>
    let ends := normalize schema src dst
    match schema.cardinality with
    | .single =>
      match getData (s.keyspaces label) (encodeEdgeOutKeySingle ends.1 ends.2) with
      | .error e => (s, .error e)
      | .ok none => (s, .ok 0)
      | .ok (some data) =>
        (s.write label (updateFieldIndexes schema data.id data.fields false ++
          deleteEdgeKeysInTx schema ends.1 ends.2 data.id), .ok 1)
    | .multiple =>
      match scanBetween (s.keyspaces label) ends.1 ends.2 with
      | .error e => (s, .error e)
      | .ok datas =>
        (s.write label (datas.flatMap fun data =>
          deleteEdgeKeysInTx schema ends.1 ends.2 data.id ++
            updateFieldIndexes schema data.id data.fields false), .ok datas.length)

/-- `delete` within a transaction. `pending` are the writes the transaction already has for
this keyspace: the read of a `Single` edge sees them, the scan for a `Multiple` type does
not. -/
def deleteInTx (s : EdgeStore) (pending : List (Write EdgeEntry)) (src label dst : String) :
    Except StorageError (List (Write EdgeEntry)) :=
  match s.getSchema label with
  | none => .ok []
  | some schema =>
    let ends := normalize schema src dst
    match schema.cardinality with
    | .single =>
      match getData ((s.keyspaces label).applyWrites pending)
          (encodeEdgeOutKeySingle ends.1 ends.2) with
      | .error e => .error e
      | .ok none => .ok []
      | .ok (some data) => .ok (deleteEdgeKeysInTx schema ends.1 ends.2 data.id)
    | .multiple =>
      match scanBetween (s.keyspaces label) ends.1 ends.2 with
      | .error e => .error e
      | .ok datas =>
        .ok (datas.flatMap fun data => deleteEdgeKeysInTx schema ends.1 ends.2 data.id)

/-! ### List -/

/-- The second part of a zero-separated key. -/
def parseOutKeyTarget (key : Bytes) : Except StorageError String :=
  match key.splitOn 0 with
  | _ :: target :: _ => .ok (fromUtf8Lossy target)
  | _ => .error (.serialization "Invalid OUT key format")

/-- The source node and the edge id of an IN entry. -/
def parseInKeyAndValue (schema : EdgeSchema) (key : Bytes) (value : EdgeEntry) :
    Except StorageError (String × String) :=
  match key.splitOn 0 with
  | _ :: src :: rest =>
    match schema.cardinality, value with
    | .single, .bytes bs => .ok (fromUtf8Lossy src, fromUtf8Lossy bs)
    | .single, .full data => .ok (fromUtf8Lossy src, data.id)
    | .multiple, _ =>
      match rest with
      | id :: _ => .ok (fromUtf8Lossy src, fromUtf8Lossy id)
      | [] => .error (.serialization "Missing edge_id in multi key")
  | _ => .error (.serialization "Invalid IN key format")

/-- `usize::MAX` -/
def usizeMax : Nat := 2 ^ 64 - 1

/-- `limit.clamp(1, 1000)` -/
def clampLimit (limit : Nat) : Nat := min (max limit 1) 1000

/-- Drop the look-ahead element; it becomes the next cursor. -/
def page (limit : Nat) (edges : List Edge) : List Edge × Option String :=
  if limit < edges.length then
    (edges.dropLast, edges.dropLast.getLast?.map Edge.nanoid)
  else (edges, none)

/-- The loop of `list_out`: skip up to the cursor, then collect one edge more than asked. -/
def listOutLoop (label src : String) (limit : Nat) :
    List (Bytes × EdgeEntry) → Option String → List Edge → Except StorageError (List Edge)
  | [], _, edges => .ok edges
  | (key, value) :: rest, skipUntil, edges =>
    match parseOutKeyTarget (key.drop 1) with
    | .error e => .error e
    | .ok dst =>
      match deserializeEdgeData value with
      | .error e => .error e
      | .ok data =>
        match skipUntil with
        | some cursor =>
          listOutLoop label src limit rest (if data.id = cursor then none else some cursor) edges
        | none =>
          if limit < edges.length then .ok edges
          else listOutLoop label src limit rest none (edges ++ [data.toEdge label src dst])

def listOut (s : EdgeStore) (src label : String) (after : Option String) (limit : Nat) :
    Except StorageError (List Edge × Option String) :=
  if (s.getSchema label).isNone then .ok ([], none)
  else
    let limit := clampLimit limit
    let entries := (s.keyspaces label).range (encodeEdgeOutPrefix src) (encodeEdgeOutPrefixEnd src)
    (listOutLoop label src limit entries after []).map (page limit)

/-- The loop of `list_in`: the data comes from the OUT entry, a missing one is passed over. -/
def listInLoop (ks : Keyspace EdgeEntry) (schema : EdgeSchema) (label dst : String)
    (limit : Nat) :
    List (Bytes × EdgeEntry) → Option String → List Edge → Except StorageError (List Edge)
  | [], _, edges => .ok edges
  | (key, value) :: rest, skipUntil, edges =>
    match parseInKeyAndValue schema (key.drop 1) value with
    | .error e => .error e
    | .ok (src, edgeId) =>
      match skipUntil with
      | some cursor =>
        listInLoop ks schema label dst limit rest
          (if edgeId = cursor then none else some cursor) edges
      | none =>
        if limit < edges.length then .ok edges
        else
          match getData ks (outKey schema src dst edgeId) with
          | .error e => .error e
          | .ok none => listInLoop ks schema label dst limit rest none edges
          | .ok (some data) =>
            listInLoop ks schema label dst limit rest none (edges ++ [data.toEdge label src dst])

def listIn (s : EdgeStore) (dst label : String) (after : Option String) (limit : Nat) :
    Except StorageError (List Edge × Option String) :=
  match s.getSchema label with
  | none => .ok ([], none)
  | some schema =>
    if schema.isUndirected then s.listOut dst label after limit
    else
      let ks := s.keyspaces label
      let limit := clampLimit limit
      let entries := ks.range (encodeEdgeInPrefix dst) (encodeEdgeInPrefixEnd dst)
      (listInLoop ks schema label dst limit entries after []).map (page limit)

/-! ### Deleting a node -/

/-- The RESTRICT policy refuses a node that still has edges of the type. -/
def restrictAllows (s : EdgeStore) (nodeId label : String) : Except StorageError Unit := do
  let (outEdges, _) ← s.listOut nodeId label none 1
  if !outEdges.isEmpty then
    throw (.conflict ("Cannot delete '" ++ nodeId ++ "': has outgoing '" ++ label ++
      "' edges (RESTRICT policy)"))
  let (inEdges, _) ← s.listIn nodeId label none 1
  if !inEdges.isEmpty then
    throw (.conflict ("Cannot delete '" ++ nodeId ++ "': has incoming '" ++ label ++
      "' edges (RESTRICT policy)"))

/-- Check the RESTRICT policy of every edge type. -/
def checkDeleteAllowed (s : EdgeStore) (nodeId : String) : Except StorageError Unit :=
  s.listEdgeTypes.forM fun label =>
    match s.getSchema label with
    | none => .ok ()
    | some schema =>
      match schema.onDelete with
      | .restrict => s.restrictAllows nodeId label
      | _ => .ok ()

/-- The removals for the listed edges of one type. -/
def cascadeLabel (s : EdgeStore) (nodeId label : String) (schema : EdgeSchema) :
    Except StorageError (List (Write EdgeEntry)) := do
  let (outEdges, _) ← s.listOut nodeId label none usizeMax
  let (inEdges, _) ← s.listIn nodeId label none usizeMax
  return (outEdges ++ inEdges).flatMap fun e => deleteEdgeKeysInTx schema e.src e.dst e.nanoid

/-- The removals of one type, if it cascades. -/
def cascadeType (s : EdgeStore) (nodeId label : String) :
    Except StorageError (List (String × Write EdgeEntry)) :=
  match s.getSchema label with
  | none => .ok []
  | some schema =>
    match schema.onDelete with
    | .cascade => (s.cascadeLabel nodeId label schema).map (·.map (Prod.mk label))
    | _ => .ok []

/-- Removals, in a transaction, of the edges of a node for every CASCADE type. -/
def deleteEdgesForNodeInTx (s : EdgeStore) (nodeId : String) :
    Except StorageError (List (String × Write EdgeEntry)) :=
  (s.listEdgeTypes.mapM (s.cascadeType nodeId)).map List.flatten

end EdgeStore

end StellarDb
