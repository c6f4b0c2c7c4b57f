import StellarDb.Batch.Documents
import StellarDb.Edges.Listing
import StellarDb.Schema.Collection
import StellarDb.Transaction.Delete

/-!
# StellarDb — edges over a history of statements

RELATE checks that both ends of a new edge are stored, and `delete_document` applies the policies
of all edge types. DROP COLLECTION clears the keyspaces of the collection and looks at no edge
type: the edges of its documents stay, and so do their keys when the collection is defined again.
`history_sound` says when a history of statements leaves no edge dangling: every CASCADE drop
finds no edge at the documents of its collection, every deleted node has all its edges on the
first pages, and no statement names a record with a zero byte. A DELETE that a RESTRICT type
refuses changes nothing as long as the refused row comes first: the rows before it are gone.
-/

namespace StellarDb

open Keyspaces Runs

/-! ## Statements -/

/-- The database, and the schemas of its collections. -/
structure Engine where
  db : Database
  schemas : String → Option CollectionSchema

inductive StatementError where
  | storage (e : StorageError)
  | bind (e : BindError)
  | collectionNotEmpty (name : String)

/-- What the storage engine answers during a statement. -/
structure StatementFaults where
  /-- The calls for the rows of the statement. -/
  rows : Nat → Faults
  batch : BatchFaults
  /-- `list_documents` -/
  list : Option StorageError
  /-- The schema is written or removed. -/
  schema : Option StorageError
  /-- `get_or_create_instance` of the vector backend -/
  hnsw : Option StorageError
  /-- `clear_index_keyspaces` -/
  clear : Option StorageError

/-- Nothing fails. -/
def StatementFaults.none : StatementFaults where
  rows := fun _ => .none
  batch := .none
  list := .none
  schema := .none
  hnsw := .none
  clear := .none

/-- `drop_index` and `build_index`. -/
structure IndexWork where
  drop : Database → String → IndexDef → Database × Except StorageError Unit
  build : Database → String → IndexDefinition → Database × Except StorageError Unit

inductive Statement where
  /-- CREATE and INSERT. -/
  | insert (docs : List Document)
  | upsert (doc : Document)
  /-- An edge for each pair of the sources and the targets. -/
  | relate (edges : List Edge)
  /-- The rows of a DELETE. -/
  | delete (collection : String) (keys : List String)
  /-- Without a target all edges of the source are deleted, in `passes` passes. -/
  | deleteEdge (src label : String) (dst : Option String) (passes : Nat)
  | defineCollection (schema : CollectionSchema)
  | dropCollection (name : String) (cascade : Bool)

/-! ### Rows -/

/-- A call for each row; the first error ends the statement. -/
def loopRows {α β : Type} (row : Faults → Database → α → Database × Except StorageError β)
    (f : Nat → Faults) (db : Database) : List α → Database × Except StorageError Unit
  | [] => (db, .ok ())
  | a :: as =>
    match row (f 0) db a with
    | (db, .error e) => (db, .error e)
    | (db, .ok _) => loopRows row (shift f) db as

/-- Every row that is reached meets the condition. -/
def EachRow {α β : Type} (row : Faults → Database → α → Database × Except StorageError β)
    (P : Database → α → Prop) (f : Nat → Faults) (db : Database) : List α → Prop
  | [] => True
  | a :: as => P db a ∧ ∀ db' b, row (f 0) db a = (db', .ok b) → EachRow row P (shift f) db' as

theorem loopRows_invariant {α β : Type}
    {row : Faults → Database → α → Database × Except StorageError β} {P : Database → α → Prop}
    (Inv : Database → Prop) (hrow : ∀ f db a, Inv db → P db a → Inv (row f db a).1)
    {f : Nat → Faults} {db : Database} {as : List α} (h : Inv db) (hrows : EachRow row P f db as) :
    Inv (loopRows row f db as).1 := by
  induction as generalizing f db with
  | nil => exact h
  | cons a as ih =>
    obtain ⟨ha, has⟩ := hrows
    have hnext := hrow (f 0) db a h ha
    unfold loopRows
    rcases hr : row (f 0) db a with ⟨db', e | b⟩
    · rw [hr] at hnext
      exact hnext
    · rw [hr] at hnext
      exact ih hnext (has db' b hr)

/-! ### Edges -/

namespace EdgeStore

variable [External]

/-- The edges of one page, one after the other. -/
def deleteListed (s : EdgeStore) (count : Nat) : List Edge → EdgeStore × Except StorageError Nat
  | [] => (s, .ok count)
  | e :: es =>
    match s.delete e.src e.label e.dst with
    | (s, .error err) => (s, .error err)
    | (s, .ok _) => s.deleteListed (count + 1) es

/-- Delete first pages until there is none. -/
def deletePages (s : EdgeStore) (src label : String) (count : Nat) :
    Nat → EdgeStore × Except StorageError Nat
  | 0 => (s, .ok count)
  | passes + 1 =>
    match s.listOut src label none 1000 with
    | .error e => (s, .error e)
    | .ok ([], _) => (s, .ok count)
    | .ok (edges, _) =>
      match s.deleteListed count edges with
      | (s, .error e) => (s, .error e)
      | (s, .ok count) => s.deletePages src label count passes

/-- `execute_delete_edge`; `delete_edge` only says whether there was an edge. -/
def executeDeleteEdge (s : EdgeStore) (src label : String) (dst : Option String) (passes : Nat) :
    EdgeStore × Except StorageError Nat :=
  match dst with
  | some dst =>
    match s.delete src label dst with
    | (s, .error e) => (s, .error e)
    | (s, .ok count) => (s, .ok (if 0 < count then 1 else 0))
  | none => s.deletePages src label 0 passes

end EdgeStore

/-! ### Collections -/

namespace Engine

variable (work : IndexWork) (f : StatementFaults)

/-- `save_schema`: the registry of indexes is loaded from the schema. -/
def saveSchema (s : Engine) (schema : CollectionSchema) : Engine × Except StorageError Unit :=
  match s.db.getOrCreateCollection (f.rows 0) schema.name with
  | (db, .error e) => ({ s with db := db }, .error e)
  | (db, .ok ()) =>
    match f.schema with
    | some e => ({ s with db := db }, .error e)
    | none =>
      let schemas := Function.update s.schemas schema.name (some schema)
      match if schema.indexes.any (fun i => i.indexType = .hnsw && i.hnswParams.isSome)
          then f.hnsw else none with
      | some e => (⟨db, schemas⟩, .error e)
      | none =>
        let indexes := schema.indexes.map IndexDefinition.toIndexDef
        let db := { db with indexes := Function.update db.indexes schema.name indexes }
        (⟨db, schemas⟩, .ok ())

/-- Work on each index, up to the first error. -/
def eachIndex {ι : Type} (step : Database → String → ι → Database × Except StorageError Unit)
    (name : String) (db : Database) : List ι → Database × Except StorageError Unit
  | [] => (db, .ok ())
  | i :: is =>
    match step db name i with
    | (db, .error e) => (db, .error e)
    | (db, .ok ()) => eachIndex step name db is

/-- The end of DEFINE COLLECTION: drop and build what the registry and the schema differ in. -/
def syncIndexes (db : Database) (schema : CollectionSchema) : Database × Except StorageError Unit :=
  let existing := db.indexes schema.name
  let extra := existing.filter fun e => ! schema.indexes.any (·.fields = e.fields)
  let missing := schema.indexes.filter fun i => ! existing.any (·.fields = i.fields)
  match eachIndex work.drop schema.name db extra with
  | (db, .error e) => (db, .error e)
  | (db, .ok ()) => eachIndex work.build schema.name db missing

/-- `execute_define_collection` -/
def defineCollection (s : Engine) (schema : CollectionSchema) :
    Engine × Except StatementError Unit :=
  match validateSchema schema with
  | .error e => (s, .error (.bind e))
  | .ok () =>
    match s.saveSchema f schema with
    | (s, .error e) => (s, .error (.storage e))
    | (s, .ok ()) =>
      match syncIndexes work s.db schema with
      | (db, .error e) => ({ s with db := db }, .error (.storage e))
      | (db, .ok ()) => ({ s with db := db }, .ok ())

/-- `keyspaces.clear` and `keyspaces.remove`: only the index keyspaces can fail to clear. -/
def clearKeyspaces (db : Database) (name : String) : Database × Except StorageError Unit :=
  match db.keyspaces name with
  | none => (db, .ok ())
  | some _ =>
    let db := { db with keyspaces := Function.update db.keyspaces name (some .empty) }
    match f.clear with
    | some e => (db, .error e)
    | none => ({ db with keyspaces := Function.update db.keyspaces name none }, .ok ())

/-- `delete_schema`. The index keyspaces are cleared with the collection; their entries play no
part in what follows. -/
def deleteSchema (s : Engine) (name : String) : Engine × Except StorageError Bool :=
  if (s.schemas name).isNone && (s.db.keyspaces name).isNone then (s, .ok false)
  else
    match if (s.schemas name).isSome then f.schema else none with
    | some e => (s, .error e)
    | none =>
      let schemas := Function.update s.schemas name none
      match clearKeyspaces f
          { s.db with indexes := Function.update s.db.indexes name [] } name with
      | (db, .error e) => (⟨db, schemas⟩, .error e)
      | (db, .ok ()) => (⟨db, schemas⟩, .ok true)

/-- `execute_drop_collection` -/
def dropCollection (s : Engine) (name : String) (cascade : Bool) :
    Engine × Except StatementError Unit :=
  match f.list with
  | some e => (s, .error (.storage e))
  | none =>
    if !(s.db.docs name).isEmpty && !cascade then (s, .error (.collectionNotEmpty name))
    else
      match s.deleteSchema f name with
      | (s, .error e) => (s, .error (.storage e))
      | (s, .ok _) => (s, .ok ())

end Engine

namespace Statement

variable [External]

/-- Keep the schemas. -/
def onDatabase {α : Type} (s : Engine) (r : Database × Except StorageError α) :
    Engine × Except StatementError Unit :=
  ({ s with db := r.1 },
    match r.2 with
    | .error e => .error (.storage e)
    | .ok _ => .ok ())

/-- Execute a statement; its rows are left out. -/
def exec (work : IndexWork) (f : StatementFaults) (s : Engine) :
    Statement → Engine × Except StatementError Unit
  | .insert docs => onDatabase s (s.db.atomicWriteBatch f.batch (docs.map .createDoc))
  | .upsert doc => onDatabase s (s.db.setDocument (f.rows 0) doc)
  | .relate edges =>
    onDatabase s (loopRows (fun f db edge => db.createEdgeValidated f edge) f.rows s.db edges)
  | .delete c keys =>
    onDatabase s (loopRows (fun f db key => db.deleteDocument f c key) f.rows s.db keys)
  | .deleteEdge src label dst passes =>
    let r := s.db.edges.executeDeleteEdge src label dst passes
    onDatabase s ({ s.db with edges := r.1 }, r.2)
  | .defineCollection schema => s.defineCollection work f schema
  | .dropCollection name cascade => s.dropCollection f name cascade

end Statement

/-! ## What the calls do to the edges -/

/-- Writes that only remove add no entry. -/
theorem Keyspace.getElem?_of_removals {ws : List (Write EdgeEntry)} (h : ∀ w ∈ ws, w.2 = none)
    {ks : Keyspace EdgeEntry} {k : Bytes} {v : EdgeEntry} (hget : (ks.applyWrites ws)[k]? = some v) :
    ks[k]? = some v := by
  induction ws generalizing ks with
  | nil => exact hget
  | cons w ws ih =>
    rw [List.forall_mem_cons] at h
    have hnext := ih h.2 (show ((ks.write w).applyWrites ws)[k]? = some v from hget)
    rw [Keyspace.getElem?_write] at hnext
    split at hnext
    · rw [h.1] at hnext
      cases hnext
    · exact hnext

/-- Writes that all go to one keyspace. -/
theorem applyNamed_label (kss : String → Keyspace EdgeEntry) (label : String)
    (ws : List (Write EdgeEntry)) : applyNamed kss (ws.map (Prod.mk label)) =
      Function.update kss label ((kss label).applyWrites ws) := by
  have hwrites : writesTo label (ws.map (Prod.mk label)) = ws := by
    simp [writesTo, List.filterMap_map]
  funext n
  rw [applyNamed_apply]
  by_cases hn : n = label
  · subst hn
    rw [hwrites, Function.update_self]
  · have hnone : writesTo n (ws.map (Prod.mk label)) = [] := by
      simp [writesTo, List.filterMap_map, Ne.symm hn]
    rw [hnone, Function.update_of_ne hn]
    rfl

namespace EdgeStore

/-- An edge type that is looked up or defined on the way. -/
theorem schemaOrDefine_ok {s s' : EdgeStore} {label : String} {schema : EdgeSchema}
    (h : s.schemaOrDefine label = .ok (s', schema)) :
    s'.keyspaces = s.keyspaces ∧ s'.getSchema label = some schema ∧
      (∀ l, l ≠ label → s'.getSchema l = s.getSchema l) ∧
      (s.getSchema label = some schema ∨ s.getSchema label = none ∧ schema = .new label) := by
  unfold schemaOrDefine at h
  cases hs : s.getSchema label with
  | some schema' =>
    rw [hs] at h
    obtain ⟨rfl, rfl⟩ := Prod.mk.inj (Except.ok.inj h)
    exact ⟨rfl, hs, fun _ _ => rfl, Or.inl rfl⟩
  | none =>
    simp only [hs, defineEdgeType, show (EdgeSchema.new label).name = label from rfl] at h
    split at h
    · cases h
    · next hok =>
      split at hok
      · cases hok
      · simp only [Option.isSome_none, Bool.false_eq_true, if_false] at hok
        obtain rfl := Except.ok.inj hok
        obtain ⟨rfl, rfl⟩ := Prod.mk.inj (Except.ok.inj h)
        have hlookup : ∀ l, (s.schemas ++ [(label, EdgeSchema.new label)]).lookup l =
            (s.schemas.lookup l).or (if l = label then some (.new label) else none) := by
          intro l
          rw [List.lookup_append]
          by_cases hl : l = label
          · simp [hl]
          · have hne : (l == label) = false := by simpa using hl
            simp [List.lookup_cons, hne, hl]
        refine ⟨rfl, ?_, ?_, Or.inr ⟨rfl, rfl⟩⟩
        · show List.lookup label _ = _
          rw [hlookup, show s.schemas.lookup label = none from hs, if_pos rfl]
          rfl
        · intro l hl
          show List.lookup l _ = _
          rw [hlookup, if_neg hl, Option.or_none]
          rfl

section Delete

variable [External]

theorem updateFieldIndexes_removes (schema : EdgeSchema) (edgeId : String)
    (fields : List (String × Value)) :
    ∀ w ∈ updateFieldIndexes schema edgeId fields false, w.2 = none := by
  intro w hw
  simp only [updateFieldIndexes, List.mem_flatMap, List.mem_filterMap] at hw
  obtain ⟨index, -, field, -, hfield⟩ := hw
  obtain ⟨value, -, rfl⟩ := Option.map_eq_some_iff.mp hfield
  rfl

omit [External] in
theorem deleteEdgeKeysInTx_removes (schema : EdgeSchema) (src dst edgeId : String) :
    ∀ w ∈ deleteEdgeKeysInTx schema src dst edgeId, w.2 = none := by
  intro w hw
  simp only [deleteEdgeKeysInTx, List.mem_cons, List.not_mem_nil, or_false] at hw
  rcases hw with rfl | rfl | rfl <;> rfl

/-- `delete` removes entries of one type, if it does anything. -/
theorem delete_removes (s : EdgeStore) (src label dst : String) :
    (s.delete src label dst).1 = s ∨ ∃ ws : List (Write EdgeEntry), (∀ w ∈ ws, w.2 = none) ∧
      (s.delete src label dst).1 = s.write label ws := by
  unfold delete
  cases s.getSchema label with
  | none => exact Or.inl rfl
  | some schema =>
    cases hc : schema.cardinality with
    | single =>
      simp only [hc]
      split
      · exact Or.inl rfl
      · exact Or.inl rfl
      · refine Or.inr ⟨_, ?_, rfl⟩
        intro w hw
        rcases List.mem_append.mp hw with hw | hw
        · exact updateFieldIndexes_removes _ _ _ w hw
        · exact deleteEdgeKeysInTx_removes _ _ _ _ w hw
    | multiple =>
      simp only [hc]
      split
      · exact Or.inl rfl
      · refine Or.inr ⟨_, ?_, rfl⟩
        intro w hw
        obtain ⟨data, -, hw⟩ := List.mem_flatMap.mp hw
        rcases List.mem_append.mp hw with hw | hw
        · exact deleteEdgeKeysInTx_removes _ _ _ _ w hw
        · exact updateFieldIndexes_removes _ _ _ w hw

end Delete

end EdgeStore

namespace Database

theorem ensure_ok {fault : Option StorageError} : ensure fault = .ok () ↔ fault = none := by
  cases fault <;> simp [ensure]

/-- Both ends of an edge that is let through have their marker. -/
theorem markers_of_validateEdgeEndpointsInTx {f : Faults} {db : Database} {edge : Edge}
    (h : db.validateEdgeEndpointsInTx f edge = .ok ()) : ∀ node, node = edge.src ∨ node = edge.dst →
      ∃ c key, splitId node = .ok (c, key) ∧ (db.markers c)[utf8 key]?.isSome := by
  have hloaded : ∀ {c : String} {ks : CollectionKeyspaces}, db.loaded c = .ok ks →
      db.markers c = ks.markers := by
    intro c ks hks
    unfold loaded at hks
    cases hc : db.keyspaces c with
    | none =>
      rw [hc] at hks
      cases hks
    | some ks' =>
      rw [hc] at hks
      rw [← Except.ok.inj hks, markers, hc]
  have hmarker : ∀ {o : Option Unit} {e : StorageError},
      (if o.isNone then some e else none) = none → o.isSome := by
    intro o e ho
    cases o with
    | none => cases ho
    | some _ => rfl
  simp only [validateEdgeEndpointsInTx, bind_eq_ok_iff, ensure_ok] at h
  obtain ⟨src, hsrc, dst, hdst, srcKs, hsrcKs, dstKs, hdstKs, -, -, ⟨⟩, hs, -, -, hd⟩ := h
  intro node hnode
  rcases hnode with rfl | rfl
  · refine ⟨src.1, src.2, hsrc, ?_⟩
    rw [hloaded hsrcKs]
    exact hmarker (ensure_ok.mp hs)
  · refine ⟨dst.1, dst.2, hdst, ?_⟩
    rw [hloaded hdstKs]
    exact hmarker hd

/-- What `create_edge_validated` can do: nothing, define the type, or add the edge. -/
theorem createEdgeValidated_cases (f : Faults) (db : Database) (edge : Edge) :
    (db.createEdgeValidated f edge).1 = db ∨ ∃ s schema s',
      db.validateEdgeEndpointsInTx f edge = .ok () ∧
      db.edges.schemaOrDefine edge.label = .ok (s, schema) ∧
      (s' = s ∨ s' = s.write edge.label (EdgeStore.createWrites schema edge)) ∧
      (db.createEdgeValidated f edge).1 = { db with edges := s' } := by
  unfold createEdgeValidated
  cases f.writeTx with
  | some e => exact Or.inl rfl
  | none =>
    cases hval : db.validateEdgeEndpointsInTx f edge with
    | error e => exact Or.inl rfl
    | ok u =>
      unfold EdgeStore.createInTx
      cases hschema : db.edges.schemaOrDefine edge.label with
      | error e => exact Or.inl rfl
      | ok r =>
        obtain ⟨s, schema⟩ := r
        cases f.commit with
        | failed e => exact Or.inr ⟨s, schema, s, rfl, rfl, Or.inl rfl, rfl⟩
        | conflict => exact Or.inr ⟨s, schema, s, rfl, rfl, Or.inl rfl, rfl⟩
        | committed =>
          refine Or.inr ⟨s, schema, _, rfl, rfl, Or.inr rfl, ?_⟩
          show Database.mk db.keyspaces db.indexes db.indexKeyspaces ⟨s.schemas,
            applyNamed s.keyspaces ((EdgeStore.createWrites schema edge).map (Prod.mk edge.label))⟩ = _
          rw [applyNamed_label]
          rfl

/-! ## Anchored edges -/

/-- The record is a stored document. -/
def StoresRecord (db : Database) (node : String) : Prop :=
  ∃ c key, splitId node = .ok (c, key) ∧ (db.getDocument c (utf8 key)).isSome

/-- Both ends of every stored edge are stored documents. -/
def NoDangling (db : Database) : Prop :=
  ∀ (label : String) (k : Bytes) (v : EdgeEntry), IsLinkKey k →
    (db.edges.keyspaces label)[k]? = some v → ∀ node, Mentions node k v → db.StoresRecord node

/-- A stored edge of a RESTRICT type has the record as an end. -/
def Restricted (db : Database) (node : String) : Prop :=
  ∃ (label : String) (schema : EdgeSchema) (k : Bytes) (v : EdgeEntry),
    db.edges.getSchema label = some schema ∧ schema.onDelete = .restrict ∧ IsLinkKey k ∧
      (db.edges.keyspaces label)[k]? = some v ∧ Mentions node k v

/-- Every edge of the record that its deletion has to take along is on a first page. -/
def CascadeListed (db : Database) (node : String) : Prop :=
  ∀ label schema, db.edges.getSchema label = some schema → schema.onDelete = .cascade →
    ∀ E I, Shape schema (db.edges.keyspaces label) E I → ∀ e ∈ E, e.src = node ∨ e.dst = node →
      OnPage schema (firstPages schema (db.edges.keyspaces label) node) e

/-- What a history keeps: markers as documents, a shape for each type, and no dangling edge. -/
structure Anchored (db : Database) : Prop where
  markers : db.MarkersExact
  shaped : ∀ label schema, db.edges.getSchema label = some schema →
    Shaped schema (db.edges.keyspaces label)
  undefined : ∀ label, db.edges.getSchema label = none → db.edges.keyspaces label = ∅
  policies : ∀ label schema, db.edges.getSchema label = some schema → schema.onDelete ≠ .noAction
  grounded : db.NoDangling

namespace Anchored

variable {db db' : Database}

/-- Without a change to the edges it is enough that no document goes. -/
theorem of_docs (h : db.Anchored) (hmarkers : db'.MarkersExact) (hedges : db'.edges = db.edges)
    (hdocs : ∀ c k, (db.getDocument c k).isSome → (db'.getDocument c k).isSome) : db'.Anchored where
  markers := hmarkers
  shaped := by
    rw [hedges]
    exact h.shaped
  undefined := by
    rw [hedges]
    exact h.undefined
  policies := by
    rw [hedges]
    exact h.policies
  grounded := by
    intro label k v hk hget node hment
    rw [hedges] at hget
    obtain ⟨c, key, hsplit, hdoc⟩ := h.grounded label k v hk hget node hment
    exact ⟨c, key, hsplit, hdocs c _ hdoc⟩

/-! ### RELATE -/

/-- The nodes of an edge as it is stored are those it was made for. -/
theorem ends_storedOf {schema : EdgeSchema} {edge : Edge} {node : String}
    (h : (EdgeOp.storedOf schema edge).src = node ∨ (EdgeOp.storedOf schema edge).dst = node) :
    node = edge.src ∨ node = edge.dst := by
  simp only [EdgeOp.storedOf, normalize] at h
  split at h
  · exact h.elim (fun h => Or.inr h.symm) fun h => Or.inl h.symm
  · exact h.elim (fun h => Or.inl h.symm) fun h => Or.inr h.symm

/-- A link entry after a create is an old one, or one of the new edge. -/
theorem link_of_createWrites {schema : EdgeSchema} {edge : Edge} {ks : Keyspace EdgeEntry}
    {k : Bytes} {v : EdgeEntry} (hk : IsLinkKey k)
    (hget : (ks.applyWrites (EdgeStore.createWrites schema edge))[k]? = some v) :
    ks[k]? = some v ∨ (k, v) ∈ (EdgeOp.storedOf schema edge).links schema := by
  replace hget : (ks.applyWrites (insertEdgeKeys schema (EdgeOp.storedOf schema edge).src
    (EdgeOp.storedOf schema edge).dst (EdgeOp.storedOf schema edge).data))[k]? = some v := hget
  rw [getElem?_insertEdgeKeys, if_neg (idKey_ne_of_isLinkKey hk _)] at hget
  split at hget
  · next hrev =>
    refine Or.inr ?_
    rw [← hrev, ← Option.some.inj hget]
    exact List.mem_cons_of_mem _ (List.mem_cons_self ..)
  · split at hget
    · next hout =>
      refine Or.inr ?_
      rw [← hout, ← Option.some.inj hget]
      exact List.mem_cons_self ..
    · exact Or.inl hget

/-- A new edge between stored documents. -/
theorem createEdgeValidated (h : db.Anchored) (f : Faults) {edge : Edge} (hs : NulFree edge.src)
    (hd : NulFree edge.dst) (hi : NulFree edge.nanoid)
    (hfresh : (db.edges.keyspaces edge.label)[encodeEdgeIdKey edge.nanoid]? = none) :
    (db.createEdgeValidated f edge).1.Anchored := by
  rcases createEdgeValidated_cases f db edge with hsame | ⟨s, schema, s', hval, hdef, hs', heq⟩
  · rw [hsame]
    exact h
  rw [heq]
  obtain ⟨hks, hschema, hother, hold⟩ := EdgeStore.schemaOrDefine_ok hdef
  have hshaped : Shaped schema (s.keyspaces edge.label) := by
    rw [hks]
    rcases hold with hold | ⟨hnone, -⟩
    · exact h.shaped _ _ hold
    · rw [h.undefined _ hnone]
      exact ⟨∅, ∅, Shape.empty⟩
  have hpolicy : schema.onDelete ≠ .noAction := by
    rcases hold with hold | ⟨-, rfl⟩
    · exact h.policies _ _ hold
    · show OnDeletePolicy.cascade ≠ .noAction
      decide
  have hget : s'.getSchema = s.getSchema := by
    rcases hs' with rfl | rfl <;> rfl
  have hthere : ∀ l, l ≠ edge.label → s'.keyspaces l = db.edges.keyspaces l := by
    intro l hl
    rcases hs' with rfl | rfl
    · rw [hks]
    · rw [← hks]
      exact Function.update_of_ne hl _ _
  -- the keyspace of the label: at most the links of the new edge are added
  have hhere : Shaped schema (s'.keyspaces edge.label) ∧ ∀ (k : Bytes) (v : EdgeEntry), IsLinkKey k →
      (s'.keyspaces edge.label)[k]? = some v → (db.edges.keyspaces edge.label)[k]? = some v ∨
        (k, v) ∈ (EdgeOp.storedOf schema edge).links schema := by
    rw [← hks] at hfresh ⊢
    rcases hs' with rfl | rfl
    · exact ⟨hshaped, fun k v _ hkv => Or.inl hkv⟩
    · obtain ⟨E, I, hshape⟩ := hshaped
      obtain ⟨E', I', hshape', -⟩ := EdgeOp.shape_create hshape hs hd hi hfresh
      rw [EdgeOp.keyspaces_write]
      exact ⟨⟨E', I', hshape'⟩, fun k v hk => link_of_createWrites hk⟩
  have hlabel : ∀ l schema', s'.getSchema l = some schema' → l = edge.label ∧ schema' = schema ∨
      l ≠ edge.label ∧ db.edges.getSchema l = some schema' := by
    intro l schema' hl
    rw [hget] at hl
    by_cases heql : l = edge.label
    · rw [heql, hschema] at hl
      exact Or.inl ⟨heql, (Option.some.inj hl).symm⟩
    · rw [hother l heql] at hl
      exact Or.inr ⟨heql, hl⟩
  refine ⟨h.markers, ?_, ?_, ?_, ?_⟩
  · intro l schema' hl
    show Shaped schema' (s'.keyspaces l)
    rcases hlabel l schema' hl with ⟨rfl, rfl⟩ | ⟨hne, hl⟩
    · exact hhere.1
    · rw [hthere l hne]
      exact h.shaped l schema' hl
  · intro l hl
    show s'.keyspaces l = ∅
    replace hl : s.getSchema l = none := hget ▸ hl
    have hne : l ≠ edge.label := by
      rintro rfl
      rw [hschema] at hl
      cases hl
    rw [hthere l hne]
    exact h.undefined l (hother l hne ▸ hl)
  · intro l schema' hl
    rcases hlabel l schema' hl with ⟨-, rfl⟩ | ⟨-, hl⟩
    · exact hpolicy
    · exact h.policies l schema' hl
  · intro l k v hk hkv node hment
    replace hkv : (s'.keyspaces l)[k]? = some v := hkv
    by_cases hl : l = edge.label
    · subst hl
      rcases hhere.2 k v hk hkv with hkv | hlink
      · exact h.grounded _ k v hk hkv node hment
      · have hend := (mentions_link (EdgeOp.clean_storedOf hs hd hi) hlink).mp hment
        obtain ⟨c, key, hsplit, hmarker⟩ :=
          markers_of_validateEdgeEndpointsInTx hval node (ends_storedOf hend)
        refine ⟨c, key, hsplit, ?_⟩
        show (db.getDocument c (utf8 key)).isSome
        rw [getDocument_eq, ← h.markers c (utf8 key)]
        exact hmarker
    · rw [hthere l hl] at hkv
      exact h.grounded l k v hk hkv node hment

/-! ### Deleted edges -/

/-- Types that only lost entries. -/
theorem of_removed (h : db.Anchored) {s : EdgeStore} (hschemas : s.schemas = db.edges.schemas)
    (hshaped : ∀ label schema, db.edges.getSchema label = some schema →
      Shaped schema (s.keyspaces label))
    (hundefined : ∀ label, db.edges.getSchema label = none → s.keyspaces label = ∅)
    (hless : ∀ (label : String) (k : Bytes) (v : EdgeEntry), IsLinkKey k →
      (s.keyspaces label)[k]? = some v → (db.edges.keyspaces label)[k]? = some v) :
    ({ db with edges := s } : Database).Anchored := by
  have hget : s.getSchema = db.edges.getSchema := by
    funext label
    show s.schemas.lookup label = _
    rw [hschemas]
    rfl
  refine ⟨h.markers, ?_, ?_, ?_, ?_⟩
  · exact fun label schema hl => hshaped label schema (hget ▸ hl)
  · exact fun label hl => hundefined label (hget ▸ hl)
  · exact fun label schema hl => h.policies label schema (hget ▸ hl)
  · exact fun label k v hk hkv => h.grounded label k v hk (hless label k v hk hkv)

section Delete

variable [External]

/-- The edges between two nodes go. -/
theorem deleteEdge (h : db.Anchored) {src dst : String} (hs : NulFree src) (hd : NulFree dst)
    (label : String) :
    ({ db with edges := (db.edges.delete src label dst).1 } : Database).Anchored := by
  cases hschema : db.edges.getSchema label with
  | none =>
    have hsame : (db.edges.delete src label dst).1 = db.edges := by
      simp only [EdgeStore.delete, hschema]
    rw [hsame]
    exact h
  | some schema =>
    obtain ⟨E, I, hshape⟩ := h.shaped label schema hschema
    obtain ⟨-, E', I', hshape', -⟩ :=
      EdgeOp.exec_shape hschema hshape (show (EdgeOp.delete src dst).Valid label _ from ⟨hs, hd⟩)
    replace hshape' : Shape schema ((db.edges.delete src label dst).1.keyspaces label) E' I' :=
      hshape'
    rcases EdgeStore.delete_removes db.edges src label dst with hsame | ⟨ws, hws, hwrite⟩
    · rw [hsame]
      exact h
    · have hother : ∀ l, l ≠ label → (db.edges.write label ws).keyspaces l = db.edges.keyspaces l :=
        fun l hl => Function.update_of_ne hl _ _
      rw [hwrite] at hshape' ⊢
      refine h.of_removed rfl ?_ ?_ ?_
      · intro l schema' hl
        by_cases heq : l = label
        · subst heq
          rw [hschema] at hl
          obtain rfl := Option.some.inj hl
          exact ⟨E', I', hshape'⟩
        · rw [hother l heq]
          exact h.shaped l schema' hl
      · intro l hl
        have hne : l ≠ label := by
          rintro rfl
          rw [hschema] at hl
          cases hl
        rw [hother l hne]
        exact h.undefined l hl
      · intro l k v _ hkv
        by_cases heq : l = label
        · subst heq
          rw [EdgeOp.keyspaces_write] at hkv
          exact Keyspace.getElem?_of_removals hws hkv
        · rwa [hother l heq] at hkv

theorem deleteListed {edges : List Edge} (h : db.Anchored)
    (hends : ∀ e ∈ edges, NulFree e.src ∧ NulFree e.dst) (count : Nat) :
    ({ db with edges := (db.edges.deleteListed count edges).1 } : Database).Anchored := by
  induction edges generalizing db count with
  | nil => exact h
  | cons e es ih =>
    rw [List.forall_mem_cons] at hends
    have hnext := h.deleteEdge hends.1.1 hends.1.2 e.label
    unfold EdgeStore.deleteListed
    rcases hr : db.edges.delete e.src e.label e.dst with ⟨s, err | n⟩
    · rw [hr] at hnext
      exact hnext
    · rw [hr] at hnext
      exact ih hnext hends.2 (count + 1)

omit [External] in
/-- The listed edges of a node have clean ends. -/
theorem ends_of_listOut (h : db.Anchored) {src label : String} (hs : NulFree src)
    {edges : List Edge} {cursor : Option String} {limit : Nat}
    (hlist : db.edges.listOut src label none limit = .ok (edges, cursor)) :
    ∀ e ∈ edges, NulFree e.src ∧ NulFree e.dst := by
  cases hschema : db.edges.getSchema label with
  | none =>
    rw [EdgeStore.listOut, hschema] at hlist
    rw [← (Prod.mk.inj (Except.ok.inj hlist)).1]
    exact List.forall_mem_nil _
  | some schema =>
    obtain ⟨E, I, hshape⟩ := h.shaped label schema hschema
    obtain ⟨all, hall⟩ := listOut_pages hschema hshape hs
    obtain ⟨cursor', hfirst⟩ := (hall.listsAll (range_keys_nodup _ _ _)).first limit
    obtain ⟨rfl, -⟩ := Prod.mk.inj (Except.ok.inj (hlist.symm.trans hfirst))
    intro e he
    obtain ⟨x, hx, other, hends, rfl⟩ := (hall.mem e).mp (List.mem_of_mem_take he)
    obtain ⟨hxs, hxd, -⟩ := hshape.clean_of_mem hx
    refine ⟨hs, ?_⟩
    show NulFree other
    rcases hends with ⟨-, rfl⟩ | ⟨-, -, rfl⟩
    · exact hxd
    · exact hxs

theorem deletePages (h : db.Anchored) {src : String} (hs : NulFree src) (label : String)
    (count passes : Nat) :
    ({ db with edges := (db.edges.deletePages src label count passes).1 } : Database).Anchored := by
  induction passes generalizing db count with
  | zero => exact h
  | succ passes ih =>
    unfold EdgeStore.deletePages
    cases hlist : db.edges.listOut src label none 1000 with
    | error e => exact h
    | ok r =>
      obtain ⟨edges, cursor⟩ := r
      cases edges with
      | nil => exact h
      | cons e es =>
        have hpage := h.deleteListed (h.ends_of_listOut hs hlist) count
        dsimp only
        rcases hr : db.edges.deleteListed count (e :: es) with ⟨s, err | n⟩
        · rw [hr] at hpage
          exact hpage
        · rw [hr] at hpage
          exact ih hpage n

theorem executeDeleteEdge (h : db.Anchored) {src : String} (hs : NulFree src)
    {dst : Option String} (hd : ∀ d ∈ dst, NulFree d) (label : String) (passes : Nat) :
    ({ db with edges := (db.edges.executeDeleteEdge src label dst passes).1 } :
      Database).Anchored := by
  unfold EdgeStore.executeDeleteEdge
  cases dst with
  | none => exact h.deletePages hs label 0 passes
  | some dst =>
    have hnext := h.deleteEdge hs (hd dst rfl) label
    dsimp only
    rcases hr : db.edges.delete src label dst with ⟨s, err | n⟩
    · rw [hr] at hnext
      exact hnext
    · rw [hr] at hnext
      exact hnext

end Delete

/-! ### Deleted documents -/

theorem eq_of_splitId {node c key : String} (h : splitId node = .ok (c, key)) :
    node = c ++ ":" ++ key := by
  unfold splitId at h
  split at h
  · cases h
  · next parts hsplit =>
    obtain rfl := Except.ok.inj h
    exact append_of_splitOnce hsplit

/-- One set of edges and of id entries for each label. -/
theorem exists_shapes (h : db.Anchored) : ∃ (E : String → Set StoredEdge) (I : String → Set IdEntry),
    ∀ label schema, db.edges.getSchema label = some schema →
      Shape schema (db.edges.keyspaces label) (E label) (I label) := by
  have hlabel : ∀ label, ∃ E I, ∀ schema, db.edges.getSchema label = some schema →
      Shape schema (db.edges.keyspaces label) E I := by
    intro label
    cases hschema : db.edges.getSchema label with
    | none => exact ⟨∅, ∅, nofun⟩
    | some schema =>
      obtain ⟨E, I, hshape⟩ := h.shaped label schema hschema
      refine ⟨E, I, ?_⟩
      intro schema' heq
      rwa [← Option.some.inj heq]
  choose E I hEI using hlabel
  exact ⟨E, I, hEI⟩

/-- A RESTRICT type that lets a record go has no edge at it. -/
theorem not_restricted (h : db.Anchored) {node : String} (hnode : NulFree node)
    (hallowed : db.edges.checkDeleteAllowed node = .ok ()) : ¬ db.Restricted node := by
  rintro ⟨label, schema, k, v, hschema, hpolicy, hk, hkv, hment⟩
  obtain ⟨E, I, hshape⟩ := h.shaped label schema hschema
  obtain ⟨e, he, hlink⟩ := (hshape.links k v hk).mp hkv
  rw [mentions_link (hshape.clean_of_mem he) hlink] at hment
  obtain ⟨⟨cursor, hout⟩, ⟨cursor', hin⟩⟩ :=
    restrictAllows_iff.mp (checkDeleteAllowed_iff.mp hallowed label schema hschema hpolicy)
  -- a first page of one edge is empty only if there is none
  have hempty : ∀ (all : List Edge), all.take (EdgeStore.clampLimit 1) = [] → all = [] := by
    intro all hall
    cases all with
    | nil => rfl
    | cons _ _ => cases hall
  have hnoOut : ∀ x ∈ E, ∀ other, ¬ (x.src = node ∧ other = x.dst ∨
      schema.isUndirected = true ∧ x.dst = node ∧ other = x.src) := by
    intro x hx other hends
    obtain ⟨all, hall⟩ := listOut_pages hschema hshape hnode
    obtain ⟨c, hfirst⟩ := (hall.listsAll (range_keys_nodup _ _ _)).first 1
    have htake := (Prod.mk.inj (Except.ok.inj (hfirst.symm.trans hout))).1
    have hmem := (hall.mem _).mpr ⟨x, hx, other, hends, rfl⟩
    rw [hempty all htake] at hmem
    exact absurd hmem List.not_mem_nil
  rcases hment with hsrc | hdst
  · exact hnoOut e he e.dst (Or.inl ⟨hsrc, rfl⟩)
  · cases hund : schema.isUndirected with
    | true => exact hnoOut e he e.src (Or.inr ⟨hund, hdst, rfl⟩)
    | false =>
      obtain ⟨all, hall⟩ := listIn_pages hschema hshape hnode hund
      obtain ⟨c, hfirst⟩ := (hall.listsAll (range_keys_nodup _ _ _)).first 1
      have htake := (Prod.mk.inj (Except.ok.inj (hfirst.symm.trans hin))).1
      have hmem := (hall.mem _).mpr ⟨e, he, hdst, rfl⟩
      rw [hempty all htake] at hmem
      exact absurd hmem List.not_mem_nil

/-- A type without the edges on the first pages still has a shape. -/
theorem shape_removed {schema : EdgeSchema} {ks ks' : Keyspace EdgeEntry} {E : Set StoredEdge}
    {I : Set IdEntry} {node : String} (h : Shape schema ks E I)
    (hget : ∀ (k : Bytes) (v : EdgeEntry),
      ks'[k]? = some v ↔ ks[k]? = some v ∧ ¬ Removed schema ks node E k) :
    Shape schema ks' {e ∈ E | ¬ OnPage schema (firstPages schema ks node) e}
      {x ∈ I | ¬ ∃ e ∈ E, OnPage schema (firstPages schema ks node) e ∧ x = e.name} where
  clean := fun x hx => h.clean x hx.1
  named := by
    rintro e ⟨he, hoff⟩
    refine ⟨h.named e he, ?_⟩
    rintro ⟨e', he', hon, hname⟩
    have hslot : InSlot schema e'.name e :=
      ⟨congrArg IdEntry.src hname, congrArg IdEntry.dst hname, fun _ => congrArg IdEntry.id hname⟩
    rw [h.slot_unique he' he hslot] at hoff
    exact hoff hon
  links := by
    intro k v hk
    rw [hget, h.links k v hk]
    constructor
    · rintro ⟨⟨e, he, hlink⟩, hkept⟩
      exact ⟨e, ⟨he, fun hon => hkept ((removed_link_iff h he hlink).mpr hon)⟩, hlink⟩
    · rintro ⟨e, ⟨he, hoff⟩, hlink⟩
      exact ⟨⟨e, he, hlink⟩, fun hrem => hoff ((removed_link_iff h he hlink).mp hrem)⟩
  ids := by
    intro k v hk
    rw [hget, h.ids k v hk]
    constructor
    · rintro ⟨⟨x, hx, hentry⟩, hkept⟩
      refine ⟨x, ⟨hx, fun hon => hkept ?_⟩, hentry⟩
      rw [show k = x.entry.1 from congrArg Prod.fst hentry]
      exact (removed_id_iff h hx).mpr hon
    · rintro ⟨x, ⟨hx, hoff⟩, hentry⟩
      refine ⟨⟨x, hx, hentry⟩, fun hrem => hoff ?_⟩
      rw [show k = x.entry.1 from congrArg Prod.fst hentry] at hrem
      exact (removed_id_iff h hx).mp hrem

section Delete

variable [External]

/-- A delete that does not answer `true` changes no edge. -/
theorem edges_of_deleteDocument {f : Faults} {c key : String}
    (hno : (db.deleteDocument f c key).2 ≠ .ok true) :
    (db.deleteDocument f c key).1.edges = db.edges := by
  have hout := DocCall.delete_outcome f db c key
  generalize db.deleteDocument f c key = res at hout hno
  cases hout with
  | untouched r _ _ => rfl
  | violated e _ _ => rfl
  | rolledBack r _ _ _ _ => rfl
  | committed removals _ _ _ _ => exact absurd rfl hno

/-- A document whose edges are all listed goes with its edges. -/
theorem deleteDocument (h : db.Anchored) (f : Faults) {c key : String}
    (hnode : NulFree (c ++ ":" ++ key))
    (hlisted : ¬ db.Restricted (c ++ ":" ++ key) → db.CascadeListed (c ++ ":" ++ key)) :
    (db.deleteDocument f c key).1.Anchored := by
  have hmarkers : (db.deleteDocument f c key).1.MarkersExact :=
    DocCall.exec_kept markersExact_kept h.markers f (.delete c key)
  have hdocs : ∀ c' k, (db.deleteDocument f c key).1.getDocument c' k =
      if (db.deleteDocument f c key).2 = .ok true ∧ c = c' ∧ utf8 key = k then none
      else db.getDocument c' k := DocCall.exec_getDocument f db (.delete c key)
  by_cases hok : (db.deleteDocument f c key).2 = .ok true
  · obtain ⟨removals, hrem, hedges⟩ := deleteDocument_edges hok
    have hfree : ¬ db.Restricted (c ++ ":" ++ key) :=
      h.not_restricted hnode (DocCall.oldDoc_of_exec (.delete c key) hok).2.2
    obtain ⟨E, I, hshapes⟩ := h.exists_shapes
    obtain ⟨removals', hrem', hcascade, hother⟩ :=
      getElem?_removals (fun label schema hl _ => hshapes label schema hl) hnode
    obtain rfl := Except.ok.inj (hrem.symm.trans hrem')
    have hkeep : ∀ label, (∀ schema, db.edges.getSchema label = some schema →
        schema.onDelete ≠ .cascade) → (db.deleteDocument f c key).1.edges.keyspaces label =
          db.edges.keyspaces label := by
      intro label hno
      rw [hedges]
      exact hother label hno
    have hgone : ∀ label schema, db.edges.getSchema label = some schema →
        schema.onDelete = .cascade → ∀ (k : Bytes) (v : EdgeEntry),
        ((db.deleteDocument f c key).1.edges.keyspaces label)[k]? = some v ↔
          (db.edges.keyspaces label)[k]? = some v ∧
            ¬ Removed schema (db.edges.keyspaces label) (c ++ ":" ++ key) (E label) k := by
      rw [hedges]
      exact hcascade
    have hschemas : (db.deleteDocument f c key).1.edges.getSchema = db.edges.getSchema := by
      rw [hedges]
      rfl
    refine ⟨hmarkers, ?_, ?_, ?_, ?_⟩
    · intro label schema hl
      rw [hschemas] at hl
      by_cases hpolicy : schema.onDelete = .cascade
      · exact ⟨_, _, shape_removed (hshapes label schema hl) (hgone label schema hl hpolicy)⟩
      · rw [hkeep label fun schema' hl' => by rwa [← Option.some.inj (hl.symm.trans hl')]]
        exact ⟨_, _, hshapes label schema hl⟩
    · intro label hl
      rw [hschemas] at hl
      rw [hkeep label fun schema hl' => absurd (hl.symm.trans hl') nofun]
      exact h.undefined label hl
    · intro label schema hl
      rw [hschemas] at hl
      exact h.policies label schema hl
    · intro label k v hk hkv node hment
      -- the entry was there before, and it does not name the deleted document
      obtain ⟨hbefore, hne⟩ : (db.edges.keyspaces label)[k]? = some v ∧ node ≠ c ++ ":" ++ key := by
        cases hl : db.edges.getSchema label with
        | none =>
          rw [hkeep label fun schema hl' => absurd (hl.symm.trans hl') nofun, h.undefined label hl]
            at hkv
          simp at hkv
        | some schema =>
          by_cases hpolicy : schema.onDelete = .cascade
          · obtain ⟨hbefore, hkept⟩ := (hgone label schema hl hpolicy k v).mp hkv
            refine ⟨hbefore, ?_⟩
            rintro rfl
            have hshape := hshapes label schema hl
            obtain ⟨e, he, hlink⟩ := (hshape.links k v hk).mp hbefore
            rw [mentions_link (hshape.clean_of_mem he) hlink] at hment
            exact hkept ((removed_link_iff hshape he hlink).mpr
              (hlisted hfree label schema hl hpolicy _ _ hshape e he hment))
          · rw [hkeep label fun schema' hl' => by rwa [← Option.some.inj (hl.symm.trans hl')]] at hkv
            refine ⟨hkv, ?_⟩
            rintro rfl
            have hrestrict : schema.onDelete = .restrict := by
              cases hp : schema.onDelete with
              | restrict => rfl
              | cascade => exact absurd hp hpolicy
              | noAction => exact absurd hp (h.policies label schema hl)
            exact hfree ⟨label, schema, k, v, hl, hrestrict, hk, hkv, hment⟩
      obtain ⟨c', key', hsplit, hdoc⟩ := h.grounded label k v hk hbefore node hment
      refine ⟨c', key', hsplit, ?_⟩
      rw [hdocs, if_neg]
      · exact hdoc
      · rintro ⟨-, rfl, hkey⟩
        rw [utf8_inj.mp hkey] at hne
        exact hne (eq_of_splitId hsplit)
  · refine h.of_docs hmarkers (edges_of_deleteDocument hok) ?_
    intro c' k hdoc
    rwa [hdocs, if_neg fun hcond => hok hcond.1]

end Delete

/-! ### Stored documents -/

section Documents

variable [External]

theorem setDocument (h : db.Anchored) (f : Faults) (doc : Document) :
    (db.setDocument f doc).1.Anchored := by
  have hmarkers : (db.setDocument f doc).1.MarkersExact :=
    DocCall.exec_kept markersExact_kept h.markers f (.set doc)
  have hedges : ((DocCall.set doc).exec f db).1.edges = db.edges := by
    obtain ⟨db0, hopen, hout⟩ := DocCall.exec_outcome f db (.set doc)
    generalize (DocCall.set doc).exec f db = res at hout
    cases hout with
    | committed removals _ _ _ hrem =>
      obtain rfl : removals = [] := hrem
      exact hopen.edges
    | _ => exact hopen.edges
  refine h.of_docs hmarkers hedges ?_
  intro c k hdoc
  show (((DocCall.set doc).exec f db).1.getDocument c k).isSome
  rw [DocCall.exec_getDocument]
  split
  · rfl
  · exact hdoc

omit [External] in
/-- Creates never take a document away. -/
theorem isSome_docAfter (docs : List Document) (c key : String) {doc : Option Document}
    (h : doc.isSome) : (docAfter (docs.map .createDoc) c key doc).isSome := by
  induction docs generalizing doc with
  | nil => exact h
  | cons d docs ih =>
    refine ih ?_
    show (if (WriteOp.createDoc d).target = some (c, key) then some d else doc).isSome
    split
    · rfl
    · exact h

theorem createDocuments (h : db.Anchored) (f : BatchFaults) (docs : List Document) :
    (db.atomicWriteBatch f (docs.map .createDoc)).1.Anchored := by
  refine h.of_docs (atomicWriteBatch_kept markersExact_kept h.markers f _) ?_ ?_
  · refine atomicWriteBatch_edges f db ?_
    intro op hop
    obtain ⟨d, -, rfl⟩ := List.mem_map.mp hop
    exact ⟨rfl, rfl⟩
  · intro c k hdoc
    obtain ⟨d, hd⟩ := Option.isSome_iff_exists.mp hdoc
    obtain rfl : utf8 d.key = k := db.keyed (db.getDocument_eq c k ▸ hd)
    rw [atomicWriteBatch_getDocument]
    split
    · exact isSome_docAfter docs c d.key hdoc
    · exact hdoc

end Documents

/-! ### Collections -/

theorem getOrCreateCollection (h : db.Anchored) (f : Faults) (c : String) :
    (db.getOrCreateCollection f c).1.Anchored := by
  have hopen := (getOrCreateCollection_opened f db c).opens
  refine h.of_docs ?_ hopen.edges ?_
  · intro c' k
    rw [hopen.markers, hopen.docs]
    exact h.markers c' k
  · intro c' k hdoc
    rwa [hopen.getDocument]

end Anchored

/-- Up to 1000 edges in either direction are all listed. -/
theorem cascadeListed_of_short {db : Database} {node : String} (hnode : NulFree node)
    (hshort : ∀ label schema, db.edges.getSchema label = some schema → schema.onDelete = .cascade →
      ((db.edges.keyspaces label).range (encodeEdgeOutPrefix node)
        (encodeEdgeOutPrefixEnd node)).length ≤ 1000 ∧
      ((db.edges.keyspaces label).range (encodeEdgeInPrefix node)
        (encodeEdgeInPrefixEnd node)).length ≤ 1000) : db.CascadeListed node := by
  intro label schema hschema hpolicy E I hshape e he hend
  obtain ⟨hout, hin⟩ := hshort label schema hschema hpolicy
  have houtPage : ∀ other, (e.src = node ∧ other = e.dst ∨
      schema.isUndirected = true ∧ e.dst = node ∧ other = e.src) →
      outKey schema node other e.data.id ∈
        firstPages schema (db.edges.keyspaces label) node := by
    intro other hends
    have hmem := (mem_out_entries hshape hnode).mpr ⟨e, he, other, hends, rfl⟩
    refine List.mem_append_left _ (List.mem_map.mpr
      ⟨(outKey schema node other e.data.id, serializeEdgeData e.data), ?_, rfl⟩)
    rw [outPage, List.take_of_length_le hout]
    exact hmem
  rcases hend with rfl | rfl
  · exact ⟨_, List.mem_cons_self .., houtPage e.dst (Or.inl ⟨rfl, rfl⟩)⟩
  · refine ⟨reverseKey schema e.src e.dst e.data.id, List.mem_cons_of_mem _ (List.mem_cons_self ..), ?_⟩
    cases hund : schema.isUndirected with
    | true =>
      rw [reverseKey, if_pos hund]
      exact houtPage e.src (Or.inr ⟨hund, rfl, rfl⟩)
    | false =>
      have hmem := (mem_in_entries hshape hnode hund).mpr ⟨e, he, rfl, rfl⟩
      rw [reverseKey, hund, if_neg (by decide)]
      refine List.mem_append_right _ (List.mem_map.mpr
        ⟨(inKey schema e.dst e.src e.data.id, inValue schema e.data.id), ?_, rfl⟩)
      rw [hund, if_neg (by decide), inPage, List.take_of_length_le hin]
      exact hmem

/-- No edge is stored at a record of the collection. -/
def NoEdgeAt (db : Database) (name : String) : Prop :=
  ∀ (label : String) (k : Bytes) (v : EdgeEntry), IsLinkKey k →
    (db.edges.keyspaces label)[k]? = some v → ∀ node, Mentions node k v →
      ∀ key, splitId node ≠ .ok (name, key)

namespace Anchored

variable {db db' : Database}

/-- An empty collection has no edges. -/
theorem noEdgeAt_of_empty (h : db.Anchored) {name : String} (hempty : (db.docs name).isEmpty = true) :
    db.NoEdgeAt name := by
  intro label k v hk hkv node hment key hname
  obtain ⟨c, key', hsplit, hdoc⟩ := h.grounded label k v hk hkv node hment
  obtain ⟨rfl, rfl⟩ := Prod.mk.inj (Except.ok.inj (hname.symm.trans hsplit))
  rw [getDocument_eq, Std.ExtTreeMap.isEmpty_iff.mp hempty] at hdoc
  simp at hdoc

/-- A collection without edges can be cleared. -/
theorem of_cleared (h : db.Anchored) {name : String} (hno : db.NoEdgeAt name)
    {o : Option CollectionKeyspaces} (ho : o = none ∨ o = some .empty)
    (hks : db'.keyspaces = Function.update db.keyspaces name o) (hedges : db'.edges = db.edges) :
    db'.Anchored := by
  have hother : ∀ c, c ≠ name → db'.keyspaces c = db.keyspaces c := by
    intro c hc
    rw [hks, Function.update_of_ne hc]
  have hname : db'.keyspaces name = o := by rw [hks, Function.update_self]
  refine ⟨?_, ?_, ?_, ?_, ?_⟩
  · intro c k
    by_cases hc : c = name
    · subst hc
      unfold Database.markers Database.docs
      rw [hname]
      rcases ho with rfl | rfl <;> simp [CollectionKeyspaces.empty]
    · have hsame := h.markers c k
      unfold Database.markers Database.docs at hsame ⊢
      rwa [hother c hc]
  · rw [hedges]
    exact h.shaped
  · rw [hedges]
    exact h.undefined
  · rw [hedges]
    exact h.policies
  · intro label k v hk hkv node hment
    rw [hedges] at hkv
    obtain ⟨c, key, hsplit, hdoc⟩ := h.grounded label k v hk hkv node hment
    refine ⟨c, key, hsplit, ?_⟩
    have hc : c ≠ name := by
      rintro rfl
      exact hno label k v hk hkv node hment key hsplit
    unfold Database.getDocument at hdoc ⊢
    rwa [hother c hc]

end Anchored

end Database

/-! ## Statements on anchored databases -/

namespace Engine

variable {work : IndexWork} {f : StatementFaults} {s : Engine}

/-- The registry holds the indexes of the schema already: nothing is dropped or built. -/
theorem syncIndexes_of_loaded {db : Database} {schema : CollectionSchema}
    (h : db.indexes schema.name = schema.indexes.map IndexDefinition.toIndexDef) :
    syncIndexes work db schema = (db, .ok ()) := by
  have hextra : (db.indexes schema.name).filter
      (fun e => ! schema.indexes.any (·.fields = e.fields)) = [] := by
    refine List.filter_eq_nil_iff.mpr ?_
    intro e he
    rw [h] at he
    obtain ⟨i, hi, rfl⟩ := List.mem_map.mp he
    simpa using ⟨i, hi, rfl⟩
  have hmissing : schema.indexes.filter
      (fun i => ! (db.indexes schema.name).any (·.fields = i.fields)) = [] := by
    refine List.filter_eq_nil_iff.mpr ?_
    intro i hi
    rw [h]
    simpa using ⟨i, hi, rfl⟩
  unfold syncIndexes
  simp only [hextra, hmissing]
  rfl

theorem saveSchema_anchored (h : s.db.Anchored) (schema : CollectionSchema) :
    (s.saveSchema f schema).1.db.Anchored := by
  have hopen := h.getOrCreateCollection (f.rows 0) schema.name
  unfold saveSchema
  rcases hr : s.db.getOrCreateCollection (f.rows 0) schema.name with ⟨db, e | u⟩
  · rw [hr] at hopen
    exact hopen
  · rw [hr] at hopen
    cases f.schema with
    | some e => exact hopen
    | none =>
      dsimp only
      split
      · exact hopen
      · exact hopen.of_docs (fun c k => hopen.markers c k) rfl fun _ _ hdoc => hdoc

/-- After a successful `save_schema` the indexes are those of the schema. -/
theorem indexes_of_saveSchema {schema : CollectionSchema} {s' : Engine}
    (h : s.saveSchema f schema = (s', .ok ())) :
    s'.db.indexes schema.name = schema.indexes.map IndexDefinition.toIndexDef := by
  unfold saveSchema at h
  rcases hr : s.db.getOrCreateCollection (f.rows 0) schema.name with ⟨db, e | u⟩
  · rw [hr] at h
    cases h
  · rw [hr] at h
    cases hschema : f.schema with
    | some e =>
      rw [hschema] at h
      cases h
    | none =>
      rw [hschema] at h
      dsimp only at h
      split at h
      · cases h
      · rw [← (Prod.mk.inj h).1]
        exact Function.update_self ..

theorem defineCollection_anchored (h : s.db.Anchored) (schema : CollectionSchema) :
    (s.defineCollection work f schema).1.db.Anchored := by
  have hsave : (s.saveSchema f schema).1.db.Anchored := saveSchema_anchored h schema
  unfold defineCollection
  cases validateSchema schema with
  | error e => exact h
  | ok u =>
    dsimp only
    rcases hr : s.saveSchema f schema with ⟨s', e | u⟩
    · rw [hr] at hsave
      exact hsave
    · rw [hr] at hsave
      simp only [syncIndexes_of_loaded (indexes_of_saveSchema hr)]
      exact hsave

theorem clearKeyspaces_anchored {db : Database} (h : db.Anchored) {name : String}
    (hno : db.NoEdgeAt name) : (clearKeyspaces f db name).1.Anchored := by
  unfold clearKeyspaces
  cases db.keyspaces name with
  | none => exact h
  | some ks =>
    dsimp only
    cases f.clear with
    | some e => exact h.of_cleared hno (Or.inr rfl) rfl rfl
    | none => exact h.of_cleared hno (Or.inl rfl) (Function.update_idem ..) rfl

theorem dropCollection_anchored (h : s.db.Anchored) {name : String} {cascade : Bool}
    (hno : cascade = true → s.db.NoEdgeAt name) :
    (s.dropCollection f name cascade).1.db.Anchored := by
  unfold dropCollection
  cases f.list with
  | some e => exact h
  | none =>
    dsimp only
    split
    · exact h
    · next hgo =>
      -- an empty collection has no edges, a CASCADE drop is asked to find none
      have hfree : s.db.NoEdgeAt name := by
        cases cascade with
        | true => exact hno rfl
        | false => exact h.noEdgeAt_of_empty (by simpa using hgo)
      have hdelete : (s.deleteSchema f name).1.db.Anchored := by
        unfold deleteSchema
        split
        · exact h
        · split
          · exact h
          · have hindexes : ({ s.db with indexes := Function.update s.db.indexes name [] } :
                Database).Anchored := h.of_docs h.markers rfl fun _ _ hdoc => hdoc
            have hclear := clearKeyspaces_anchored (f := f) hindexes hfree
            dsimp only
            split
            · next hr =>
              rw [hr] at hclear
              exact hclear
            · next hr =>
              rw [hr] at hclear
              exact hclear
      split
      · next hr =>
        rw [hr] at hdelete
        exact hdelete
      · next hr =>
        rw [hr] at hdelete
        exact hdelete

end Engine

namespace Statement

variable [External]

/-- Nothing in the way of the statement: no zero byte in a record id, ids of new edges that are
not in use, a CASCADE drop without edges at the collection, deleted records with all edges on the
first pages, and no row removed before one that a RESTRICT type refuses. -/
def Safe (f : StatementFaults) (s : Engine) : Statement → Prop
  | .insert _ => True
  | .upsert _ => True
  | .relate edges =>
    EachRow (fun f db edge => db.createEdgeValidated f edge)
      (fun db edge => NulFree edge.src ∧ NulFree edge.dst ∧ NulFree edge.nanoid ∧
        (db.edges.keyspaces edge.label)[encodeEdgeIdKey edge.nanoid]? = none) f.rows s.db edges
  | .delete c keys =>
    EachRow (fun f db key => db.deleteDocument f c key)
      (fun db key => NulFree (c ++ ":" ++ key) ∧
        (¬ db.Restricted (c ++ ":" ++ key) → db.CascadeListed (c ++ ":" ++ key))) f.rows s.db keys ∧
    ∀ done key, done ++ [key] <+: keys → (s.db.getDocument c (utf8 key)).isSome →
      s.db.Restricted (c ++ ":" ++ key) → ∀ k ∈ done, s.db.getDocument c (utf8 k) = none
  | .deleteEdge src _ dst _ => NulFree src ∧ ∀ d ∈ dst, NulFree d
  | .defineCollection _ => True
  | .dropCollection name cascade => cascade = true → s.db.NoEdgeAt name

/-- The stored records that the statement is to remove. -/
def Removes (db : Database) (node : String) : Statement → Prop
  | .delete c keys => ∃ key ∈ keys, node = c ++ ":" ++ key ∧ (db.getDocument c (utf8 key)).isSome
  | .dropCollection name _ =>
    ∃ key, Database.splitId node = .ok (name, key) ∧ (db.getDocument name (utf8 key)).isSome
  | _ => False

/-- A statement that would remove an end of an edge of a RESTRICT type fails and changes nothing. -/
def RestrictKept (work : IndexWork) (f : StatementFaults) (s : Engine) (st : Statement) : Prop :=
  (∃ node, st.Removes s.db node ∧ s.db.Restricted node) →
    (∃ e, (st.exec work f s).2 = .error e) ∧ (st.exec work f s).1 = s

variable {work : IndexWork} {f : StatementFaults} {s : Engine}

/-- A safe statement keeps the database anchored, whether it succeeds or not. -/
theorem exec_anchored (h : s.db.Anchored) {st : Statement} (hsafe : st.Safe f s) :
    (st.exec work f s).1.db.Anchored := by
  cases st with
  | insert docs => exact h.createDocuments f.batch docs
  | upsert doc => exact h.setDocument (f.rows 0) doc
  | relate edges =>
    refine loopRows_invariant Database.Anchored ?_ h hsafe
    intro f db edge hdb hedge
    exact hdb.createEdgeValidated f hedge.1 hedge.2.1 hedge.2.2.1 hedge.2.2.2
  | delete c keys =>
    refine loopRows_invariant Database.Anchored ?_ h hsafe.1
    intro f db key hdb hkey
    exact hdb.deleteDocument f hkey.1 hkey.2
  | deleteEdge src label dst passes => exact h.executeDeleteEdge hsafe.1 hsafe.2 label passes
  | defineCollection schema => exact Engine.defineCollection_anchored h schema
  | dropCollection name cascade => exact Engine.dropCollection_anchored h hsafe

/-! ### Refused statements -/

/-- A record that is not stored is passed over. -/
theorem deleteDocument_of_missing {f : Faults} {db : Database} {c key : String}
    (h : db.getDocument c (utf8 key) = none) : (db.deleteDocument f c key).1 = db := by
  unfold Database.deleteDocument
  unfold Database.getDocument at h
  cases hks : db.keyspaces c with
  | none => rfl
  | some ks =>
    rw [hks] at h
    cases f.read with
    | some e => rfl
    | none =>
      simp only [show ks.docs[utf8 key]? = none from h]

/-- A record at an edge of a RESTRICT type is refused. -/
theorem deleteDocument_of_restricted {db : Database} (h : db.Anchored) {f : Faults} {c key : String}
    (hnode : NulFree (c ++ ":" ++ key)) (hdoc : (db.getDocument c (utf8 key)).isSome)
    (hrestricted : db.Restricted (c ++ ":" ++ key)) :
    ∃ e, db.deleteDocument f c key = (db, .error e) := by
  unfold Database.deleteDocument
  unfold Database.getDocument at hdoc
  cases hks : db.keyspaces c with
  | none =>
    rw [hks] at hdoc
    cases hdoc
  | some ks =>
    rw [hks] at hdoc
    cases f.read with
    | some e => exact ⟨e, rfl⟩
    | none =>
      obtain ⟨old, hold⟩ := Option.isSome_iff_exists.mp hdoc
      simp only [show ks.docs[utf8 key]? = some old from hold]
      cases hallowed : db.edges.checkDeleteAllowed (c ++ ":" ++ key) with
      | error e => exact ⟨e, rfl⟩
      | ok u => exact absurd hrestricted (h.not_restricted hnode hallowed)

/-- The rows up to the refused one remove nothing. -/
theorem deleteRows_of_restricted {db : Database} (h : db.Anchored) {rows : Nat → Faults} {c : String}
    {P : Database → String → Prop} (hclean : ∀ db key, P db key → NulFree (c ++ ":" ++ key))
    {keys : List String}
    (hrows : EachRow (fun f db key => db.deleteDocument f c key) P rows db keys)
    (hfirst : ∀ done key, done ++ [key] <+: keys → (db.getDocument c (utf8 key)).isSome →
      db.Restricted (c ++ ":" ++ key) → ∀ k ∈ done, db.getDocument c (utf8 k) = none)
    (hkey : ∃ key ∈ keys, (db.getDocument c (utf8 key)).isSome ∧ db.Restricted (c ++ ":" ++ key)) :
    ∃ e, loopRows (fun f db key => db.deleteDocument f c key) rows db keys = (db, .error e) := by
  induction keys generalizing rows with
  | nil =>
    obtain ⟨key, hmem, -⟩ := hkey
    exact absurd hmem List.not_mem_nil
  | cons a as ih =>
    obtain ⟨ha, has⟩ := hrows
    by_cases hblocked : (db.getDocument c (utf8 a)).isSome ∧ db.Restricted (c ++ ":" ++ a)
    · obtain ⟨e, he⟩ := deleteDocument_of_restricted h (f := rows 0) (hclean db a ha) hblocked.1
        hblocked.2
      exact ⟨e, by simp only [loopRows, he]⟩
    · obtain ⟨key, hmem, hdoc, hrestricted⟩ := hkey
      have hmem : key ∈ as := by
        rcases List.mem_cons.mp hmem with rfl | hmem
        · exact absurd ⟨hdoc, hrestricted⟩ hblocked
        · exact hmem
      -- the first row comes before a refused one, so it is not stored
      have hmissing : db.getDocument c (utf8 a) = none := by
        obtain ⟨pre, post, rfl⟩ := List.append_of_mem hmem
        refine hfirst (a :: pre) key ⟨post, ?_⟩ hdoc hrestricted a List.mem_cons_self
        simp
      have hsame := deleteDocument_of_missing (f := rows 0) hmissing
      unfold loopRows
      rcases hr : db.deleteDocument (rows 0) c a with ⟨db', e | b⟩
      · rw [hr] at hsame
        obtain rfl : db' = db := hsame
        exact ⟨e, rfl⟩
      · rw [hr] at hsame
        obtain rfl : db' = db := hsame
        refine ih (has _ b hr) ?_ ⟨key, hmem, hdoc, hrestricted⟩
        intro done key' hpre hdoc' hrestricted' k hk
        refine hfirst (a :: done) key' ?_ hdoc' hrestricted' k (List.mem_cons_of_mem a hk)
        exact List.cons_prefix_cons.mpr ⟨rfl, hpre⟩

theorem restrictKept_of_safe (h : s.db.Anchored) {st : Statement} (hsafe : st.Safe f s) :
    st.RestrictKept work f s := by
  rintro ⟨node, hremoves, hrestricted⟩
  cases st with
  | delete c keys =>
    obtain ⟨key, hmem, rfl, hdoc⟩ := hremoves
    obtain ⟨e, he⟩ := deleteRows_of_restricted h (fun _ _ hP => hP.1) hsafe.1 hsafe.2
      ⟨key, hmem, hdoc, hrestricted⟩
    have hexec : (delete c keys).exec work f s = onDatabase s (s.db, .error e) :=
      congrArg (onDatabase s) he
    rw [hexec]
    exact ⟨⟨.storage e, rfl⟩, rfl⟩
  | dropCollection name cascade =>
    obtain ⟨key, hsplit, hdoc⟩ := hremoves
    show (∃ e, (s.dropCollection f name cascade).2 = .error e) ∧ (s.dropCollection f name cascade).1 = s
    unfold Engine.dropCollection
    cases f.list with
    | some e => exact ⟨⟨.storage e, rfl⟩, rfl⟩
    | none =>
      cases cascade with
      | true =>
        obtain ⟨label, schema, k, v, -, -, hk, hkv, hment⟩ := hrestricted
        exact absurd hsplit (hsafe rfl label k v hk hkv node hment key)
      | false =>
        have hfull : (s.db.docs name).isEmpty = false := by
          by_contra hempty
          rw [Bool.not_eq_false] at hempty
          rw [Database.getDocument_eq, Std.ExtTreeMap.isEmpty_iff.mp hempty] at hdoc
          simp at hdoc
        simp only [hfull]
        exact ⟨⟨.collectionNotEmpty name, rfl⟩, rfl⟩
  | _ => exact absurd hremoves id

end Statement

/-! ## Histories -/

namespace Engine

/-- No collection and no edge, with these edge types. -/
def new (types : List (String × EdgeSchema)) : Engine where
  db := ⟨fun _ => none, fun _ => [], fun _ => ∅, ⟨types, fun _ => ∅⟩⟩
  schemas := fun _ => none

section Histories

variable [External]

/-- One statement of a history. -/
def step (work : IndexWork) (s : Engine) (st : StatementFaults × Statement) : Engine :=
  (st.2.exec work st.1 s).1

omit [External] in
theorem new_anchored {types : List (String × EdgeSchema)}
    (h : ∀ p ∈ types, p.2.onDelete ≠ .noAction) : (new types).db.Anchored where
  markers := fun _ _ => rfl
  shaped := fun _ _ _ => ⟨∅, ∅, Shape.empty⟩
  undefined := fun _ _ => rfl
  policies := by
    intro label schema hl
    obtain ⟨l₁, l₂, hmem, -⟩ := List.lookup_eq_some_iff.mp hl
    exact h (label, schema) (by rw [show types = _ from hmem]; simp)
  grounded := by
    intro label k v _ hkv
    simp [new] at hkv

/-- In every history of safe statements no stored edge dangles, and no statement removes an end
of an edge of a RESTRICT type, or anything beside it. -/
theorem history_sound (work : IndexWork) {types : List (String × EdgeSchema)}
    (hpolicies : ∀ p ∈ types, p.2.onDelete ≠ .noAction) {history : List (StatementFaults × Statement)}
    (hsafe : Meets (step work) (fun s st => st.2.Safe st.1 s) (new types) history) :
    (∀ done, done <+: history → (done.foldl (step work) (new types)).db.NoDangling) ∧
      ∀ done st, done ++ [st] <+: history →
        st.2.RestrictKept work st.1 (done.foldl (step work) (new types)) := by
  have hrun : ∀ done, done <+: history → (done.foldl (step work) (new types)).db.Anchored :=
    foldl_invariant (fun s => s.db.Anchored) (fun s st h hst => Statement.exec_anchored h hst)
      (new_anchored hpolicies) hsafe
  refine ⟨fun done hdone => (hrun done hdone).grounded, ?_⟩
  intro done st hdone
  exact Statement.restrictKept_of_safe (hrun done ((List.prefix_append done [st]).trans hdone))
    (meets_iff.mp hsafe done st hdone)

end Histories

end Engine

/-! ## Towns and what joins them -/

namespace Towns

open Engine

local instance : External := .standIn

def work : IndexWork := ⟨fun db _ _ => (db, .ok ()), fun db _ _ => (db, .ok ())⟩

def town (key : String) : Document := ⟨"towns:" ++ key, [], Value.wf_no_fields⟩

def edge (label id src dst : String) : Edge :=
  ⟨label ++ ":" ++ id, "towns:" ++ src, "towns:" ++ dst, label, 1, none, []⟩

/-- `twins` has the RESTRICT policy; `buses` is not defined yet. -/
def types : List (String × EdgeSchema) :=
  [("twins", ⟨"twins", .directed, .single, .restrict, []⟩)]

/-- Statements that the storage engine answers without an error. -/
def answered (sts : List Statement) : List (StatementFaults × Statement) :=
  sts.map fun st => (.none, st)

def after (sts : List Statement) : Engine := (answered sts).foldl (step work) (new types)

/-- Every statement succeeds. -/
def succeeds (s : Engine) : List Statement → Bool
  | [] => true
  | st :: sts =>
    (st.exec work .none s).2.isOk && succeeds (st.exec work .none s).1 sts

/-- Two joined towns; then the collection is dropped. -/
def dropped : List Statement :=
  [.insert [town "a", town "b"], .relate [edge "buses" "e1" "a" "b"], .dropCollection "towns" true]

/-- Each statement succeeds, and the edge is left without its towns. -/
theorem dropped_dangling : (∀ p ∈ types, p.2.onDelete ≠ .noAction) ∧
    succeeds (new types) dropped = true ∧ ¬ (after dropped).db.NoDangling := by
  refine ⟨by decide, by decide +kernel, ?_⟩
  intro h
  have hstored : (((after dropped).db.edges.keyspaces "buses")[encodeEdgeOutKeySingle "towns:a"
      "towns:b"]?).isSome := by decide +kernel
  obtain ⟨v, hv⟩ := Option.isSome_iff_exists.mp hstored
  have hment : Mentions "towns:a" (encodeEdgeOutKeySingle "towns:a" "towns:b") v := by
    rw [Mentions, if_neg (by decide)]
    exact Or.inl (by decide)
  obtain ⟨c, key, hsplit, hdoc⟩ := h "buses" _ v (Or.inl (by decide)) hv "towns:a" hment
  have hid : Database.splitId "towns:a" = .ok ("towns", "a") := by decide
  obtain ⟨rfl, rfl⟩ := Prod.mk.inj (Except.ok.inj (hsplit.symm.trans hid))
  exact absurd hdoc (by decide +kernel)

/-- Joined towns; one goes with its bus, another is held by its twin, and the collection is not
empty. -/
def kept : List Statement :=
  [.insert [town "a", town "b", town "c"], .relate [edge "twins" "e1" "a" "b"],
    .relate [edge "buses" "e2" "b" "c"], .delete "towns" ["c"], .delete "towns" ["a"],
    .dropCollection "towns" false]

/-- Both types are defined once `buses` has an edge, and no town has many edges. -/
theorem listed (sts : List Statement) (key : String) (hkey : NulFree ("towns" ++ ":" ++ key))
    (hschemas : (after sts).db.edges.schemas = types ++ [("buses", .new "buses")])
    (hout : (((after sts).db.edges.keyspaces "buses").range (encodeEdgeOutPrefix ("towns" ++ ":" ++ key))
      (encodeEdgeOutPrefixEnd ("towns" ++ ":" ++ key))).length ≤ 1000)
    (hin : (((after sts).db.edges.keyspaces "buses").range (encodeEdgeInPrefix ("towns" ++ ":" ++ key))
      (encodeEdgeInPrefixEnd ("towns" ++ ":" ++ key))).length ≤ 1000) :
    (after sts).db.CascadeListed ("towns" ++ ":" ++ key) := by
  refine Database.cascadeListed_of_short hkey ?_
  intro label schema hschema hpolicy
  have hlookup : (types ++ [("buses", EdgeSchema.new "buses")]).lookup label = some schema := by
    rw [← hschemas]
    exact hschema
  by_cases htwins : label = "twins"
  · subst htwins
    obtain rfl := Option.some.inj hlookup
    cases hpolicy
  · by_cases hbuses : label = "buses"
    · subst hbuses
      exact ⟨hout, hin⟩
    · simp [types, List.lookup_cons, beq_eq_false_iff_ne.mpr htwins,
        beq_eq_false_iff_ne.mpr hbuses] at hlookup

/-- Nothing comes before the only row. -/
theorem alone {α : Type} {a b : α} {done : List α} (h : done ++ [b] <+: [a]) : done = [] := by
  have hlen := h.length_le
  rw [List.length_append, List.length_singleton, List.length_singleton] at hlen
  exact List.length_eq_zero_iff.mp (by omega)

theorem kept_safe :
    Meets (step work) (fun s st => st.2.Safe st.1 s) (new types) (answered kept) := by
  have hc : (after (kept.take 3)).db.CascadeListed ("towns" ++ ":" ++ "c") :=
    listed _ _ (by decide) (by decide +kernel) (by decide +kernel) (by decide +kernel)
  have ha : (after (kept.take 4)).db.CascadeListed ("towns" ++ ":" ++ "a") :=
    listed _ _ (by decide) (by decide +kernel) (by decide +kernel) (by decide +kernel)
  refine ⟨trivial, ⟨⟨by decide, by decide, by decide, by decide +kernel⟩, fun _ _ _ => trivial⟩,
    ⟨⟨by decide, by decide, by decide, by decide +kernel⟩, fun _ _ _ => trivial⟩,
    ⟨⟨⟨by decide, fun _ => hc⟩, fun _ _ _ => trivial⟩, ?_⟩,
    ⟨⟨⟨by decide, fun _ => ha⟩, fun _ _ _ => trivial⟩, ?_⟩, nofun, trivial⟩
  · intro done key hdone _ _ k hk
    rw [alone hdone] at hk
    cases hk
  · intro done key hdone _ _ k hk
    rw [alone hdone] at hk
    cases hk

/-- No edge dangles along the way, and the held town stays. -/
theorem kept_sound : (∀ done, done <+: answered kept →
      (done.foldl (step work) (new types)).db.NoDangling) ∧
    (∀ done st, done ++ [st] <+: answered kept →
      st.2.RestrictKept work st.1 (done.foldl (step work) (new types))) ∧
    ((after kept).db.getDocument "towns" (utf8 "a")).isSome ∧
    (after kept).db.getDocument "towns" (utf8 "c") = none := by
  obtain ⟨hstored, hrestrict⟩ := history_sound work (show ∀ p ∈ types, p.2.onDelete ≠ .noAction by
    decide) kept_safe
  refine ⟨hstored, hrestrict, by decide +kernel, ?_⟩
  rw [← Option.isNone_iff_eq_none]
  decide +kernel

end Towns

end StellarDb
