import StellarDb.Lib.Run
import StellarDb.Edges.Shape

/-!
# StellarDb — consistency of the edge keyspaces over runs

An edge type is *exact* when no id entry is stale: the OUT, IN and id entries describe one set
of edges. Deletes keep that. Creating an edge of a `Single` type over another one leaves the id
entry of the old edge behind, from where `get_by_id` of the old id returns the new edge and
`delete_by_id` removes it; so exactness over runs needs the condition that no create finds its
pair taken (`run_consistent`).

Every run, with overwriting creates, keeps the weaker property that the keyspace has a shape at
all (`run_shaped`).
-/

namespace StellarDb

open Keyspaces Runs

/-- The keyspace has a shape, possibly with stale id entries. -/
def Shaped (schema : EdgeSchema) (ks : Keyspace EdgeEntry) : Prop :=
  ∃ E I, Shape schema ks E I

/-- The keyspace has a shape without stale id entries. -/
def Exact (schema : EdgeSchema) (ks : Keyspace EdgeEntry) : Prop :=
  ∃ E, Shape schema ks E (StoredEdge.name '' E)

/-! ## Operations -/

/-- The writing operations of the store on one edge type. -/
inductive EdgeOp where
  | create (edge : Edge)
  | createInTx (edge : Edge)
  | delete (src dst : String)
  | deleteById (edgeId : String)
  | deleteInTx (src dst : String)

namespace EdgeOp

section

variable [External]

/-- Run an operation; the `InTx` ones are committed. -/
def exec (label : String) (s : EdgeStore) : EdgeOp → EdgeStore
  | .create edge => (s.create edge).1
  | .createInTx edge =>
    match s.createInTx edge with
    | (s, .ok ws) => s.write edge.label ws
    | (s, .error _) => s
  | .delete src dst => (s.delete src label dst).1
  | .deleteById edgeId => (s.deleteById label edgeId).1
  | .deleteInTx src dst =>
    match s.deleteInTx [] src label dst with
    | .ok ws => s.write label ws
    | .error _ => s

/-- The edge of a new entry, as it will be stored. -/
def storedOf (schema : EdgeSchema) (edge : Edge) : StoredEdge :=
  ⟨(normalize schema edge.src edge.dst).1, (normalize schema edge.src edge.dst).2,
    EdgeData.fromEdge edge⟩

/-- Zero-free node ids, a zero-free id that is not in use, the right label. -/
def Valid (label : String) (ks : Keyspace EdgeEntry) : EdgeOp → Prop
  | .create edge => edge.label = label ∧ NulFree edge.src ∧ NulFree edge.dst ∧
      NulFree edge.nanoid ∧ ks[encodeEdgeIdKey edge.nanoid]? = none
  | .createInTx edge => edge.label = label ∧ NulFree edge.src ∧ NulFree edge.dst ∧
      NulFree edge.nanoid ∧ ks[encodeEdgeIdKey edge.nanoid]? = none
  | .delete src dst => NulFree src ∧ NulFree dst
  | .deleteById _ => True
  | .deleteInTx src dst => NulFree src ∧ NulFree dst

/-- A create of a `Single` type finds no edge between its endpoints. -/
def NoOverwrite (schema : EdgeSchema) (ks : Keyspace EdgeEntry) : EdgeOp → Prop
  | .create edge => schema.cardinality = .single →
      ks[outKey schema (storedOf schema edge).src (storedOf schema edge).dst edge.nanoid]? = none
  | .createInTx edge => schema.cardinality = .single →
      ks[outKey schema (storedOf schema edge).src (storedOf schema edge).dst edge.nanoid]? = none
  | _ => True

/-! ## One step -/

variable {schema : EdgeSchema} {ks : Keyspace EdgeEntry} {E : Set StoredEdge} {I : Set IdEntry}

omit [External] in
theorem nulFree_normalize (schema : EdgeSchema) {src dst : String} (hs : NulFree src) (hd : NulFree dst) :
    NulFree (normalize schema src dst).1 ∧ NulFree (normalize schema src dst).2 := by
  unfold normalize
  split
  · exact ⟨hd, hs⟩
  · exact ⟨hs, hd⟩

omit [External] in
theorem clean_storedOf {edge : Edge} (hs : NulFree edge.src) (hd : NulFree edge.dst)
    (hi : NulFree edge.nanoid) : Clean schema (storedOf schema edge).name := by
  obtain ⟨hn1, hn2⟩ := nulFree_normalize schema hs hd
  exact ⟨hn1, hn2, hi, normalize_normalize edge.src edge.dst⟩

/-- Field index writes are invisible to a shape. -/
theorem shape_fieldIndexes (h : Shape schema ks E I) (i : String)
    (fields : List (String × Value)) (insert : Bool) :
    Shape schema (ks.applyWrites (updateFieldIndexes schema i fields insert)) E I := by
  refine h.congr ?_
  intro k hk
  refine Keyspace.getElem?_applyWrites_of_untouched ?_ ks
  rintro w hw rfl
  simp only [updateFieldIndexes, List.mem_flatMap, List.mem_filterMap] at hw
  obtain ⟨index, -, field, -, hfield⟩ := hw
  obtain ⟨value, -, hwv⟩ := Option.map_eq_some_iff.mp hfield
  rw [← hwv] at hk
  exact hk (by simp [encodeEdgeFieldIndexKey])

omit [External] in
/-- A create adds the edge; the shape stays exact if nothing was in its slot. -/
theorem shape_create (h : Shape schema ks E I) {edge : Edge} (hs : NulFree edge.src)
    (hd : NulFree edge.dst) (hi : NulFree edge.nanoid)
    (hfresh : ks[encodeEdgeIdKey edge.nanoid]? = none) :
    ∃ E' I', Shape schema (ks.applyWrites (EdgeStore.createWrites schema edge)) E' I' ∧
      (I = StoredEdge.name '' E → (schema.cardinality = .single →
        ks[outKey schema (storedOf schema edge).src (storedOf schema edge).dst edge.nanoid]? =
          none) → I' = StoredEdge.name '' E') := by
  refine ⟨_, _, h.create (e := storedOf schema edge) (clean_storedOf hs hd hi) hfresh, ?_⟩
  intro hexact hfree
  have hnone : ∀ e ∈ E, ¬ InSlot schema (storedOf schema edge).name e := by
    intro e he hslot
    cases hc : schema.cardinality with
    | single =>
      have hkey : outKey schema e.src e.dst e.data.id =
          outKey schema (storedOf schema edge).src (storedOf schema edge).dst edge.nanoid :=
        (List.cons.inj (slotKeys_eq_of_inSlot hslot)).1
      have hget := h.get_out he
      rw [hkey, hfree hc] at hget
      cases hget
    | multiple =>
      -- the slot has the fresh id in its key
      have hget := h.get_id (h.named e he)
      rw [show e.name.id = edge.nanoid from hslot.2.2 hc, hfresh] at hget
      cases hget
  have hE : {e ∈ E | ¬ InSlot schema (storedOf schema edge).name e} = E :=
    Set.sep_eq_self_iff_mem_true.mpr hnone
  rw [hE, hexact, Set.image_insert_eq]

omit [External] in
/-- Removing a list of slots, each with its id entry. -/
theorem shape_removeAll {α : Type} (xs : List α) (x : α → IdEntry)
    (ws : α → List (Write EdgeEntry)) (h : Shape schema ks E I)
    (hclean : ∀ a ∈ xs, Clean schema (x a))
    (hid : ∀ a ∈ xs, ∀ e ∈ E, e.data.id = (x a).id → InSlot schema (x a) e)
    (hws : ∀ a ∈ xs, ∀ ks E I, Shape schema ks E I → Shape schema (ks.applyWrites (ws a)) E I) :
    ∃ E' I', Shape schema (ks.applyWrites (xs.flatMap fun a =>
        deleteEdgeKeysInTx schema (x a).src (x a).dst (x a).id ++ ws a)) E' I' ∧
      (I = StoredEdge.name '' E → (∀ a ∈ xs, ∀ e ∈ E, InSlot schema (x a) e →
        e.data.id = (x a).id) → I' = StoredEdge.name '' E') := by
  induction xs generalizing ks E I with
  | nil => exact ⟨E, I, h, fun hI _ => hI⟩
  | cons a xs ih =>
    rw [List.forall_mem_cons] at hclean hid hws
    have hstep := hws.1 _ _ _ (h.remove hclean.1 hid.1)
    obtain ⟨E', I', hshape, hnames⟩ := ih hstep hclean.2
      (fun b hb e he => hid.2 b hb e he.1) hws.2
    refine ⟨E', I', ?_, ?_⟩
    · rw [List.flatMap_cons, Keyspace.applyWrites_append, Keyspace.applyWrites_append]
      exact hshape
    · intro hI hslot
      rw [List.forall_mem_cons] at hslot
      refine hnames ?_ (fun b hb e he => hslot.2 b hb e he.1)
      -- the removed names are those of the removed edges
      ext y
      constructor
      · rintro ⟨hy, hne⟩
        rw [hI] at hy
        obtain ⟨e, he, rfl⟩ := hy
        exact ⟨e, ⟨he, fun hin => hne (hslot.1 e he hin)⟩, rfl⟩
      · rintro ⟨e, ⟨he, hno⟩, rfl⟩
        exact ⟨h.named e he, fun heq => hno (hid.1 e he heq)⟩

omit [External] in
/-- Removing stored edges. -/
theorem shape_removeEdges {α : Type} (xs : List α) (e : α → StoredEdge)
    (ws : α → List (Write EdgeEntry)) (h : Shape schema ks E I) (he : ∀ a ∈ xs, e a ∈ E)
    (hws : ∀ a ∈ xs, ∀ ks E I, Shape schema ks E I → Shape schema (ks.applyWrites (ws a)) E I) :
    ∃ E' I', Shape schema (ks.applyWrites (xs.flatMap fun a =>
        deleteEdgeKeysInTx schema (e a).src (e a).dst (e a).data.id ++ ws a)) E' I' ∧
      (I = StoredEdge.name '' E → I' = StoredEdge.name '' E') := by
  have hiff : ∀ a ∈ xs, ∀ e' ∈ E, InSlot schema (e a).name e' ↔ e'.data.id = (e a).name.id := by
    intro a ha e' he'
    constructor
    · intro hslot
      rw [h.slot_unique (he a ha) he' hslot]
      rfl
    · intro hid
      have hname := h.id_unique (h.named e' he') (h.named _ (he a ha)) hid
      exact ⟨congrArg IdEntry.src hname, congrArg IdEntry.dst hname, fun _ => hid⟩
  obtain ⟨E', I', hshape, hnames⟩ := shape_removeAll xs (fun a => (e a).name) ws h
    (fun a ha => h.clean_of_mem (he a ha)) (fun a ha e' he' => (hiff a ha e' he').mpr) hws
  exact ⟨E', I', hshape, fun hI => hnames hI fun a ha e' he' => (hiff a ha e' he').mp⟩

/-! ### The five operations -/

omit [External] in
theorem keyspaces_write (s : EdgeStore) (label : String) (ws : List (Write EdgeEntry)) :
    (s.write label ws).keyspaces label = (s.keyspaces label).applyWrites ws :=
  Function.update_self ..

omit [External] in
/-- The read of a `Single` pair: the edge between the nodes, or nothing. -/
theorem getData_single (h : Shape schema ks E I) (hc : schema.cardinality = .single)
    {src dst : String} (hs : NulFree src) (hd : NulFree dst) :
    (∃ e ∈ E, e.src = (normalize schema src dst).1 ∧ e.dst = (normalize schema src dst).2 ∧
      EdgeStore.getData ks (encodeEdgeOutKeySingle (normalize schema src dst).1
        (normalize schema src dst).2) = .ok (some e.data)) ∨
    EdgeStore.getData ks (encodeEdgeOutKeySingle (normalize schema src dst).1
      (normalize schema src dst).2) = .ok none := by
  obtain ⟨hn1, hn2⟩ := nulFree_normalize schema hs hd
  have hclean : Clean schema ⟨"", (normalize schema src dst).1, (normalize schema src dst).2⟩ :=
    ⟨hn1, hn2, by simp [NulFree, utf8], normalize_normalize src dst⟩
  have hkey : ∀ a b i, outKey schema a b i = encodeEdgeOutKeySingle a b := by
    intro a b i
    simp [outKey, hc]
  rcases h.getData_out hclean with ⟨e, he, ⟨h1, h2, -⟩, hget⟩ | ⟨-, hget⟩
  · rw [hkey] at hget
    exact Or.inl ⟨e, he, h1, h2, hget⟩
  · rw [hkey] at hget
    exact Or.inr hget

variable {s : EdgeStore} {label : String}

/-- One operation keeps the shape, and keeps it exact unless it overwrites. -/
theorem exec_shape (hschema : s.getSchema label = some schema)
    (h : Shape schema (s.keyspaces label) E I) {op : EdgeOp}
    (hv : op.Valid label (s.keyspaces label)) :
    (op.exec label s).getSchema label = some schema ∧
    ∃ E' I', Shape schema ((op.exec label s).keyspaces label) E' I' ∧
      (I = StoredEdge.name '' E → op.NoOverwrite schema (s.keyspaces label) →
        I' = StoredEdge.name '' E') := by
  cases op with
  | create edge =>
    obtain ⟨rfl, hs, hd, hi, hfresh⟩ := hv
    obtain ⟨E', I', hshape, hnames⟩ := shape_create h hs hd hi hfresh
    have hexec : (EdgeOp.create edge).exec edge.label s =
        s.write edge.label (EdgeStore.createWrites schema edge ++
          updateFieldIndexes schema edge.nanoid edge.fields true) := by
      simp [exec, EdgeStore.create, EdgeStore.schemaOrDefine, hschema]
    rw [hexec, keyspaces_write, Keyspace.applyWrites_append]
    exact ⟨hschema, E', I', shape_fieldIndexes hshape _ _ _, hnames⟩
  | createInTx edge =>
    obtain ⟨rfl, hs, hd, hi, hfresh⟩ := hv
    obtain ⟨E', I', hshape, hnames⟩ := shape_create h hs hd hi hfresh
    have hexec : (EdgeOp.createInTx edge).exec edge.label s =
        s.write edge.label (EdgeStore.createWrites schema edge) := by
      simp [exec, EdgeStore.createInTx, EdgeStore.schemaOrDefine, hschema]
    rw [hexec, keyspaces_write]
    exact ⟨hschema, E', I', hshape, hnames⟩
  | delete src dst =>
    obtain ⟨hs, hd⟩ := hv
    cases hc : schema.cardinality with
    | single =>
      rcases getData_single h hc hs hd with ⟨e, he, h1, h2, hget⟩ | hget
      · have hexec : (EdgeOp.delete src dst).exec label s = s.write label
            (updateFieldIndexes schema e.data.id e.data.fields false ++
              deleteEdgeKeysInTx schema e.src e.dst e.data.id) := by
          simp [exec, EdgeStore.delete, hschema, hc, hget, h1, h2]
        rw [hexec, keyspaces_write, Keyspace.applyWrites_append]
        obtain ⟨E', I', hshape, hnames⟩ := shape_removeEdges [()] (fun _ => e)
          (fun _ => []) (shape_fieldIndexes h e.data.id e.data.fields false)
          (fun _ _ => he) (fun _ _ _ _ _ h => h)
        refine ⟨hschema, E', I', ?_, fun hI _ => hnames hI⟩
        simpa using hshape
      · have hexec : (EdgeOp.delete src dst).exec label s = s := by
          simp [exec, EdgeStore.delete, hschema, hc, hget]
        rw [hexec]
        exact ⟨hschema, E, I, h, fun hI _ => hI⟩
    | multiple =>
      obtain ⟨hn1, hn2⟩ := nulFree_normalize schema hs hd
      obtain ⟨datas, hscan, hmem⟩ := h.scanBetween_ok hc hn1 hn2 (normalize_normalize src dst)
      have hexec : (EdgeOp.delete src dst).exec label s = s.write label
          (datas.flatMap fun data => deleteEdgeKeysInTx schema (normalize schema src dst).1
            (normalize schema src dst).2 data.id ++
              updateFieldIndexes schema data.id data.fields false) := by
        simp [exec, EdgeStore.delete, hschema, hc, hscan]
      rw [hexec, keyspaces_write]
      obtain ⟨E', I', hshape, hnames⟩ := shape_removeEdges datas
        (fun data => ⟨(normalize schema src dst).1, (normalize schema src dst).2, data⟩)
        (fun data => updateFieldIndexes schema data.id data.fields false) h (fun data hdata => (hmem data).mp hdata)
        (fun data _ _ _ _ h => shape_fieldIndexes h data.id data.fields false)
      exact ⟨hschema, E', I', hshape, fun hI _ => hnames hI⟩
  | deleteById edgeId =>
    rcases h.getEnds_id edgeId with ⟨x, hx, rfl, hends⟩ | ⟨-, hends⟩
    · have hcleanup : ∀ data ks E I, Shape schema ks E I →
          Shape schema (ks.applyWrites (EdgeStore.cleanup schema x.id data)) E I := by
        intro data ks E I h
        cases data with
        | none => exact h
        | some data => exact shape_fieldIndexes h x.id data.fields false
      have hread : ∃ data, EdgeStore.getData (s.keyspaces label)
          (outKey schema x.src x.dst x.id) = .ok data := by
        rcases h.getData_out (h.clean x hx) with ⟨e, -, -, hget⟩ | ⟨-, hget⟩
        · exact ⟨_, hget⟩
        · exact ⟨_, hget⟩
      obtain ⟨data, hdata⟩ := hread
      have hexec : (EdgeOp.deleteById x.id).exec label s = s.write label
          (deleteEdgeKeysInTx schema x.src x.dst x.id ++
            EdgeStore.cleanup schema x.id data) := by
        simp [exec, EdgeStore.deleteById, hschema, hends, hdata]
      have hid : ∀ e ∈ E, e.data.id = x.id → InSlot schema x e := by
        intro e he heq
        have hname := h.id_unique (h.named e he) hx heq
        exact ⟨congrArg IdEntry.src hname, congrArg IdEntry.dst hname, fun _ => heq⟩
      rw [hexec, keyspaces_write]
      obtain ⟨E', I', hshape, hnames⟩ := shape_removeAll [()] (fun _ => x)
        (fun _ => EdgeStore.cleanup schema x.id data) h (fun _ _ => h.clean x hx) (fun _ _ => hid) (fun _ _ => hcleanup data)
      refine ⟨hschema, E', I', by simpa using hshape, fun hI _ => hnames hI ?_⟩
      -- in an exact shape the id entry names an edge, the only one in its slot
      intro _ _ e he hslot
      rw [hI] at hx
      obtain ⟨e0, he0, rfl⟩ := hx
      rw [h.slot_unique he0 he hslot]
      rfl
    · have hexec : (EdgeOp.deleteById edgeId).exec label s = s := by
        simp [exec, EdgeStore.deleteById, hschema, hends]
      rw [hexec]
      exact ⟨hschema, E, I, h, fun hI _ => hI⟩
  | deleteInTx src dst =>
    obtain ⟨hs, hd⟩ := hv
    cases hc : schema.cardinality with
    | single =>
      rcases getData_single h hc hs hd with ⟨e, he, h1, h2, hget⟩ | hget
      · have hexec : (EdgeOp.deleteInTx src dst).exec label s = s.write label
            (deleteEdgeKeysInTx schema e.src e.dst e.data.id) := by
          simp [exec, EdgeStore.deleteInTx, hschema, hc, hget, h1, h2]
        rw [hexec, keyspaces_write]
        obtain ⟨E', I', hshape, hnames⟩ := shape_removeEdges [()] (fun _ => e)
          (fun _ => []) h (fun _ _ => he) (fun _ _ _ _ _ h => h)
        refine ⟨hschema, E', I', ?_, fun hI _ => hnames hI⟩
        simpa using hshape
      · have hexec : (EdgeOp.deleteInTx src dst).exec label s = s.write label [] := by
          simp [exec, EdgeStore.deleteInTx, hschema, hc, hget]
        rw [hexec, keyspaces_write]
        exact ⟨hschema, E, I, h, fun hI _ => hI⟩
    | multiple =>
      obtain ⟨hn1, hn2⟩ := nulFree_normalize schema hs hd
      obtain ⟨datas, hscan, hmem⟩ := h.scanBetween_ok hc hn1 hn2 (normalize_normalize src dst)
      have hexec : (EdgeOp.deleteInTx src dst).exec label s = s.write label
          (datas.flatMap fun data => deleteEdgeKeysInTx schema (normalize schema src dst).1
            (normalize schema src dst).2 data.id) := by
        simp [exec, EdgeStore.deleteInTx, hschema, hc, hscan]
      rw [hexec, keyspaces_write]
      obtain ⟨E', I', hshape, hnames⟩ := shape_removeEdges datas
        (fun data => ⟨(normalize schema src dst).1, (normalize schema src dst).2, data⟩)
        (fun _ => []) h (fun data hdata => (hmem data).mp hdata) (fun _ _ _ _ _ h => h)
      refine ⟨hschema, E', I', ?_, fun hI _ => hnames hI⟩
      simpa using hshape

/-! ## Runs -/

/-- A run of operations on one edge type. -/
def runOps (label : String) (s : EdgeStore) (ops : List EdgeOp) : EdgeStore :=
  ops.foldl (fun s op => op.exec label s) s

/-- Every operation of the run is valid in the state it starts from. -/
def RunValid (label : String) (s : EdgeStore) (ops : List EdgeOp) : Prop :=
  Meets (fun s op => op.exec label s) (fun s op => op.Valid label (s.keyspaces label)) s ops

/-- No operation of the run overwrites an edge. -/
def RunNoOverwrite (label : String) (schema : EdgeSchema) (s : EdgeStore) (ops : List EdgeOp) :
    Prop :=
  Meets (fun s op => op.exec label s)
    (fun s op => op.NoOverwrite schema (s.keyspaces label)) s ops

/-- Every run keeps a shape. -/
theorem run_shaped (hschema : s.getSchema label = some schema)
    (h : Shaped schema (s.keyspaces label)) {ops : List EdgeOp} (hv : RunValid label s ops) :
    ∀ done, done <+: ops → (runOps label s done).getSchema label = some schema ∧
      Shaped schema ((runOps label s done).keyspaces label) := by
  refine foldl_invariant (fun s => s.getSchema label = some schema ∧
    Shaped schema (s.keyspaces label)) ?_ ⟨hschema, h⟩ hv
  intro s op hs hop
  obtain ⟨E, I, hshape⟩ := hs.2
  obtain ⟨hschema', E', I', hshape', -⟩ := exec_shape hs.1 hshape hop
  exact ⟨hschema', E', I', hshape'⟩

/-- A run that does not overwrite keeps an exact shape. -/
theorem run_exact (hschema : s.getSchema label = some schema)
    (h : Exact schema (s.keyspaces label)) {ops : List EdgeOp} (hv : RunValid label s ops)
    (hno : RunNoOverwrite label schema s ops) :
    ∀ done, done <+: ops → (runOps label s done).getSchema label = some schema ∧
      Exact schema ((runOps label s done).keyspaces label) := by
  refine foldl_invariant (fun s => s.getSchema label = some schema ∧
    Exact schema (s.keyspaces label)) ?_ ⟨hschema, h⟩ (hv.and hno)
  intro s op hs hop
  obtain ⟨E, hshape⟩ := hs.2
  obtain ⟨hschema', E', I', hshape', hexact⟩ := exec_shape hs.1 hshape hop.1
  rw [hexact rfl hop.2] at hshape'
  exact ⟨hschema', E', hshape'⟩

end

end EdgeOp

/-! ## Consistency -/

/-- The OUT, IN and id entries describe the same edges: every OUT entry has its counterpart
(the IN entry, or for an undirected type the other orientation with equal data) and its id
entry; every IN and every id entry comes from an OUT entry. -/
structure Consistent (schema : EdgeSchema) (ks : Keyspace EdgeEntry) : Prop where
  out : ∀ (k : Bytes) (v : EdgeEntry), k.head? = some edgePrefixOut → ks[k]? = some v →
    ∃ src dst data, k = outKey schema src dst data.id ∧ v = serializeEdgeData data ∧
      deserializeEdgeData v = .ok data ∧
      (if schema.isUndirected then
        ks[outKey schema dst src data.id]? = some v ∧
        ks[encodeEdgeIdKey data.id]? = some (.bytes (encodeEdgeIdValue
          (normalize schema src dst).1 (normalize schema src dst).2))
      else
        ks[inKey schema dst src data.id]? = some (inValue schema data.id) ∧
        ks[encodeEdgeIdKey data.id]? = some (.bytes (encodeEdgeIdValue src dst)))
  inn : ∀ (k : Bytes) (v : EdgeEntry), k.head? = some edgePrefixIn → ks[k]? = some v →
    schema.isUndirected = false ∧ ∃ src dst data, k = inKey schema dst src data.id ∧
      v = inValue schema data.id ∧
      ks[outKey schema src dst data.id]? = some (serializeEdgeData data)
  id : ∀ (k : Bytes) (v : EdgeEntry), k.head? = some edgePrefixId → ks[k]? = some v →
    ∃ src dst data, k = encodeEdgeIdKey data.id ∧ v = .bytes (encodeEdgeIdValue src dst) ∧
      ks[outKey schema src dst data.id]? = some (serializeEdgeData data)

/-- An OUT entry holds an edge with this id. -/
def StoresId (schema : EdgeSchema) (ks : Keyspace EdgeEntry) (edgeId : String) : Prop :=
  ∃ src dst data, data.id = edgeId ∧
    ks[outKey schema src dst edgeId]? = some (serializeEdgeData data)

section

variable {schema : EdgeSchema} {ks : Keyspace EdgeEntry} {E : Set StoredEdge}

/-- What a link entry of an exact shape comes with. -/
theorem Shape.get_reverse {I : Set IdEntry} (h : Shape schema ks E I) {e : StoredEdge}
    (he : e ∈ E) : ks[reverseKey schema e.src e.dst e.data.id]? =
      some (if schema.isUndirected then serializeEdgeData e.data else inValue schema e.data.id) := by
  have hlink : (reverseKey schema e.src e.dst e.data.id,
      if schema.isUndirected then serializeEdgeData e.data else inValue schema e.data.id) ∈
        e.links schema := List.mem_cons_of_mem _ (List.mem_cons_self ..)
  refine (h.links _ _ ?_).mpr ⟨e, he, hlink⟩
  exact isLinkKey_of_mem_slotKeys (mem_slotKeys_of_link hlink)

theorem Exact.consistent (h : Exact schema ks) : Consistent schema ks := by
  obtain ⟨E, h⟩ := h
  refine ⟨?_, ?_, ?_⟩
  · intro k v hk hv
    obtain ⟨e, he, hlink⟩ := (h.links k v (Or.inl hk)).mp hv
    have hclean := h.clean_of_mem he
    have hid := h.get_id (h.named e he)
    have hrev := h.get_reverse he
    simp only [StoredEdge.links, List.mem_cons, Prod.mk.injEq, List.not_mem_nil, or_false] at hlink
    rcases hlink with ⟨rfl, rfl⟩ | ⟨rfl, rfl⟩
    · refine ⟨e.src, e.dst, e.data, rfl, rfl, deserialize_serialize hclean.2.2.1, ?_⟩
      have hnorm : normalize schema e.src e.dst = (e.src, e.dst) := hclean.2.2.2
      cases hund : schema.isUndirected with
      | true =>
        simp only [reverseKey, hund, if_true] at hrev
        rw [if_pos rfl, hnorm]
        exact ⟨hrev, hid⟩
      | false =>
        simp only [reverseKey, hund, Bool.false_eq_true, if_false] at hrev
        rw [if_neg Bool.false_ne_true]
        exact ⟨hrev, hid⟩
    · cases hund : schema.isUndirected with
      | true =>
        -- the second OUT entry of an undirected edge
        simp only [reverseKey, hund, if_true] at hrev ⊢
        refine ⟨e.dst, e.src, e.data, rfl, rfl, deserialize_serialize hclean.2.2.1, ?_⟩
        have hnorm : normalize schema e.dst e.src = (e.src, e.dst) :=
          normalize_swap hund hclean.2.2.2
        rw [hnorm]
        exact ⟨h.get_out he, hid⟩
      | false =>
        rw [reverseKey, hund, if_neg Bool.false_ne_true, inKey_head] at hk
        exact absurd hk (by decide)
  · intro k v hk hv
    obtain ⟨e, he, hlink⟩ := (h.links k v (Or.inr hk)).mp hv
    simp only [StoredEdge.links, List.mem_cons, Prod.mk.injEq, List.not_mem_nil, or_false] at hlink
    rcases hlink with ⟨rfl, rfl⟩ | ⟨rfl, rfl⟩
    · rw [outKey_head] at hk
      exact absurd hk (by decide)
    · cases hund : schema.isUndirected with
      | true =>
        rw [reverseKey, if_pos hund, outKey_head] at hk
        exact absurd hk (by decide)
      | false =>
        refine ⟨rfl, e.src, e.dst, e.data, ?_, ?_, h.get_out he⟩
        · rw [reverseKey, hund, if_neg Bool.false_ne_true]
        · rw [if_neg Bool.false_ne_true]
  · intro k v hk hv
    obtain ⟨x, hx, hentry⟩ := (h.ids k v hk).mp hv
    obtain ⟨e, he, rfl⟩ := hx
    obtain ⟨rfl, rfl⟩ := Prod.mk.inj hentry
    exact ⟨e.src, e.dst, e.data, rfl, rfl, h.get_out he⟩

theorem getById_of_not_stored {s : EdgeStore} {label edgeId : String}
    (hschema : s.getSchema label = some schema) (h : Exact schema (s.keyspaces label))
    (hno : ¬ StoresId schema (s.keyspaces label) edgeId) :
    s.getById label edgeId = .ok none := by
  obtain ⟨E, h⟩ := h
  have hends : EdgeStore.getEnds (s.keyspaces label) edgeId = .ok none := by
    rcases h.getEnds_id edgeId with ⟨x, hx, rfl, -⟩ | ⟨-, hends⟩
    · obtain ⟨e, he, rfl⟩ := hx
      exact absurd ⟨e.src, e.dst, e.data, rfl, h.get_out he⟩ hno
    · exact hends
  simp [EdgeStore.getById, hschema, hends]

end

section

variable [External] {schema : EdgeSchema} {s : EdgeStore} {label : String}

/-- In every run of valid operations that never overwrites an edge, every state is consistent
and `get_by_id` finds nothing under an id that no stored edge has. -/
theorem run_consistent (hschema : s.getSchema label = some schema)
    (hempty : s.keyspaces label = ∅) {ops : List EdgeOp} (hv : EdgeOp.RunValid label s ops)
    (hno : EdgeOp.RunNoOverwrite label schema s ops) :
    ∀ done, done <+: ops →
      Consistent schema ((EdgeOp.runOps label s done).keyspaces label) ∧
      ∀ edgeId, ¬ StoresId schema ((EdgeOp.runOps label s done).keyspaces label) edgeId →
        (EdgeOp.runOps label s done).getById label edgeId = .ok none := by
  have hstart : Exact schema (s.keyspaces label) := by
    rw [hempty]
    exact ⟨∅, by simpa using Shape.empty⟩
  intro done hdone
  obtain ⟨hschema', hexact⟩ := EdgeOp.run_exact hschema hstart hv hno done hdone
  exact ⟨hexact.consistent, fun edgeId => getById_of_not_stored hschema' hexact⟩

end

/-! ## Runs on a follows type -/

namespace Follows

local instance : External := .standIn

/-- Directed, at most one edge between two nodes. -/
def schema : EdgeSchema := .new "follows"

/-- The type is defined and has no edges. -/
def fresh : EdgeStore := ⟨[("follows", schema)], fun _ => ∅⟩

def edge (id src dst : String) : Edge := ⟨id, src, dst, "follows", 1, none, []⟩

/-- Two edges between different nodes, one deleted again. -/
def twoPairs : List EdgeOp :=
  [.create (edge "follows:e1" "users:a" "users:b"), .createInTx (edge "follows:e2" "users:b" "users:a"),
    .deleteById "e1"]

theorem twoPairs_valid : EdgeOp.RunValid "follows" fresh twoPairs := by
  refine ⟨⟨rfl, ?_, ?_, ?_, ?_⟩, ⟨rfl, ?_, ?_, ?_, ?_⟩, trivial, trivial⟩ <;> decide

theorem twoPairs_noOverwrite : EdgeOp.RunNoOverwrite "follows" schema fresh twoPairs := by
  refine ⟨fun _ => ?_, fun _ => ?_, trivial, trivial⟩ <;> decide

theorem twoPairs_consistent : EdgeOp.RunValid "follows" fresh twoPairs ∧
    EdgeOp.RunNoOverwrite "follows" schema fresh twoPairs ∧ ∀ done, done <+: twoPairs →
      Consistent schema ((EdgeOp.runOps "follows" fresh done).keyspaces "follows") ∧
      ∀ edgeId, ¬ StoresId schema ((EdgeOp.runOps "follows" fresh done).keyspaces "follows")
          edgeId → (EdgeOp.runOps "follows" fresh done).getById "follows" edgeId = .ok none :=
  ⟨twoPairs_valid, twoPairs_noOverwrite,
    run_consistent rfl rfl twoPairs_valid twoPairs_noOverwrite⟩

/-- A second edge between the same nodes. -/
def samePair : List EdgeOp :=
  [.create (edge "follows:e1" "users:a" "users:b"),
    .create (edge "follows:e2" "users:a" "users:b")]

/-- The entries of the keyspace after `samePair`. -/
theorem samePair_entry {k : Bytes} {v : EdgeEntry}
    (h : ((EdgeOp.runOps "follows" fresh samePair).keyspaces "follows")[k]? = some v) :
    k.head? = some edgePrefixOut → deserializeEdgeData v = .ok ⟨"e2", 1, 0, []⟩ := by
  have hmem := Std.ExtTreeMap.mem_toList_iff_getElem?_eq_some.mpr h
  have hlist : ((EdgeOp.runOps "follows" fresh samePair).keyspaces "follows").toList =
      [(encodeEdgeOutKeySingle "users:a" "users:b", serializeEdgeData ⟨"e2", 1, 0, []⟩),
        (encodeEdgeInKeySingle "users:b" "users:a", .bytes (utf8 "e2")),
        (encodeEdgeIdKey "e1", .bytes (encodeEdgeIdValue "users:a" "users:b")),
        (encodeEdgeIdKey "e2", .bytes (encodeEdgeIdValue "users:a" "users:b"))] := by rfl
  rw [hlist] at hmem
  simp only [List.mem_cons, List.not_mem_nil, or_false, Prod.mk.injEq] at hmem
  intro hk
  rcases hmem with ⟨-, rfl⟩ | ⟨rfl, -⟩ | ⟨rfl, -⟩ | ⟨rfl, -⟩
  · exact deserialize_serialize (by decide)
  · exact absurd hk (by decide)
  · exact absurd hk (by decide)
  · exact absurd hk (by decide)

/-- The overwritten edge has an id entry from where `get_by_id` returns the new edge. -/
theorem samePair_inconsistent : EdgeOp.RunValid "follows" fresh samePair ∧
    ¬ StoresId schema ((EdgeOp.runOps "follows" fresh samePair).keyspaces "follows") "e1" ∧
    (EdgeOp.runOps "follows" fresh samePair).getById "follows" "e1" =
      .ok (some (edge "follows:e2" "users:a" "users:b")) ∧
    ¬ Consistent schema ((EdgeOp.runOps "follows" fresh samePair).keyspaces "follows") := by
  have hstores : ¬ StoresId schema
      ((EdgeOp.runOps "follows" fresh samePair).keyspaces "follows") "e1" := by
    rintro ⟨src, dst, data, hid, hget⟩
    have hdata := samePair_entry hget (outKey_head ..)
    rw [deserialize_serialize (by rw [hid]; decide)] at hdata
    rw [Except.ok.inj hdata] at hid
    exact absurd hid (by decide)
  refine ⟨?_, hstores, by rfl, ?_⟩
  · refine ⟨⟨rfl, ?_, ?_, ?_, ?_⟩, ⟨rfl, ?_, ?_, ?_, ?_⟩, trivial⟩ <;> decide
  · intro h
    obtain ⟨src, dst, data, hkey, -, hget⟩ := h.id (encodeEdgeIdKey "e1")
      (.bytes (encodeEdgeIdValue "users:a" "users:b")) rfl (by rfl)
    have hid : data.id = "e1" := (encodeEdgeIdKey_inj.mp hkey).symm
    rw [hid] at hget
    exact hstores ⟨src, dst, data, hid, hget⟩

end Follows

end StellarDb
