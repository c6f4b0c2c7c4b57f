import StellarDb.Edges.Consistency
import StellarDb.Calls

/-!
# StellarDb — what deleting a node removes

`delete_document` finds the edges of a node with `list_out` and `list_in`, asked for
`usize::MAX` edges. Both clamp the limit to 1000 and the cursor of the next page is dropped,
so the edges after the first page of either direction stay, with entries that name the deleted
node. The theorem `delete_cascades_iff` says exactly when nothing is left: every edge of the node
is on one of the two first pages, and no stale id entry names the node.
-/

namespace StellarDb

open Keyspaces

/-! ## Listing -/

section Listing

open EdgeStore

variable {label : String} {limit : Nat}

/-- The loop of `list_out`, on entries that all decode. -/
theorem listOutLoop_eq {src : String} {edgeOf : Bytes × EdgeEntry → Edge}
    {entries : List (Bytes × EdgeEntry)}
    (h : ∀ en ∈ entries, ∃ dst data, parseOutKeyTarget (en.1.drop 1) = .ok dst ∧
      deserializeEdgeData en.2 = .ok data ∧ edgeOf en = data.toEdge label src dst)
    (edges : List Edge) :
    listOutLoop label src limit entries none edges =
      .ok (edges ++ (entries.map edgeOf).take (limit + 1 - edges.length)) := by
  induction entries generalizing edges with
  | nil => simp [listOutLoop]
  | cons en entries ih =>
    rw [List.forall_mem_cons] at h
    obtain ⟨dst, data, hkey, hdata, hedge⟩ := h.1
    simp only [listOutLoop, hkey, hdata]
    by_cases hlt : limit < edges.length
    · rw [if_pos hlt, show limit + 1 - edges.length = 0 by omega]
      simp
    · rw [if_neg hlt, ih h.2, ← hedge, show limit + 1 - edges.length =
        (limit + 1 - (edges ++ [edgeOf en]).length) + 1 by simp; omega]
      simp

/-- The loop of `list_in`, on entries that all decode and have their OUT entry. -/
theorem listInLoop_eq {ks : Keyspace EdgeEntry} {schema : EdgeSchema} {dst : String}
    {edgeOf : Bytes × EdgeEntry → Edge} {entries : List (Bytes × EdgeEntry)}
    (h : ∀ en ∈ entries, ∃ src edgeId data,
      parseInKeyAndValue schema (en.1.drop 1) en.2 = .ok (src, edgeId) ∧
      getData ks (outKey schema src dst edgeId) = .ok (some data) ∧
      edgeOf en = data.toEdge label src dst)
    (edges : List Edge) :
    listInLoop ks schema label dst limit entries none edges =
      .ok (edges ++ (entries.map edgeOf).take (limit + 1 - edges.length)) := by
  induction entries generalizing edges with
  | nil => simp [listInLoop]
  | cons en entries ih =>
    rw [List.forall_mem_cons] at h
    obtain ⟨src, edgeId, data, hkey, hdata, hedge⟩ := h.1
    simp only [listInLoop, hkey, hdata]
    by_cases hlt : limit < edges.length
    · rw [if_pos hlt, show limit + 1 - edges.length = 0 by omega]
      simp
    · rw [if_neg hlt, ih h.2, ← hedge, show limit + 1 - edges.length =
        (limit + 1 - (edges ++ [edgeOf en]).length) + 1 by simp; omega]
      simp

/-- Dropping the look-ahead element leaves the first `limit` edges. -/
theorem page_take (edges : List Edge) :
    (page limit (edges.take (limit + 1))).1 = edges.take limit := by
  unfold page
  rw [List.length_take]
  split
  · next hlt =>
    rw [List.dropLast_eq_take, List.length_take, List.take_take,
      show min (min (limit + 1) edges.length - 1) (limit + 1) = limit by omega]
  · next hle =>
    rw [List.take_of_length_le (by omega), List.take_of_length_le (by omega)]

end Listing

/-! ## Pages -/

section Pages

variable {schema : EdgeSchema} {ks : Keyspace EdgeEntry} {E : Set StoredEdge} {I : Set IdEntry}

/-- One of the keys of the edge is on the page. -/
def OnPage (schema : EdgeSchema) (page : List Bytes) (e : StoredEdge) : Prop :=
  ∃ k ∈ slotKeys schema e.name, k ∈ page

/-- The listed edge has the id and the keys of the stored edge. -/
def Lists (schema : EdgeSchema) (edge : Edge) (e : StoredEdge) : Prop :=
  edge.nanoid = e.data.id ∧
    ∀ k, k ∈ slotKeys schema ⟨edge.nanoid, edge.src, edge.dst⟩ ↔ k ∈ slotKeys schema e.name

/-- The edges are those on the page. -/
def Enumerates (schema : EdgeSchema) (E : Set StoredEdge) (page : List Bytes)
    (edges : List Edge) : Prop :=
  (∀ edge ∈ edges, ∃ e ∈ E, OnPage schema page e ∧ Lists schema edge e) ∧
    ∀ e ∈ E, OnPage schema page e → ∃ edge ∈ edges, Lists schema edge e

/-- Entries that each belong to a listed edge. -/
theorem enumerates_of_entries (h : Shape schema ks E I) {page : List (Bytes × EdgeEntry)}
    {edgeOf : Bytes × EdgeEntry → Edge}
    (hen : ∀ en ∈ page, ∃ e ∈ E, en ∈ e.links schema ∧ Lists schema (edgeOf en) e) :
    Enumerates schema E (page.map Prod.fst) (page.map edgeOf) := by
  refine ⟨?_, ?_⟩
  · intro edge hedge
    obtain ⟨en, hpage, rfl⟩ := List.mem_map.mp hedge
    obtain ⟨e, he, hlink, hlists⟩ := hen en hpage
    exact ⟨e, he, ⟨en.1, mem_slotKeys_of_link hlink, List.mem_map_of_mem hpage⟩, hlists⟩
  · intro e he hon
    obtain ⟨k, hk, hpage⟩ := hon
    obtain ⟨en, hmem, rfl⟩ := List.mem_map.mp hpage
    obtain ⟨e', he', hlink, hlists⟩ := hen en hmem
    -- the entry belongs to one edge only
    have hslot := inSlot_of_key (h.clean_of_mem he) (h.clean_of_mem he') hk
      (mem_slotKeys_of_link hlink)
    rw [h.slot_unique he he' hslot] at hlists
    exact ⟨edgeOf en, List.mem_map_of_mem hmem, hlists⟩

theorem Enumerates.append {page page' : List Bytes} {edges edges' : List Edge}
    (h : Enumerates schema E page edges) (h' : Enumerates schema E page' edges') :
    Enumerates schema E (page ++ page') (edges ++ edges') := by
  refine ⟨?_, ?_⟩
  · intro edge hedge
    rcases List.mem_append.mp hedge with hedge | hedge
    · obtain ⟨e, he, ⟨k, hk, hpage⟩, hlists⟩ := h.1 edge hedge
      exact ⟨e, he, ⟨k, hk, List.mem_append_left _ hpage⟩, hlists⟩
    · obtain ⟨e, he, ⟨k, hk, hpage⟩, hlists⟩ := h'.1 edge hedge
      exact ⟨e, he, ⟨k, hk, List.mem_append_right _ hpage⟩, hlists⟩
  · rintro e he ⟨k, hk, hpage⟩
    rcases List.mem_append.mp hpage with hpage | hpage
    · obtain ⟨edge, hedge, hlists⟩ := h.2 e he ⟨k, hk, hpage⟩
      exact ⟨edge, List.mem_append_left _ hedge, hlists⟩
    · obtain ⟨edge, hedge, hlists⟩ := h'.2 e he ⟨k, hk, hpage⟩
      exact ⟨edge, List.mem_append_right _ hedge, hlists⟩

/-- The first page of OUT entries of a node. -/
def outPage (ks : Keyspace EdgeEntry) (node : String) : List (Bytes × EdgeEntry) :=
  (Keyspace.range ks (encodeEdgeOutPrefix node) (encodeEdgeOutPrefixEnd node)).take 1000

/-- The first page of IN entries of a node. -/
def inPage (ks : Keyspace EdgeEntry) (node : String) : List (Bytes × EdgeEntry) :=
  (Keyspace.range ks (encodeEdgeInPrefix node) (encodeEdgeInPrefixEnd node)).take 1000

/-- An OUT key under the prefix of a node starts there. -/
theorem node_eq_of_outKey {node src dst i : String} (hnode : NulFree node) (hsrc : NulFree src)
    (h : encodeEdgeOutPrefix node <+: outKey schema src dst i) : src = node := by
  obtain ⟨rest, hrest⟩ := h
  unfold outKey at hrest
  cases hc : schema.cardinality with
  | single =>
    simp only [hc, encodeEdgeOutPrefix, encodeEdgeOutKeySingle, List.cons_append,
      List.append_assoc, List.nil_append, List.cons.injEq, true_and,
      append_zero_inj hnode hsrc, utf8_inj] at hrest
    exact hrest.1.symm
  | multiple =>
    simp only [hc, encodeEdgeOutPrefix, encodeEdgeOutKeyMulti, List.cons_append,
      List.append_assoc, List.nil_append, List.cons.injEq, true_and,
      append_zero_inj hnode hsrc, utf8_inj] at hrest
    exact hrest.1.symm

theorem node_eq_of_inKey {node src dst i : String} (hnode : NulFree node) (hdst : NulFree dst)
    (h : encodeEdgeInPrefix node <+: inKey schema dst src i) : dst = node := by
  obtain ⟨rest, hrest⟩ := h
  unfold inKey at hrest
  cases hc : schema.cardinality with
  | single =>
    simp only [hc, encodeEdgeInPrefix, encodeEdgeInKeySingle, List.cons_append,
      List.append_assoc, List.nil_append, List.cons.injEq, true_and,
      append_zero_inj hnode hdst, utf8_inj] at hrest
    exact hrest.1.symm
  | multiple =>
    simp only [hc, encodeEdgeInPrefix, encodeEdgeInKeyMulti, List.cons_append,
      List.append_assoc, List.nil_append, List.cons.injEq, true_and,
      append_zero_inj hnode hdst, utf8_inj] at hrest
    exact hrest.1.symm

theorem parseOutKeyTarget_outKey {src dst i : String} (hsrc : NulFree src) (hdst : NulFree dst) :
    EdgeStore.parseOutKeyTarget ((outKey schema src dst i).drop 1) = .ok dst := by
  unfold outKey EdgeStore.parseOutKeyTarget
  cases schema.cardinality with
  | single =>
    simp only [encodeEdgeOutKeySingle, List.cons_append, List.drop_succ_cons, List.drop_zero,
      splitOn_zero_append hsrc, List.splitOn_eq_singleton hdst, fromUtf8Lossy_utf8]
  | multiple =>
    simp only [encodeEdgeOutKeyMulti, List.cons_append, List.append_assoc, List.drop_succ_cons,
      List.drop_zero, splitOn_zero_append hsrc, splitOn_zero_append hdst, fromUtf8Lossy_utf8]

theorem parseInKeyAndValue_inKey {src dst i : String} (hsrc : NulFree src) (hdst : NulFree dst)
    (hi : NulFree i) : EdgeStore.parseInKeyAndValue schema ((inKey schema dst src i).drop 1)
      (inValue schema i) = .ok (src, i) := by
  unfold inKey inValue EdgeStore.parseInKeyAndValue
  cases schema.cardinality with
  | single =>
    simp only [encodeEdgeInKeySingle, List.cons_append, List.drop_succ_cons, List.drop_zero,
      splitOn_zero_append hdst, List.splitOn_eq_singleton hsrc, fromUtf8Lossy_utf8]
  | multiple =>
    simp only [encodeEdgeInKeyMulti, List.cons_append, List.append_assoc, List.drop_succ_cons,
      List.drop_zero, splitOn_zero_append hdst, splitOn_zero_append hsrc,
      List.splitOn_eq_singleton hi, fromUtf8Lossy_utf8]

theorem slotKeys_swap (hund : schema.isUndirected = true) (i src dst : String) (k : Bytes) :
    k ∈ slotKeys schema ⟨i, dst, src⟩ ↔ k ∈ slotKeys schema ⟨i, src, dst⟩ := by
  simp only [slotKeys, reverseKey, hund, if_true, List.mem_cons, List.not_mem_nil, or_false]
  exact or_comm

/-- An OUT entry under a node: an edge of the node, seen from there. -/
theorem out_entry (h : Shape schema ks E I) {node : String} (hnode : NulFree node)
    (label : String) {en : Bytes × EdgeEntry}
    (hen : en ∈ Keyspace.range ks (encodeEdgeOutPrefix node) (encodeEdgeOutPrefixEnd node)) :
    ∃ e ∈ E, ∃ other, en ∈ e.links schema ∧
      EdgeStore.parseOutKeyTarget (en.1.drop 1) = .ok other ∧
      deserializeEdgeData en.2 = .ok e.data ∧
      Lists schema (e.data.toEdge label node other) e := by
  obtain ⟨hget, hrange⟩ := mem_range.mp hen
  have hfront : encodeEdgeOutPrefix node <+: en.1 := (inRange_sep_iff _ _).mp hrange
  have hhead : en.1.head? = some edgePrefixOut := by
    obtain ⟨rest, hrest⟩ := hfront
    rw [← hrest]
    rfl
  obtain ⟨e, he, hlink⟩ := (h.links en.1 en.2 (Or.inl hhead)).mp hget
  obtain ⟨hs, hd, hi, -⟩ := h.clean_of_mem he
  refine ⟨e, he, ?_⟩
  have hlink' := hlink
  simp only [StoredEdge.links, List.mem_cons, Prod.mk.injEq, List.not_mem_nil, or_false] at hlink'
  rcases hlink' with ⟨hkey, hval⟩ | ⟨hkey, hval⟩
  · rw [hkey] at hfront
    obtain rfl := node_eq_of_outKey hnode hs hfront
    refine ⟨e.dst, hlink, ?_, ?_, nanoid_toEdge .., ?_⟩
    · rw [hkey]
      exact parseOutKeyTarget_outKey hs hd
    · rw [hval]
      exact deserialize_serialize hi
    · intro k
      rw [nanoid_toEdge]
      rfl
  · by_cases hund : schema.isUndirected = true
    · rw [reverseKey, if_pos hund] at hkey
      rw [if_pos hund] at hval
      rw [hkey] at hfront
      obtain rfl := node_eq_of_outKey hnode hd hfront
      refine ⟨e.src, hlink, ?_, ?_, nanoid_toEdge .., ?_⟩
      · rw [hkey]
        exact parseOutKeyTarget_outKey hd hs
      · rw [hval]
        exact deserialize_serialize hi
      · intro k
        rw [nanoid_toEdge]
        exact slotKeys_swap hund _ _ _ k
    · rw [reverseKey, if_neg hund] at hkey
      rw [hkey, inKey_head] at hhead
      exact absurd hhead (by decide)

/-- An IN entry under a node: an edge into the node, with its OUT entry. -/
theorem in_entry (h : Shape schema ks E I) {node : String} (hnode : NulFree node)
    (label : String) {en : Bytes × EdgeEntry}
    (hen : en ∈ Keyspace.range ks (encodeEdgeInPrefix node) (encodeEdgeInPrefixEnd node)) :
    ∃ e ∈ E, en ∈ e.links schema ∧
      EdgeStore.parseInKeyAndValue schema (en.1.drop 1) en.2 = .ok (e.src, e.data.id) ∧
      EdgeStore.getData ks (outKey schema e.src node e.data.id) = .ok (some e.data) ∧
      Lists schema (e.data.toEdge label e.src node) e := by
  obtain ⟨hget, hrange⟩ := mem_range.mp hen
  have hfront : encodeEdgeInPrefix node <+: en.1 := (inRange_sep_iff _ _).mp hrange
  have hhead : en.1.head? = some edgePrefixIn := by
    obtain ⟨rest, hrest⟩ := hfront
    rw [← hrest]
    rfl
  obtain ⟨e, he, hlink⟩ := (h.links en.1 en.2 (Or.inr hhead)).mp hget
  obtain ⟨hs, hd, hi, -⟩ := h.clean_of_mem he
  have hlink' := hlink
  simp only [StoredEdge.links, List.mem_cons, Prod.mk.injEq, List.not_mem_nil, or_false] at hlink'
  rcases hlink' with ⟨hkey, hval⟩ | ⟨hkey, hval⟩
  · rw [hkey, outKey_head] at hhead
    exact absurd hhead (by decide)
  · by_cases hund : schema.isUndirected = true
    · rw [reverseKey, if_pos hund] at hkey
      rw [hkey, outKey_head] at hhead
      exact absurd hhead (by decide)
    · rw [reverseKey, if_neg hund] at hkey
      rw [if_neg hund] at hval
      rw [hkey] at hfront
      obtain rfl := node_eq_of_inKey hnode hd hfront
      refine ⟨e, he, hlink, ?_, ?_, nanoid_toEdge .., ?_⟩
      · rw [hkey, hval]
        exact parseInKeyAndValue_inKey hs hd hi
      · show EdgeStore.getData ks (outKey schema e.src e.dst e.data.id) = _
        rw [EdgeStore.getData, h.get_out he]
        exact congrArg (Except.map some) (deserialize_serialize hi)
      · intro k
        rw [nanoid_toEdge]
        rfl

variable {s : EdgeStore} {label node : String}

theorem listOut_enumerates (hschema : s.getSchema label = some schema)
    (h : Shape schema (s.keyspaces label) E I) (hnode : NulFree node) :
    ∃ r, s.listOut node label none EdgeStore.usizeMax = .ok r ∧
      Enumerates schema E ((outPage (s.keyspaces label) node).map Prod.fst) r.1 := by
  have hedge : ∀ en, ∃ edge : Edge, en ∈ Keyspace.range (s.keyspaces label)
      (encodeEdgeOutPrefix node) (encodeEdgeOutPrefixEnd node) → (∃ dst data,
        EdgeStore.parseOutKeyTarget (en.1.drop 1) = .ok dst ∧
        deserializeEdgeData en.2 = .ok data ∧ edge = data.toEdge label node dst) ∧
      ∃ e ∈ E, en ∈ e.links schema ∧ Lists schema edge e := by
    intro en
    by_cases hen : en ∈ Keyspace.range (s.keyspaces label) (encodeEdgeOutPrefix node)
      (encodeEdgeOutPrefixEnd node)
    · obtain ⟨e, he, other, hlink, hkey, hdata, hlists⟩ := out_entry h hnode label hen
      exact ⟨_, fun _ => ⟨⟨other, e.data, hkey, hdata, rfl⟩, e, he, hlink, hlists⟩⟩
    · exact ⟨⟨"", "", "", "", 0, none, []⟩, fun hen' => absurd hen' hen⟩
  choose edgeOf hof using hedge
  refine ⟨EdgeStore.page 1000 (((Keyspace.range (s.keyspaces label) (encodeEdgeOutPrefix node)
    (encodeEdgeOutPrefixEnd node)).map edgeOf).take (1000 + 1)), ?_, ?_⟩
  · rw [EdgeStore.listOut, hschema, if_neg (by simp)]
    show (EdgeStore.listOutLoop label node 1000 _ none []).map (EdgeStore.page 1000) = _
    rw [listOutLoop_eq (fun en hen => (hof en hen).1)]
    rfl
  · rw [page_take, ← List.map_take]
    exact enumerates_of_entries h fun en hen => (hof en (List.mem_of_mem_take hen)).2

theorem listIn_enumerates (hschema : s.getSchema label = some schema)
    (h : Shape schema (s.keyspaces label) E I) (hnode : NulFree node) :
    ∃ r, s.listIn node label none EdgeStore.usizeMax = .ok r ∧
      Enumerates schema E (((if schema.isUndirected then outPage else inPage)
        (s.keyspaces label) node).map Prod.fst) r.1 := by
  by_cases hund : schema.isUndirected = true
  · obtain ⟨r, hr, henum⟩ := listOut_enumerates hschema h hnode
    refine ⟨r, ?_, ?_⟩
    · simp only [EdgeStore.listIn, hschema, hund, if_true]
      exact hr
    · rw [if_pos hund]
      exact henum
  · have hedge : ∀ en, ∃ edge : Edge, en ∈ Keyspace.range (s.keyspaces label)
        (encodeEdgeInPrefix node) (encodeEdgeInPrefixEnd node) → (∃ src edgeId data,
          EdgeStore.parseInKeyAndValue schema (en.1.drop 1) en.2 = .ok (src, edgeId) ∧
          EdgeStore.getData (s.keyspaces label) (outKey schema src node edgeId) = .ok (some data) ∧
          edge = data.toEdge label src node) ∧
        ∃ e ∈ E, en ∈ e.links schema ∧ Lists schema edge e := by
      intro en
      by_cases hen : en ∈ Keyspace.range (s.keyspaces label) (encodeEdgeInPrefix node)
        (encodeEdgeInPrefixEnd node)
      · obtain ⟨e, he, hlink, hkey, hdata, hlists⟩ := in_entry h hnode label hen
        exact ⟨_, fun _ => ⟨⟨e.src, e.data.id, e.data, hkey, hdata, rfl⟩, e, he, hlink, hlists⟩⟩
      · exact ⟨⟨"", "", "", "", 0, none, []⟩, fun hen' => absurd hen' hen⟩
    choose edgeOf hof using hedge
    refine ⟨EdgeStore.page 1000 (((Keyspace.range (s.keyspaces label) (encodeEdgeInPrefix node)
      (encodeEdgeInPrefixEnd node)).map edgeOf).take (1000 + 1)), ?_, ?_⟩
    · simp only [EdgeStore.listIn, hschema, if_neg hund]
      show (EdgeStore.listInLoop _ schema label node 1000 _ none []).map (EdgeStore.page 1000) = _
      rw [listInLoop_eq (fun en hen => (hof en hen).1)]
      rfl
    · rw [if_neg hund, page_take, ← List.map_take]
      exact enumerates_of_entries h fun en hen => (hof en (List.mem_of_mem_take hen)).2

/-! ## Removals -/

/-- The link keys on the first page of either direction. -/
def firstPages (schema : EdgeSchema) (ks : Keyspace EdgeEntry) (node : String) : List Bytes :=
  (outPage ks node).map Prod.fst ++
    ((if schema.isUndirected then outPage else inPage) ks node).map Prod.fst

/-- Writes that only remove, and remove exactly these keys. -/
def Removes (ws : List (Write EdgeEntry)) (P : Bytes → Prop) : Prop :=
  (∀ w ∈ ws, w.2 = none) ∧ ∀ k, (∃ w ∈ ws, w.1 = k) ↔ P k

theorem Removes.getElem? {ws : List (Write EdgeEntry)} {P : Bytes → Prop} (h : Removes ws P)
    (ks : Keyspace EdgeEntry) (k : Bytes) (v : EdgeEntry) :
    (ks.applyWrites ws)[k]? = some v ↔ ks[k]? = some v ∧ ¬ P k := by
  by_cases hP : P k
  · obtain ⟨w, hw, rfl⟩ := (h.2 k).mpr hP
    have hmem : (w.1, none) ∈ ws := by
      rw [← h.1 w hw]
      exact hw
    rw [Keyspace.getElem?_applyWrites_of_same hmem (fun w' hw' _ => h.1 w' hw') ks]
    simp [hP]
  · rw [Keyspace.getElem?_applyWrites_of_untouched
      (fun w hw heq => hP ((h.2 k).mp ⟨w, hw, heq⟩)) ks]
    simp [hP]

/-- The removals of one type: all keys of the edges on the first pages. -/
theorem cascadeLabel_removes (hschema : s.getSchema label = some schema)
    (h : Shape schema (s.keyspaces label) E I) (hnode : NulFree node) :
    ∃ ws, s.cascadeLabel node label schema = .ok ws ∧ Removes ws fun k =>
      ∃ e ∈ E, OnPage schema (firstPages schema (s.keyspaces label) node) e ∧
        (k = encodeEdgeIdKey e.data.id ∨ k ∈ slotKeys schema e.name) := by
  obtain ⟨r, hr, hout⟩ := listOut_enumerates hschema h hnode
  obtain ⟨r', hr', hin⟩ := listIn_enumerates hschema h hnode
  have henum : Enumerates schema E (firstPages schema (s.keyspaces label) node) (r.1 ++ r'.1) :=
    hout.append hin
  refine ⟨(r.1 ++ r'.1).flatMap fun e => deleteEdgeKeysInTx schema e.src e.dst e.nanoid,
    ?_, ?_, ?_⟩
  · simp only [EdgeStore.cascadeLabel, hr, hr']
    rfl
  · intro w hw
    obtain ⟨e, -, hw⟩ := List.mem_flatMap.mp hw
    simp only [deleteEdgeKeysInTx, List.mem_cons, List.not_mem_nil, or_false] at hw
    rcases hw with rfl | rfl | rfl <;> rfl
  · have hkeys : ∀ (edge : Edge) (k : Bytes),
        (∃ w ∈ deleteEdgeKeysInTx schema edge.src edge.dst edge.nanoid, w.1 = k) ↔
          k = encodeEdgeIdKey edge.nanoid ∨
            k ∈ slotKeys schema ⟨edge.nanoid, edge.src, edge.dst⟩ := by
      intro edge k
      simp only [deleteEdgeKeysInTx, slotKeys, List.mem_cons, List.not_mem_nil, or_false,
        exists_eq_or_imp, exists_eq_left]
      grind
    intro k
    constructor
    · rintro ⟨w, hw, rfl⟩
      obtain ⟨edge, hedge, hw⟩ := List.mem_flatMap.mp hw
      obtain ⟨e, he, hon, hid, hslot⟩ := henum.1 edge hedge
      refine ⟨e, he, hon, ?_⟩
      rw [← hid, ← hslot]
      exact (hkeys edge w.1).mp ⟨w, hw, rfl⟩
    · rintro ⟨e, he, hon, hk⟩
      obtain ⟨edge, hedge, hid, hslot⟩ := henum.2 e he hon
      rw [← hid, ← hslot] at hk
      obtain ⟨w, hw, hwk⟩ := (hkeys edge k).mpr hk
      exact ⟨w, List.mem_flatMap.mpr ⟨edge, hedge, hw⟩, hwk⟩

/-- A type has removals if it cascades. -/
theorem cascadeType_ok
    (hok : ∀ schema, s.getSchema label = some schema → schema.onDelete = .cascade →
      ∃ ws, s.cascadeLabel node label schema = .ok ws) :
    ∃ ws, s.cascadeType node label = .ok ws ∧ ∀ p, p ∈ ws ↔ ∃ schema ws', s.getSchema label =
      some schema ∧ schema.onDelete = .cascade ∧ s.cascadeLabel node label schema = .ok ws' ∧
        ∃ w ∈ ws', (label, w) = p := by
  unfold EdgeStore.cascadeType
  cases hschema : s.getSchema label with
  | none => exact ⟨[], rfl, by simp⟩
  | some schema =>
    cases hpol : schema.onDelete with
    | cascade =>
      obtain ⟨ws, hws⟩ := hok schema hschema hpol
      refine ⟨ws.map (Prod.mk label), ?_, ?_⟩
      · simp only [hpol, hws]
        rfl
      · intro p
        rw [List.mem_map]
        constructor
        · exact fun hp => ⟨schema, ws, rfl, hpol, hws, hp⟩
        · rintro ⟨schema', ws', hs, -, hws', hp⟩
          obtain rfl := Option.some.inj hs
          rw [hws] at hws'
          rwa [Except.ok.inj hws']
    | _ =>
      refine ⟨[], by simp only [hpol], ?_⟩
      simp only [List.not_mem_nil, false_iff]
      rintro p ⟨schema', ws', hs, hpol', -⟩
      rw [← Option.some.inj hs, hpol] at hpol'
      cases hpol'

/-- The removals of all types: those of each cascading type. -/
theorem deleteEdgesForNodeInTx_ok
    (hok : ∀ label schema, s.getSchema label = some schema → schema.onDelete = .cascade →
      ∃ ws, s.cascadeLabel node label schema = .ok ws) :
    ∃ removals, s.deleteEdgesForNodeInTx node = .ok removals ∧ ∀ label w,
      (label, w) ∈ removals ↔ ∃ schema ws, s.getSchema label = some schema ∧
        schema.onDelete = .cascade ∧ s.cascadeLabel node label schema = .ok ws ∧ w ∈ ws := by
  obtain ⟨removals, hmap, hmem⟩ := exists_mapM_ok (f := s.cascadeType node)
    (l := s.listEdgeTypes) fun label _ => (cascadeType_ok (hok label)).imp fun _ h => h.1
  refine ⟨removals.flatten, ?_, ?_⟩
  · rw [EdgeStore.deleteEdgesForNodeInTx, hmap]
    rfl
  · intro label w
    rw [List.mem_flatten]
    constructor
    · rintro ⟨ws, hws, hw⟩
      obtain ⟨label', -, heq⟩ := (hmem ws).mp hws
      obtain ⟨ws', heq', hiff⟩ := cascadeType_ok (hok label')
      rw [heq] at heq'
      obtain rfl := Except.ok.inj heq'
      obtain ⟨schema, ws', hschema, hpol, hws', w', hw', hpair⟩ := (hiff _).mp hw
      obtain ⟨rfl, rfl⟩ := Prod.mk.inj hpair
      exact ⟨schema, ws', hschema, hpol, hws', hw'⟩
    · rintro ⟨schema, ws, hschema, hpol, hws, hw⟩
      have hlabel : label ∈ s.listEdgeTypes := by
        obtain ⟨l₁, l₂, hl, -⟩ := List.lookup_eq_some_iff.mp hschema
        simp [EdgeStore.listEdgeTypes, hl]
      obtain ⟨ws', heq, hiff⟩ := cascadeType_ok (hok label)
      exact ⟨ws', (hmem ws').mpr ⟨label, hlabel, heq⟩,
        (hiff _).mpr ⟨schema, ws, hschema, hpol, hws, w, hw, rfl⟩⟩

end Pages

/-! ## Completeness -/

/-- A link entry names its two nodes in the key, an id entry names them in the value. -/
def Mentions (node : String) (k : Bytes) (v : EdgeEntry) : Prop :=
  if k.head? = some edgePrefixId then
    ∃ bs ends, v = .bytes bs ∧ decodeEdgeIdValue bs = some ends ∧ (ends.1 = node ∨ ends.2 = node)
  else
    match (k.drop 1).splitOn 0 with
    | a :: b :: _ => a = utf8 node ∨ b = utf8 node
    | _ => False

/-- No OUT, IN or id entry of a cascading type mentions the node any more, and every entry that
does not mention it is as before. -/
structure CascadeComplete (node : String) (s s' : EdgeStore) : Prop where
  gone : ∀ label schema, s.getSchema label = some schema → schema.onDelete = .cascade →
    ∀ (k : Bytes) (v : EdgeEntry), IsLinkKey k ∨ IsIdKey k → (s'.keyspaces label)[k]? = some v →
      ¬ Mentions node k v
  kept : ∀ (label : String) (k : Bytes) (v : EdgeEntry), IsLinkKey k ∨ IsIdKey k →
    ¬ Mentions node k v →
      ((s'.keyspaces label)[k]? = some v ↔ (s.keyspaces label)[k]? = some v)

section Complete

variable {schema : EdgeSchema} {node : String}

theorem mentions_link {e : StoredEdge} (he : Clean schema e.name) {k : Bytes} {v : EdgeEntry}
    (h : (k, v) ∈ e.links schema) : Mentions node k v ↔ e.src = node ∨ e.dst = node := by
  obtain ⟨hs, hd, -⟩ := he
  have hhead : k.head? ≠ some edgePrefixId := by
    rcases isLinkKey_of_mem_slotKeys (mem_slotKeys_of_link h) with hk | hk <;>
      · rw [hk]
        decide
  have hout : ∀ a b i, NulFree a → NulFree b → ∃ rest,
      ((outKey schema a b i).drop 1).splitOn 0 = utf8 a :: utf8 b :: rest := by
    intro a b i ha hb
    unfold outKey
    cases schema.cardinality with
    | single =>
      exact ⟨[], by simp only [encodeEdgeOutKeySingle, List.cons_append, List.drop_succ_cons,
        List.drop_zero, splitOn_zero_append ha, List.splitOn_eq_singleton hb]⟩
    | multiple =>
      exact ⟨(utf8 i).splitOn 0, by simp only [encodeEdgeOutKeyMulti, List.cons_append,
        List.append_assoc, List.drop_succ_cons, List.drop_zero, splitOn_zero_append ha,
        splitOn_zero_append hb]⟩
  -- IN keys differ from OUT keys in the first byte only
  have hin : ∀ a b i, (inKey schema a b i).drop 1 = (outKey schema a b i).drop 1 := by
    intro a b i
    unfold inKey outKey
    cases schema.cardinality <;> rfl
  have hkey : ∀ a b i, NulFree a → NulFree b → k.drop 1 = (outKey schema a b i).drop 1 →
      (Mentions node k v ↔ a = node ∨ b = node) := by
    intro a b i ha hb heq
    obtain ⟨rest, hsplit⟩ := hout a b i ha hb
    rw [Mentions, if_neg hhead, heq, hsplit]
    simp only [utf8_inj]
  simp only [StoredEdge.links, List.mem_cons, Prod.mk.injEq, List.not_mem_nil, or_false] at h
  rcases h with ⟨rfl, -⟩ | ⟨rfl, -⟩
  · exact hkey _ _ _ hs hd rfl
  · refine (hkey e.dst e.src e.data.id hd hs ?_).trans or_comm
    unfold reverseKey
    split
    · rfl
    · exact hin ..

theorem mentions_id {x : IdEntry} (hx : Clean schema x) :
    Mentions node x.entry.1 x.entry.2 ↔ x.src = node ∨ x.dst = node := by
  show Mentions node (encodeEdgeIdKey x.id) (.bytes (encodeEdgeIdValue x.src x.dst)) ↔ _
  rw [Mentions, if_pos (encodeEdgeIdKey_head _)]
  constructor
  · rintro ⟨bs, ends, hbs, hends, h⟩
    rw [← EdgeEntry.bytes.inj hbs, decodeEdgeIdValue_encode hx.1] at hends
    rwa [← Option.some.inj hends] at h
  · exact fun h => ⟨_, (x.src, x.dst), rfl, decodeEdgeIdValue_encode hx.1 _, h⟩

/-- Every edge of the node is on a first page, and no stale id entry names the node. -/
def AllListed (schema : EdgeSchema) (ks : Keyspace EdgeEntry) (node : String)
    (E : Set StoredEdge) (I : Set IdEntry) : Prop :=
  (∀ e ∈ E, e.src = node ∨ e.dst = node → OnPage schema (firstPages schema ks node) e) ∧
    ∀ x ∈ I, x.src = node ∨ x.dst = node → ∃ e ∈ E, x = e.name

variable {ks : Keyspace EdgeEntry} {E : Set StoredEdge} {I : Set IdEntry}

theorem prefix_of_mem_outPage {k : Bytes} (h : k ∈ (outPage ks node).map Prod.fst) :
    encodeEdgeOutPrefix node <+: k := by
  obtain ⟨en, hen, rfl⟩ := List.mem_map.mp h
  exact (inRange_sep_iff _ _).mp (mem_range.mp (List.mem_of_mem_take hen)).2

theorem prefix_of_mem_inPage {k : Bytes} (h : k ∈ (inPage ks node).map Prod.fst) :
    encodeEdgeInPrefix node <+: k := by
  obtain ⟨en, hen, rfl⟩ := List.mem_map.mp h
  exact (inRange_sep_iff _ _).mp (mem_range.mp (List.mem_of_mem_take hen)).2

theorem not_inPrefix_outKey (a b i : String) :
    ¬ encodeEdgeInPrefix node <+: outKey schema a b i := by
  rintro ⟨rest, hrest⟩
  have hhead : some edgePrefixIn = _ := congrArg List.head? hrest
  rw [outKey_head] at hhead
  exact absurd hhead (by decide)

theorem not_outPrefix_inKey (a b i : String) :
    ¬ encodeEdgeOutPrefix node <+: inKey schema a b i := by
  rintro ⟨rest, hrest⟩
  have hhead : some edgePrefixOut = _ := congrArg List.head? hrest
  rw [inKey_head] at hhead
  exact absurd hhead (by decide)

/-- The edges on the first pages are edges of the node. -/
theorem incident_of_onPage (h : Shape schema ks E I) (hnode : NulFree node) {e : StoredEdge}
    (he : e ∈ E) (hon : OnPage schema (firstPages schema ks node) e) :
    e.src = node ∨ e.dst = node := by
  obtain ⟨k, hk, hpage⟩ := hon
  obtain ⟨hs, hd, -⟩ := h.clean_of_mem he
  have hfront : encodeEdgeOutPrefix node <+: k ∨ encodeEdgeInPrefix node <+: k := by
    rcases List.mem_append.mp hpage with hpage | hpage
    · exact Or.inl (prefix_of_mem_outPage hpage)
    · split at hpage
      · exact Or.inl (prefix_of_mem_outPage hpage)
      · exact Or.inr (prefix_of_mem_inPage hpage)
  simp only [slotKeys, List.mem_cons, List.not_mem_nil, or_false] at hk
  rcases hk with rfl | rfl
  · exact Or.inl (node_eq_of_outKey hnode hs (hfront.resolve_right (not_inPrefix_outKey _ _ _)))
  · unfold reverseKey at hfront
    split at hfront
    · exact Or.inr (node_eq_of_outKey hnode hd (hfront.resolve_right (not_inPrefix_outKey _ _ _)))
    · exact Or.inr (node_eq_of_inKey hnode hd (hfront.resolve_left (not_outPrefix_inKey _ _ _)))

/-- The keys of an edge on a first page. -/
def Removed (schema : EdgeSchema) (ks : Keyspace EdgeEntry) (node : String)
    (E : Set StoredEdge) (k : Bytes) : Prop :=
  ∃ e ∈ E, OnPage schema (firstPages schema ks node) e ∧
    (k = encodeEdgeIdKey e.data.id ∨ k ∈ slotKeys schema e.name)

/-- A link entry is removed with its own edge. -/
theorem removed_link_iff (h : Shape schema ks E I) {e : StoredEdge} (he : e ∈ E) {k : Bytes}
    {v : EdgeEntry} (hlink : (k, v) ∈ e.links schema) :
    Removed schema ks node E k ↔ OnPage schema (firstPages schema ks node) e := by
  have hk := mem_slotKeys_of_link hlink
  constructor
  · rintro ⟨e', he', hon, hk'⟩
    have hk' : k ∈ slotKeys schema e'.name :=
      hk'.resolve_left (idKey_ne_of_isLinkKey (isLinkKey_of_mem_slotKeys hk) _).symm
    have hslot := inSlot_of_key (h.clean_of_mem he) (h.clean_of_mem he') hk hk'
    rwa [h.slot_unique he he' hslot] at hon
  · exact fun hon => ⟨e, he, hon, Or.inr hk⟩

/-- An id entry is removed with the edge it names. -/
theorem removed_id_iff (h : Shape schema ks E I) {x : IdEntry} (hx : x ∈ I) :
    Removed schema ks node E x.entry.1 ↔
      ∃ e ∈ E, OnPage schema (firstPages schema ks node) e ∧ x = e.name := by
  constructor
  · rintro ⟨e, he, hon, hk⟩
    have hk : encodeEdgeIdKey x.id = encodeEdgeIdKey e.data.id :=
      hk.resolve_right (notMem_slotKeys_of_isIdKey schema (encodeEdgeIdKey_head x.id) _)
    exact ⟨e, he, hon, h.id_unique hx (h.named e he) (encodeEdgeIdKey_inj.mp hk)⟩
  · rintro ⟨e, he, hon, rfl⟩
    exact ⟨e, he, hon, Or.inl rfl⟩

/-- No entry that mentions the node is left exactly if all edges of the node are listed. -/
theorem gone_iff (h : Shape schema ks E I) :
    (∀ (k : Bytes) (v : EdgeEntry), IsLinkKey k ∨ IsIdKey k → ks[k]? = some v →
      ¬ Removed schema ks node E k → ¬ Mentions node k v) ↔ AllListed schema ks node E I := by
  constructor
  · intro hgone
    refine ⟨?_, ?_⟩
    · intro e he hinc
      have hlink : (outKey schema e.src e.dst e.data.id, serializeEdgeData e.data) ∈
        e.links schema := List.mem_cons_self ..
      by_contra hon
      exact hgone _ _ (Or.inl (Or.inl (outKey_head ..))) (h.get_out he)
        (mt (removed_link_iff h he hlink).mp hon)
        ((mentions_link (h.clean_of_mem he) hlink).mpr hinc)
    · intro x hx hinc
      by_contra hstale
      refine hgone x.entry.1 x.entry.2 (Or.inr (encodeEdgeIdKey_head x.id)) (h.get_id hx) ?_
        ((mentions_id (h.clean x hx)).mpr hinc)
      rw [removed_id_iff h hx]
      rintro ⟨e, he, -, heq⟩
      exact hstale ⟨e, he, heq⟩
  · rintro ⟨hedges, hids⟩ k v hk hget hnot hment
    rcases hk with hk | hk
    · obtain ⟨e, he, hlink⟩ := (h.links k v hk).mp hget
      rw [mentions_link (h.clean_of_mem he) hlink] at hment
      exact hnot ((removed_link_iff h he hlink).mpr (hedges e he hment))
    · obtain ⟨x, hx, hentry⟩ := (h.ids k v hk).mp hget
      obtain ⟨rfl, rfl⟩ := Prod.mk.inj hentry
      replace hment := (mentions_id (h.clean x hx)).mp hment
      obtain ⟨e, he, rfl⟩ := hids x hx hment
      exact hnot ((removed_id_iff h hx).mpr ⟨e, he, hedges e he hment, rfl⟩)

/-- Only entries that mention the node are removed. -/
theorem mentions_of_removed (h : Shape schema ks E I) (hnode : NulFree node) {k : Bytes}
    {v : EdgeEntry} (hk : IsLinkKey k ∨ IsIdKey k) (hget : ks[k]? = some v)
    (hrem : Removed schema ks node E k) : Mentions node k v := by
  rcases hk with hk | hk
  · obtain ⟨e, he, hlink⟩ := (h.links k v hk).mp hget
    rw [mentions_link (h.clean_of_mem he) hlink]
    exact incident_of_onPage h hnode he ((removed_link_iff h he hlink).mp hrem)
  · obtain ⟨x, hx, hentry⟩ := (h.ids k v hk).mp hget
    obtain ⟨rfl, rfl⟩ := Prod.mk.inj hentry
    obtain ⟨e, he, hon, rfl⟩ := (removed_id_iff h hx).mp hrem
    exact (mentions_id (h.clean _ hx)).mpr (incident_of_onPage h hnode he hon)

end Complete

section Store

variable {s : EdgeStore} {node : String} {E : String → Set StoredEdge} {I : String → Set IdEntry}

/-- The keyspace of every cascading type has a shape. -/
def CascadeShapes (s : EdgeStore) (E : String → Set StoredEdge) (I : String → Set IdEntry) :
    Prop :=
  ∀ label schema, s.getSchema label = some schema → schema.onDelete = .cascade →
    Shape schema (s.keyspaces label) (E label) (I label)

/-- What the removals leave in each keyspace. -/
theorem getElem?_removals (hshapes : CascadeShapes s E I) (hnode : NulFree node) :
    ∃ removals, s.deleteEdgesForNodeInTx node = .ok removals ∧
      (∀ label schema, s.getSchema label = some schema → schema.onDelete = .cascade →
        ∀ (k : Bytes) (v : EdgeEntry), (applyNamed s.keyspaces removals label)[k]? = some v ↔
          (s.keyspaces label)[k]? = some v ∧
            ¬ Removed schema (s.keyspaces label) node (E label) k) ∧
      ∀ label, (∀ schema, s.getSchema label = some schema → schema.onDelete ≠ .cascade) →
        applyNamed s.keyspaces removals label = s.keyspaces label := by
  have hlabel : ∀ label schema, s.getSchema label = some schema → schema.onDelete = .cascade →
      ∃ ws, s.cascadeLabel node label schema = .ok ws ∧
        Removes ws (Removed schema (s.keyspaces label) node (E label)) :=
    fun label schema hschema hpol =>
      cascadeLabel_removes hschema (hshapes label schema hschema hpol) hnode
  obtain ⟨removals, hrem, hmem⟩ := deleteEdgesForNodeInTx_ok
    fun label schema hschema hpol => (hlabel label schema hschema hpol).imp fun _ h => h.1
  have hwrites : ∀ label w, w ∈ writesTo label removals ↔ (label, w) ∈ removals := by
    intro label w
    simp only [writesTo, List.mem_filterMap, Option.ite_none_right_eq_some, Option.some.injEq]
    constructor
    · rintro ⟨p, hp, rfl, rfl⟩
      exact hp
    · exact fun h => ⟨(label, w), h, rfl, rfl⟩
  refine ⟨removals, hrem, ?_, ?_⟩
  · intro label schema hschema hpol k v
    obtain ⟨ws, hws, hremoves⟩ := hlabel label schema hschema hpol
    have hiff : ∀ w, w ∈ writesTo label removals ↔ w ∈ ws := by
      intro w
      rw [hwrites, hmem]
      constructor
      · rintro ⟨schema', ws', hschema', -, hws', hw⟩
        rw [hschema] at hschema'
        obtain rfl := Option.some.inj hschema'
        rw [hws] at hws'
        rwa [Except.ok.inj hws']
      · exact fun hw => ⟨schema, ws, hschema, hpol, hws, hw⟩
    rw [applyNamed_apply]
    refine Removes.getElem? ⟨fun w hw => hremoves.1 w ((hiff w).mp hw), ?_⟩ _ k v
    intro k
    simp only [hiff]
    exact hremoves.2 k
  · intro label hno
    have hnil : writesTo label removals = [] := by
      refine List.eq_nil_iff_forall_not_mem.mpr ?_
      intro w hw
      obtain ⟨schema, -, hschema, hpol, -⟩ := (hmem label w).mp ((hwrites label w).mp hw)
      exact hno schema hschema hpol
    rw [applyNamed_apply, hnil]
    rfl

/-- The removals clean up after the node exactly if all its edges are listed. -/
theorem cascadeComplete_iff (hshapes : CascadeShapes s E I) (hnode : NulFree node)
    {removals : List (String × Write EdgeEntry)}
    (hrem : s.deleteEdgesForNodeInTx node = .ok removals) :
    CascadeComplete node s { s with keyspaces := applyNamed s.keyspaces removals } ↔
      ∀ label schema, s.getSchema label = some schema → schema.onDelete = .cascade →
        AllListed schema (s.keyspaces label) node (E label) (I label) := by
  obtain ⟨removals', hrem', hcasc, hother⟩ := getElem?_removals hshapes hnode
  rw [hrem] at hrem'
  obtain rfl := Except.ok.inj hrem'
  constructor
  · intro hcomplete label schema hschema hpol
    refine (gone_iff (hshapes label schema hschema hpol)).mp ?_
    intro k v hk hget hnot
    exact hcomplete.gone label schema hschema hpol k v hk
      ((hcasc label schema hschema hpol k v).mpr ⟨hget, hnot⟩)
  · intro hall
    refine ⟨?_, ?_⟩
    · intro label schema hschema hpol k v hk hget
      obtain ⟨hget, hnot⟩ := (hcasc label schema hschema hpol k v).mp hget
      exact (gone_iff (hshapes label schema hschema hpol)).mpr (hall label schema hschema hpol)
        k v hk hget hnot
    · intro label k v hk hment
      by_cases hpol : ∃ schema, s.getSchema label = some schema ∧ schema.onDelete = .cascade
      · obtain ⟨schema, hschema, hpol⟩ := hpol
        refine (hcasc label schema hschema hpol k v).trans (and_iff_left_of_imp ?_)
        exact fun hget hremoved => hment
          (mentions_of_removed (hshapes label schema hschema hpol) hnode hk hget hremoved)
      · have hsame := hother label fun schema hschema hc => hpol ⟨schema, hschema, hc⟩
        show (applyNamed s.keyspaces removals label)[k]? = some v ↔ _
        rw [hsame]

/-- What a successful `delete_document` does to the edge store. -/
theorem deleteDocument_edges [External] {f : Faults} {db : Database} {c key : String}
    (hok : (db.deleteDocument f c key).2 = .ok true) :
    ∃ removals, db.edges.deleteEdgesForNodeInTx (c ++ ":" ++ key) = .ok removals ∧
      (db.deleteDocument f c key).1.edges =
        { db.edges with keyspaces := applyNamed db.edges.keyspaces removals } := by
  have hout := DocCall.delete_outcome f db c key
  generalize db.deleteDocument f c key = res at hout hok
  cases hout with
  | untouched r _ hr => exact absurd hok hr
  | violated e _ _ => cases hok
  | rolledBack r _ _ _ hr => exact absurd hok hr
  | committed removals _ _ _ hrem => exact ⟨removals, hrem, rfl⟩

/-- A successful `delete_document` cleans up after the node exactly if every edge of the node is
on the first page of one direction and no stale id entry names the node. -/
theorem delete_cascades_iff [External] {f : Faults} {db : Database} {c key : String}
    (hshapes : CascadeShapes db.edges E I) (hnode : NulFree (c ++ ":" ++ key))
    (hok : (db.deleteDocument f c key).2 = .ok true) :
    CascadeComplete (c ++ ":" ++ key) db.edges (db.deleteDocument f c key).1.edges ↔
      ∀ label schema, db.edges.getSchema label = some schema → schema.onDelete = .cascade →
        AllListed schema (db.edges.keyspaces label) (c ++ ":" ++ key) (E label) (I label) := by
  obtain ⟨removals, hrem, hedges⟩ := deleteDocument_edges hok
  rw [hedges]
  exact cascadeComplete_iff hshapes hnode hrem

end Store

/-! ## A node with many edges -/

namespace Star

open Follows (schema)

local instance : External := .standIn

/-- Distinct names without zero bytes. -/
def name (i : Nat) : String := String.ofList (List.replicate (i + 1) 'x')

/-- The `i`-th edge of the hub `users:a`. -/
def spoke (i : Nat) : Edge := Follows.edge ("follows:" ++ name i) "users:a" ("users:" ++ name i)

/-- The hub follows `n` users. -/
def star (n : Nat) : EdgeStore :=
  EdgeOp.runOps "follows" Follows.fresh ((List.range n).map fun i => .create (spoke i))

def stored (i : Nat) : StoredEdge := ⟨"users:a", "users:" ++ name i, ⟨name i, 1, 0, []⟩⟩

theorem name_injective : Function.Injective name := by
  intro i j hij
  have hlist : List.replicate (i + 1) 'x' = List.replicate (j + 1) 'x' := String.ofList_injective hij
  simpa using congrArg List.length hlist

theorem nulFree_name (p : String) (hp : NulFree p) (i : Nat) : NulFree (p ++ name i) := by
  have hx : (0 : UInt8) ∉ String.utf8EncodeChar 'x' := by decide
  unfold NulFree at hp ⊢
  rw [utf8_eq_flatMap] at hp ⊢
  simp only [name, String.toList_append, String.toList_ofList, List.flatMap_append,
    List.mem_append, not_or]
  refine ⟨hp, ?_⟩
  simp only [List.mem_flatMap, List.mem_replicate, not_exists, not_and]
  rintro c ⟨-, rfl⟩
  exact hx

theorem hub_ne (i : Nat) : "users:" ++ name i ≠ "users:a" := by
  intro h
  have hlist := congrArg String.toList h
  simp [name, List.replicate_succ] at hlist

theorem spoke_nanoid (i : Nat) : (spoke i).nanoid = name i :=
  nanoid_toEdge ⟨name i, 1, 0, []⟩ "follows" "users:a" ("users:" ++ name i)

theorem stored_clean (i : Nat) : Clean schema (stored i).name :=
  ⟨show NulFree "users:a" by decide, nulFree_name _ (by decide) i,
    show NulFree (name i) by simpa using nulFree_name "" (by decide) i, rfl⟩

theorem star_succ (n : Nat) : star (n + 1) = (EdgeOp.create (spoke n)).exec "follows" (star n) := by
  simp [star, EdgeOp.runOps, List.range_succ]

theorem star_schemas (n : Nat) : (star n).schemas = [("follows", schema)] := by
  induction n with
  | zero => rfl
  | succ n ih =>
    rw [star_succ]
    simp [EdgeOp.exec, EdgeStore.create, EdgeStore.schemaOrDefine, EdgeStore.getSchema, ih, spoke,
      Follows.edge, EdgeStore.write]

theorem star_write (n : Nat) : (star (n + 1)).keyspaces "follows" =
    ((star n).keyspaces "follows").applyWrites
      (insertEdgeKeys schema (stored n).src (stored n).dst (stored n).data) := by
  have hschema : (star n).getSchema "follows" = some schema := by
    simp [EdgeStore.getSchema, star_schemas]
  have hdata : EdgeData.fromEdge (spoke n) = (stored n).data := by
    rw [EdgeData.fromEdge, spoke_nanoid]
    rfl
  have hwrites : EdgeStore.createWrites schema (spoke n) =
      insertEdgeKeys schema (stored n).src (stored n).dst (stored n).data := by
    rw [← hdata]
    rfl
  have hexec : (EdgeOp.create (spoke n)).exec "follows" (star n) = (star n).write "follows"
      (EdgeStore.createWrites schema (spoke n)) := by
    show ((star n).create (spoke n)).1 = _
    simp only [EdgeStore.create, EdgeStore.schemaOrDefine]
    rw [show (spoke n).label = "follows" from rfl, hschema]
    show (star n).write "follows" (EdgeStore.createWrites schema (spoke n) ++ []) = _
    rw [List.append_nil]
  rw [star_succ, hexec, EdgeOp.keyspaces_write, hwrites]

theorem star_shape (n : Nat) :
    Shape schema ((star n).keyspaces "follows") {e | ∃ i < n, e = stored i}
      (StoredEdge.name '' {e | ∃ i < n, e = stored i}) := by
  induction n with
  | zero =>
    have hempty : Shape schema ((star 0).keyspaces "follows") ∅ ∅ := Shape.empty
    simpa using hempty
  | succ n ih =>
    have hfresh : ((star n).keyspaces "follows")[encodeEdgeIdKey (name n)]? = none := by
      by_contra hne
      obtain ⟨v, hv⟩ := Option.ne_none_iff_exists'.mp hne
      obtain ⟨x, ⟨e, ⟨i, hi, rfl⟩, rfl⟩, hentry⟩ := (ih.ids _ v (encodeEdgeIdKey_head _)).mp hv
      have hname : name n = name i := encodeEdgeIdKey_inj.mp (congrArg Prod.fst hentry)
      exact absurd (name_injective hname) (by omega)
    have hshape := ih.create (e := stored n) (stored_clean n) hfresh
    rw [← star_write] at hshape
    -- the targets differ, so nothing is overwritten
    have hsep : {e ∈ {e | ∃ i < n, e = stored i} | ¬ InSlot schema (stored n).name e} =
        {e | ∃ i < n, e = stored i} := by
      refine Set.sep_eq_self_iff_mem_true.mpr ?_
      rintro e ⟨i, hi, rfl⟩ ⟨-, hdst, -⟩
      have hname : name i = name n := by simpa [stored, StoredEdge.name] using hdst
      exact absurd (name_injective hname) (by omega)
    have hins : insert (stored n) {e | ∃ i < n, e = stored i} =
        {e | ∃ i < n + 1, e = stored i} := by
      ext e
      simp only [Set.mem_insert_iff, Set.mem_ofPred_eq, Nat.lt_succ_iff_lt_or_eq, or_and_right,
        exists_or, exists_eq_left]
      exact or_comm
    rwa [hsep, ← Set.image_insert_eq, hins] at hshape

/-- A page has room for 1000 edges. -/
theorem star_not_allListed {n : Nat} (hn : 1000 < n) :
    ¬ AllListed schema ((star n).keyspaces "follows") "users:a" {e | ∃ i < n, e = stored i}
      (StoredEdge.name '' {e | ∃ i < n, e = stored i}) := by
  intro hall
  have hkeys : ∀ i < n, outKey schema "users:a" ("users:" ++ name i) (name i) ∈
      (outPage ((star n).keyspaces "follows") "users:a").map Prod.fst := by
    intro i hi
    obtain ⟨k, hk, hpage⟩ := hall.1 (stored i) ⟨i, hi, rfl⟩ (Or.inl rfl)
    have hkey : k = outKey schema "users:a" ("users:" ++ name i) (name i) ∨
        k = inKey schema ("users:" ++ name i) "users:a" (name i) := by
      rcases List.mem_cons.mp hk with hk | hk
      · exact Or.inl hk
      · exact Or.inr (List.mem_singleton.mp hk)
    rcases List.mem_append.mp hpage with hpage | hpage
    · rcases hkey with rfl | rfl
      · exact hpage
      · exact absurd (prefix_of_mem_outPage hpage) (not_outPrefix_inKey _ _ _)
    · replace hpage : encodeEdgeInPrefix "users:a" <+: k := prefix_of_mem_inPage hpage
      rcases hkey with rfl | rfl
      · exact absurd hpage (not_inPrefix_outKey _ _ _)
      · have hloop := node_eq_of_inKey (by decide) (nulFree_name _ (by decide) i) hpage
        exact absurd hloop (hub_ne i)
  have hnodup : ((List.range n).map fun i =>
      outKey schema "users:a" ("users:" ++ name i) (name i)).Nodup := by
    refine List.nodup_range.map ?_
    intro i j hij
    have hdst := ((outKey_inj schema (by decide) (by decide) (nulFree_name _ (by decide) i)
      (nulFree_name _ (by decide) j)).mp hij).2.1
    exact name_injective (by simpa using hdst)
  have hle := (List.subperm_of_subset hnodup (fun k hk => by
    obtain ⟨i, hi, rfl⟩ := List.mem_map.mp hk
    exact hkeys i (List.mem_range.mp hi))).length_le
  have hpage : (outPage ((star n).keyspaces "follows") "users:a").length ≤ 1000 :=
    List.length_take_le ..
  simp only [List.length_map, List.length_range] at hle
  omega

/-- Up to 1000 edges are all listed. -/
theorem star_allListed {n : Nat} (hn : n ≤ 1000) :
    AllListed schema ((star n).keyspaces "follows") "users:a" {e | ∃ i < n, e = stored i}
      (StoredEdge.name '' {e | ∃ i < n, e = stored i}) := by
  have hshape := star_shape n
  -- the range holds at most the `n` OUT keys
  have hlen : (Keyspace.range ((star n).keyspaces "follows") (encodeEdgeOutPrefix "users:a")
      (encodeEdgeOutPrefixEnd "users:a")).length ≤ 1000 := by
    have hsub : (Keyspace.range ((star n).keyspaces "follows") (encodeEdgeOutPrefix "users:a")
        (encodeEdgeOutPrefixEnd "users:a")).map Prod.fst ⊆
        (List.range n).map fun i => outKey schema "users:a" ("users:" ++ name i) (name i) := by
      intro k hk
      obtain ⟨en, hen, rfl⟩ := List.mem_map.mp hk
      obtain ⟨e, ⟨i, hi, rfl⟩, -, hlink, -⟩ := out_entry hshape (by decide) "follows" hen
      have hfront : encodeEdgeOutPrefix "users:a" <+: en.1 :=
        (inRange_sep_iff _ _).mp (mem_range.mp hen).2
      rcases List.mem_cons.mp hlink with rfl | hlink
      · exact List.mem_map.mpr ⟨i, List.mem_range.mpr hi, rfl⟩
      · have hkey : en.1 = inKey schema ("users:" ++ name i) "users:a" (name i) :=
          congrArg Prod.fst (List.mem_singleton.mp hlink)
        rw [hkey] at hfront
        exact absurd hfront (not_outPrefix_inKey _ _ _)
    have hle := (List.subperm_of_subset (range_keys_nodup _ _ _) hsub).length_le
    simp only [List.length_map, List.length_range] at hle
    omega
  refine ⟨?_, ?_⟩
  · rintro e ⟨i, hi, rfl⟩ -
    refine ⟨_, List.mem_cons_self .., List.mem_append_left _ ?_⟩
    rw [outPage, List.take_of_length_le hlen]
    refine List.mem_map.mpr ⟨(outKey schema "users:a" ("users:" ++ name i) (name i), _),
      mem_range.mpr ⟨hshape.get_out ⟨i, hi, rfl⟩, ?_⟩, rfl⟩
    refine (inRange_sep_iff _ _).mpr ⟨utf8 ("users:" ++ name i), ?_⟩
    simp [outKey, encodeEdgeOutKeySingle, schema, EdgeSchema.new]
  · rintro x ⟨e, he, rfl⟩ -
    exact ⟨e, he, rfl⟩

/-- The hub is stored and follows `n` users. -/
def hub (n : Nat) : Database where
  keyspaces c := if c = "users" then some (CollectionKeyspaces.empty.putDoc ⟨"users:a", [], rfl⟩)
    else none
  indexes _ := []
  indexKeyspaces _ := ∅
  edges := star n

theorem hub_schema (n : Nat) : (hub n).edges.getSchema "follows" = some schema := by
  show (star n).schemas.lookup "follows" = _
  rw [star_schemas]
  rfl

/-- There is one edge type. -/
theorem hub_types {n : Nat} {label : String} {schema' : EdgeSchema}
    (h : (hub n).edges.getSchema label = some schema') : label = "follows" ∧ schema' = schema := by
  have hlookup : [("follows", schema)].lookup label = some schema' := by
    rw [← star_schemas n]
    exact h
  obtain ⟨l₁, l₂, hl, -⟩ := List.lookup_eq_some_iff.mp hlookup
  have hmem : (label, schema') ∈ [("follows", schema)] := by simp [hl]
  exact Prod.mk.inj (List.mem_singleton.mp hmem)

theorem hub_shapes (n : Nat) : CascadeShapes (hub n).edges (fun _ => {e | ∃ i < n, e = stored i})
    (fun _ => StoredEdge.name '' {e | ∃ i < n, e = stored i}) := by
  intro label schema' hschema _
  obtain ⟨rfl, rfl⟩ := hub_types hschema
  exact star_shape n

/-- The delete of the hub goes through. -/
theorem hub_deleted (n : Nat) : ((hub n).deleteDocument .none "users" "a").2 = .ok true := by
  obtain ⟨removals, hrem, -⟩ := getElem?_removals (hub_shapes n)
    (show NulFree ("users" ++ ":" ++ "a") by decide)
  have hallowed : (hub n).edges.checkDeleteAllowed ("users" ++ ":" ++ "a") = .ok () := by
    have htypes : (hub n).edges.listEdgeTypes = ["follows"] := by
      show (star n).schemas.map Prod.fst = _
      rw [star_schemas]
      rfl
    rw [EdgeStore.checkDeleteAllowed, htypes]
    simp [hub_schema, schema, EdgeSchema.new]
  have hks : (hub n).keyspaces "users" =
      some (CollectionKeyspaces.empty.putDoc ⟨"users:a", [], rfl⟩) := rfl
  have hdoc : (CollectionKeyspaces.empty.putDoc ⟨"users:a", [], rfl⟩).docs[utf8 "a"]? =
      some ⟨"users:a", [], rfl⟩ := by rfl
  have hbody : ∀ ls, ((hub n).setLocks "users" ls).deleteBody .none "users" "a"
      ⟨"users:a", [], rfl⟩ = .ok ⟨[.removeDoc "users" (utf8 "a"), .removeExists "users" (utf8 "a")],
        [], removals⟩ := by
    intro ls
    unfold Database.deleteBody
    rw [show ((hub n).setLocks "users" ls).edges = (hub n).edges from rfl, hrem]
    rfl
  have hread : Faults.none.read = none := rfl
  have hcommit : Faults.none.commit = .committed := rfl
  simp only [Database.deleteDocument, hks, hread, hdoc, hallowed, Database.finish, hbody, hcommit]

/-- With more than 1000 edges, deleting the hub leaves entries that mention it. -/
theorem hub_left_over {n : Nat} (hn : 1000 < n) : ¬ CascadeComplete "users:a" (hub n).edges
    ((hub n).deleteDocument .none "users" "a").1.edges := by
  obtain ⟨removals, hrem, hedges⟩ := deleteDocument_edges (hub_deleted n)
  rw [hedges]
  intro hcomplete
  have hall := (cascadeComplete_iff (hub_shapes n) (by decide) hrem).mp hcomplete
  exact star_not_allListed hn (hall "follows" schema (hub_schema n) rfl)

/-- The delete of a hub with 1001 edges succeeds and is not complete. -/
theorem hub_1001_incomplete : CascadeShapes (hub 1001).edges
      (fun _ => {e | ∃ i < 1001, e = stored i})
      (fun _ => StoredEdge.name '' {e | ∃ i < 1001, e = stored i}) ∧
    ((hub 1001).deleteDocument .none "users" "a").2 = .ok true ∧
    ¬ CascadeComplete "users:a" (hub 1001).edges
      ((hub 1001).deleteDocument .none "users" "a").1.edges :=
  ⟨hub_shapes 1001, hub_deleted 1001, hub_left_over (by decide)⟩

/-- A hub with two edges is cleaned up. -/
theorem hub_two_complete : ((hub 2).deleteDocument .none "users" "a").2 = .ok true ∧
    CascadeComplete "users:a" (hub 2).edges
      ((hub 2).deleteDocument .none "users" "a").1.edges := by
  refine ⟨hub_deleted 2, (delete_cascades_iff (hub_shapes 2) (by decide) (hub_deleted 2)).mpr ?_⟩
  intro label schema' hschema _
  obtain ⟨rfl, rfl⟩ := hub_types hschema
  exact star_allListed (by decide)

end Star

end StellarDb
