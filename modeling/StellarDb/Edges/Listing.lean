import StellarDb.Edges.Cascade
import StellarDb.Lib.Paging

/-!
# StellarDb — listing the edges of a node page by page

`list_out` and `list_in` walk the entries of a node in key order. The cursor of a page is the id
of its last edge; the next call walks the entries again from the front and skips up to that id,
so the pages fit together as long as no two edges of the node share an id. In a keyspace that has
a shape they never do, and a client that follows the cursors reads the edges of the node, each
once (`listings_exact`).
-/

namespace StellarDb

open Keyspaces Paging

/-! ## The two directions -/

/-- The direction of a listing. -/
inductive EdgeSide where
  | outgoing
  | incoming

/-- The edge seen from its other end. -/
def Edge.reversed (e : Edge) : Edge := { e with src := e.dst, dst := e.src }

theorem Edge.reversed_of_loop {e : Edge} (h : e.src = e.dst) : e = e.reversed := by
  obtain ⟨id, src, dst, label, createdAt, updatedAt, fields⟩ := e
  cases h
  rfl

/-- A stored edge as a listing shows it. -/
def StoredEdge.toEdge (label : String) (x : StoredEdge) : Edge :=
  x.data.toEdge label x.src x.dst

namespace EdgeSide

/-- The end at which a listing meets an edge. -/
def neighbour : EdgeSide → Edge → String
  | .outgoing => (·.dst)
  | .incoming => (·.src)

/-- The end from which it starts. -/
def start : EdgeSide → Edge → String
  | .outgoing => (·.src)
  | .incoming => (·.dst)

/-- The edges of a node; an edge of an undirected type is met from both of its ends, as one out
of the node. -/
def seen (side : EdgeSide) (schema : EdgeSchema) (node : String) (V : Set Edge) : Set Edge :=
  if schema.isUndirected then
    {e | ∃ v ∈ V, (v.src = node ∧ e = v) ∨ (v.dst = node ∧ e = v.reversed)}
  else {e | e ∈ V ∧ side.start e = node}

/-- The entries that a listing of storage walks. -/
def entries (side : EdgeSide) (schema : EdgeSchema) (ks : Keyspace EdgeEntry) (node : String) :
    List (Bytes × EdgeEntry) :=
  match side with
  | .outgoing => ks.range (encodeEdgeOutPrefix node) (encodeEdgeOutPrefixEnd node)
  | .incoming =>
    if schema.isUndirected then ks.range (encodeEdgeOutPrefix node) (encodeEdgeOutPrefixEnd node)
    else ks.range (encodeEdgeInPrefix node) (encodeEdgeInPrefixEnd node)

/-- The listing of storage. -/
def listStored (side : EdgeSide) (s : EdgeStore) (node label : String) (after : Option String)
    (limit : Nat) : Except StorageError (List Edge × Option String) :=
  match side with
  | .outgoing => s.listOut node label after limit
  | .incoming => s.listIn node label after limit

/-- The key of the entry that a listing of storage meets an edge at. -/
def key (side : EdgeSide) (schema : EdgeSchema) (e : Edge) : Bytes :=
  match side with
  | .outgoing => outKey schema e.src e.dst e.nanoid
  | .incoming =>
    if schema.isUndirected then outKey schema e.src e.dst e.nanoid
    else inKey schema e.dst e.src e.nanoid

end EdgeSide

/-! ## Skipping to the cursor -/

section Skipping

open EdgeStore

variable {label : String} {limit : Nat}

/-- With a cursor the loop of `list_out` starts behind the entry that has its id. -/
theorem listOutLoop_skip {src : String} {edgeOf : Bytes × EdgeEntry → Edge}
    {entries : List (Bytes × EdgeEntry)}
    (h : ∀ en ∈ entries, ∃ dst data, parseOutKeyTarget (en.1.drop 1) = .ok dst ∧
      deserializeEdgeData en.2 = .ok data ∧ edgeOf en = data.toEdge label src dst)
    (after : Option String) (edges : List Edge) :
    listOutLoop label src limit entries after edges =
      listOutLoop label src limit
        (entries.drop (startAfter (fun en => (edgeOf en).nanoid) entries after)) none edges := by
  cases after with
  | none => rfl
  | some cursor =>
    induction entries with
    | nil => rfl
    | cons en entries ih =>
      rw [List.forall_mem_cons] at h
      obtain ⟨dst, data, hkey, hdata, hedge⟩ := h.1
      have hid : (edgeOf en).nanoid = data.id := by rw [hedge, nanoid_toEdge]
      rw [startAfter_cons, hid]
      simp only [listOutLoop, hkey, hdata]
      by_cases hcursor : data.id = cursor
      · rw [if_pos hcursor, if_pos hcursor]
        rfl
      · rw [if_neg hcursor, if_neg hcursor, List.drop_succ_cons]
        exact ih h.2

/-- The same for `list_in`. -/
theorem listInLoop_skip {ks : Keyspace EdgeEntry} {schema : EdgeSchema} {dst : String}
    {edgeOf : Bytes × EdgeEntry → Edge} {entries : List (Bytes × EdgeEntry)}
    (h : ∀ en ∈ entries, ∃ src, ∃ data : EdgeData,
      parseInKeyAndValue schema (en.1.drop 1) en.2 = .ok (src, data.id) ∧
      edgeOf en = data.toEdge label src dst)
    (after : Option String) (edges : List Edge) :
    listInLoop ks schema label dst limit entries after edges =
      listInLoop ks schema label dst limit
        (entries.drop (startAfter (fun en => (edgeOf en).nanoid) entries after)) none edges := by
  cases after with
  | none => rfl
  | some cursor =>
    induction entries with
    | nil => rfl
    | cons en entries ih =>
      rw [List.forall_mem_cons] at h
      obtain ⟨src, data, hkey, hedge⟩ := h.1
      have hid : (edgeOf en).nanoid = data.id := by rw [hedge, nanoid_toEdge]
      rw [startAfter_cons, hid]
      simp only [listInLoop, hkey]
      by_cases hcursor : data.id = cursor
      · rw [if_pos hcursor, if_pos hcursor]
        rfl
      · rw [if_neg hcursor, if_neg hcursor, List.drop_succ_cons]
        exact ih h.2

/-- The page of one edge more than asked, cut behind the cursor. -/
theorem cuts_page (hlimit : 1 ≤ limit) (all : List Edge) (after : Option String) :
    Cuts Edge.nanoid all limit after
      (page limit ((all.drop (startAfter Edge.nanoid all after)).take (limit + 1))) := by
  set rest := all.drop (startAfter Edge.nanoid all after) with hrest
  refine ⟨page_take rest, ?_, ?_⟩
  · intro hnone
    unfold page at hnone
    split at hnone
    · next hlt =>
      -- the look-ahead edge is dropped, an edge is left
      rw [Option.map_eq_none_iff, List.getLast?_eq_none_iff] at hnone
      have hlen := congrArg List.length hnone
      rw [List.length_dropLast, List.length_nil] at hlen
      omega
    · next hle =>
      rw [List.length_take] at hle
      show rest.length ≤ limit
      omega
  · intro cursor hcursor
    unfold page at hcursor ⊢
    split at hcursor
    · next hlt =>
      rw [if_pos hlt]
      exact hcursor
    · cases hcursor

theorem one_le_clampLimit (limit : Nat) : 1 ≤ clampLimit limit := by
  unfold clampLimit
  omega

end Skipping

/-! ## Stored edges of a node -/

section Stored

variable {schema : EdgeSchema} {ks : Keyspace EdgeEntry} {E : Set StoredEdge} {I : Set IdEntry}
  {node : String}

/-- The OUT entries of a node are those of its edges, seen from the node. -/
theorem mem_out_entries (h : Shape schema ks E I) (hnode : NulFree node)
    {en : Bytes × EdgeEntry} :
    en ∈ ks.range (encodeEdgeOutPrefix node) (encodeEdgeOutPrefixEnd node) ↔
      ∃ x ∈ E, ∃ other, (x.src = node ∧ other = x.dst ∨
          schema.isUndirected = true ∧ x.dst = node ∧ other = x.src) ∧
        en = (outKey schema node other x.data.id, serializeEdgeData x.data) := by
  rw [mem_range]
  refine ⟨?_, ?_⟩
  · rintro ⟨hget, hrange⟩
    have hfront : encodeEdgeOutPrefix node <+: en.1 := (inRange_sep_iff _ _).mp hrange
    have hhead : en.1.head? = some edgePrefixOut := by
      obtain ⟨rest, hrest⟩ := hfront
      rw [← hrest]
      rfl
    obtain ⟨x, hx, hlink⟩ := (h.links en.1 en.2 (Or.inl hhead)).mp hget
    obtain ⟨hs, hd, -, -⟩ := h.clean_of_mem hx
    refine ⟨x, hx, ?_⟩
    simp only [StoredEdge.links, List.mem_cons, Prod.mk.injEq, List.not_mem_nil, or_false] at hlink
    rcases hlink with ⟨hkey, hval⟩ | ⟨hkey, hval⟩
    · rw [hkey] at hfront
      obtain rfl := node_eq_of_outKey hnode hs hfront
      exact ⟨x.dst, Or.inl ⟨rfl, rfl⟩, Prod.ext hkey hval⟩
    · by_cases hund : schema.isUndirected = true
      · rw [reverseKey, if_pos hund] at hkey
        rw [if_pos hund] at hval
        rw [hkey] at hfront
        obtain rfl := node_eq_of_outKey hnode hd hfront
        exact ⟨x.src, Or.inr ⟨hund, rfl, rfl⟩, Prod.ext hkey hval⟩
      · rw [reverseKey, if_neg hund] at hkey
        rw [hkey, inKey_head] at hhead
        exact absurd hhead (by decide)
  · rintro ⟨x, hx, other, hends, rfl⟩
    have hlink : (outKey schema node other x.data.id, serializeEdgeData x.data) ∈ x.links schema := by
      rcases hends with ⟨rfl, rfl⟩ | ⟨hund, rfl, rfl⟩
      · exact List.mem_cons_self
      · simp [StoredEdge.links, reverseKey, hund]
    refine ⟨(h.links _ _ (Or.inl (outKey_head ..))).mpr ⟨x, hx, hlink⟩, (inRange_sep_iff _ _).mpr ?_⟩
    show encodeEdgeOutPrefix node <+: outKey schema node other x.data.id
    unfold outKey encodeEdgeOutPrefix
    cases schema.cardinality with
    | single => exact ⟨utf8 other, by simp [encodeEdgeOutKeySingle]⟩
    | multiple =>
      exact ⟨utf8 other ++ 0 :: utf8 x.data.id, by simp [encodeEdgeOutKeyMulti]⟩

/-- The IN entries of a node of a directed type are those of the edges into it. -/
theorem mem_in_entries (h : Shape schema ks E I) (hnode : NulFree node)
    (hdir : schema.isUndirected = false) {en : Bytes × EdgeEntry} :
    en ∈ ks.range (encodeEdgeInPrefix node) (encodeEdgeInPrefixEnd node) ↔
      ∃ x ∈ E, x.dst = node ∧
        en = (inKey schema node x.src x.data.id, inValue schema x.data.id) := by
  rw [mem_range]
  refine ⟨?_, ?_⟩
  · rintro ⟨hget, hrange⟩
    have hfront : encodeEdgeInPrefix node <+: en.1 := (inRange_sep_iff _ _).mp hrange
    have hhead : en.1.head? = some edgePrefixIn := by
      obtain ⟨rest, hrest⟩ := hfront
      rw [← hrest]
      rfl
    obtain ⟨x, hx, hlink⟩ := (h.links en.1 en.2 (Or.inr hhead)).mp hget
    obtain ⟨hs, hd, -, -⟩ := h.clean_of_mem hx
    refine ⟨x, hx, ?_⟩
    simp only [StoredEdge.links, List.mem_cons, Prod.mk.injEq, List.not_mem_nil, or_false] at hlink
    rcases hlink with ⟨hkey, hval⟩ | ⟨hkey, hval⟩
    · rw [hkey, outKey_head] at hhead
      exact absurd hhead (by decide)
    · rw [reverseKey, hdir, if_neg (by decide)] at hkey
      rw [hdir, if_neg (by decide)] at hval
      rw [hkey] at hfront
      obtain rfl := node_eq_of_inKey hnode hd hfront
      exact ⟨rfl, Prod.ext hkey hval⟩
  · rintro ⟨x, hx, rfl, rfl⟩
    have hlink : (inKey schema x.dst x.src x.data.id, inValue schema x.data.id) ∈ x.links schema := by
      simp [StoredEdge.links, reverseKey, hdir]
    refine ⟨(h.links _ _ (Or.inr (inKey_head ..))).mpr ⟨x, hx, hlink⟩, (inRange_sep_iff _ _).mpr ?_⟩
    show encodeEdgeInPrefix x.dst <+: inKey schema x.dst x.src x.data.id
    unfold inKey encodeEdgeInPrefix
    cases schema.cardinality with
    | single => exact ⟨utf8 x.src, by simp [encodeEdgeInKeySingle]⟩
    | multiple =>
      exact ⟨utf8 x.src ++ 0 :: utf8 x.data.id, by simp [encodeEdgeInKeyMulti]⟩

/-- The edge an OUT entry stands for. -/
def decodeOut (label node : String) (en : Bytes × EdgeEntry) : Option Edge :=
  match EdgeStore.parseOutKeyTarget (en.1.drop 1), deserializeEdgeData en.2 with
  | .ok other, .ok data => some (data.toEdge label node other)
  | _, _ => none

theorem decodeOut_entry (schema : EdgeSchema) (label : String) (hnode : NulFree node) {other : String} {data : EdgeData}
    (hother : NulFree other) (hid : NulFree data.id) :
    EdgeStore.parseOutKeyTarget ((outKey schema node other data.id).drop 1) = .ok other ∧
      deserializeEdgeData (serializeEdgeData data) = .ok data ∧
      decodeOut label node (outKey schema node other data.id, serializeEdgeData data) =
        some (data.toEdge label node other) := by
  have hkey : EdgeStore.parseOutKeyTarget ((outKey schema node other data.id).drop 1) = .ok other :=
    parseOutKeyTarget_outKey hnode hother
  have hdata := deserialize_serialize hid
  refine ⟨hkey, hdata, ?_⟩
  simp only [decodeOut, hkey, hdata]

/-- The edge an IN entry stands for. -/
def decodeIn (schema : EdgeSchema) (ks : Keyspace EdgeEntry) (label node : String)
    (en : Bytes × EdgeEntry) : Option Edge :=
  match EdgeStore.parseInKeyAndValue schema (en.1.drop 1) en.2 with
  | .ok (src, id) =>
    match EdgeStore.getData ks (outKey schema src node id) with
    | .ok (some data) => some (data.toEdge label src node)
    | _ => none
  | _ => none

theorem decodeIn_entry (h : Shape schema ks E I) (label : String) {x : StoredEdge} (hx : x ∈ E) :
    EdgeStore.parseInKeyAndValue schema ((inKey schema x.dst x.src x.data.id).drop 1)
        (inValue schema x.data.id) = .ok (x.src, x.data.id) ∧
      EdgeStore.getData ks (outKey schema x.src x.dst x.data.id) = .ok (some x.data) ∧
      decodeIn schema ks label x.dst
        (inKey schema x.dst x.src x.data.id, inValue schema x.data.id) =
          some (x.toEdge label) := by
  obtain ⟨hs, hd, hi, -⟩ := h.clean_of_mem hx
  have hdata : EdgeStore.getData ks (outKey schema x.src x.dst x.data.id) = .ok (some x.data) := by
    rw [EdgeStore.getData, h.get_out hx]
    exact congrArg (Except.map some) (deserialize_serialize hi)
  have hkey : EdgeStore.parseInKeyAndValue schema ((inKey schema x.dst x.src x.data.id).drop 1)
      (inValue schema x.data.id) = .ok (x.src, x.data.id) := parseInKeyAndValue_inKey hs hd hi
  refine ⟨hkey, hdata, ?_⟩
  simp only [decodeIn, hkey, hdata]
  rfl

/-- The edges on all pages of a listing, in the order of their keys; the pages are cut from that
list. -/
structure ListsPages (list : Option String → Nat → Except StorageError (List Edge × Option String))
    (key : Edge → Bytes) (entries : List (Bytes × EdgeEntry)) (seen : Set Edge)
    (all : List Edge) : Prop where
  keys : all.map key = entries.map Prod.fst
  mem : ∀ e, e ∈ all ↔ e ∈ seen
  pages : ∀ limit after, ∃ r, list after limit = .ok r ∧
    Cuts Edge.nanoid all (EdgeStore.clampLimit limit) after r

/-- The edges on all pages of a listing, without repetition. -/
structure ListsAll (list : Nat → Except StorageError (List Edge × Option String)) (count : Nat)
    (seen : Set Edge) (all : List Edge) : Prop where
  length : all.length = count
  nodup : all.Nodup
  mem : ∀ e, e ∈ all ↔ e ∈ seen
  first : ∀ limit, ∃ cursor, list limit = .ok (all.take (EdgeStore.clampLimit limit), cursor)

section

variable {list : Option String → Nat → Except StorageError (List Edge × Option String)}
  {key : Edge → Bytes} {entries : List (Bytes × EdgeEntry)} {seen : Set Edge} {all : List Edge}

theorem ListsPages.listsAll (h : ListsPages list key entries seen all)
    (hentries : (entries.map Prod.fst).Nodup) : ListsAll (list none) entries.length seen all where
  length := by
    have hlen := congrArg List.length h.keys
    rwa [List.length_map, List.length_map] at hlen
  nodup := by
    rw [← h.keys] at hentries
    exact hentries.of_map _
  mem := h.mem
  first := by
    intro limit
    obtain ⟨⟨items, cursor⟩, hlist, hcut⟩ := h.pages limit none
    refine ⟨cursor, ?_⟩
    rw [hlist]
    exact congrArg (fun items => Except.ok (items, cursor)) hcut.items

theorem ListsPages.congr (h : ListsPages list key entries seen all) {seen' : Set Edge}
    (hseen : seen = seen') : ListsPages list key entries seen' all := hseen ▸ h

/-- Pages cut from edges with different ids are read to the end. -/
theorem ListsPages.drains (h : ListsPages list key entries seen all)
    (hids : (all.map Edge.nanoid).Nodup) (limit : Nat) :
    Drains (fun after => list after limit) none all :=
  drains_from hids (h.pages limit) none

end

variable {s : EdgeStore} {label : String}

theorem listOut_pages (hschema : s.getSchema label = some schema)
    (h : Shape schema (s.keyspaces label) E I) (hnode : NulFree node) :
    ∃ all, ListsPages (s.listOut node label) (EdgeSide.outgoing.key schema)
      ((s.keyspaces label).range (encodeEdgeOutPrefix node) (encodeEdgeOutPrefixEnd node))
      {e | ∃ x ∈ E, ∃ other, (x.src = node ∧ other = x.dst ∨
        schema.isUndirected = true ∧ x.dst = node ∧ other = x.src) ∧
        e = x.data.toEdge label node other} all := by
  set range := (s.keyspaces label).range (encodeEdgeOutPrefix node) (encodeEdgeOutPrefixEnd node)
    with hrange
  set edgeOf : Bytes × EdgeEntry → Edge := fun en =>
    (decodeOut label node en).getD ⟨"", "", "", "", 0, none, []⟩ with hedgeOf
  -- every entry decodes to an edge of the node
  have hof : ∀ x ∈ E, ∀ other, (x.src = node ∧ other = x.dst ∨
      schema.isUndirected = true ∧ x.dst = node ∧ other = x.src) →
      EdgeStore.parseOutKeyTarget ((outKey schema node other x.data.id).drop 1) = .ok other ∧
      deserializeEdgeData (serializeEdgeData x.data) = .ok x.data ∧
      edgeOf (outKey schema node other x.data.id, serializeEdgeData x.data) =
        x.data.toEdge label node other := by
    intro x hx other hends
    obtain ⟨hs, hd, hi, -⟩ := h.clean_of_mem hx
    have hother : NulFree other := by
      rcases hends with ⟨-, rfl⟩ | ⟨-, -, rfl⟩
      · exact hd
      · exact hs
    obtain ⟨hkey, hdata, hdecode⟩ := decodeOut_entry schema label hnode hother hi
    refine ⟨hkey, hdata, ?_⟩
    rw [hedgeOf]
    simp only [hdecode, Option.getD_some]
  have hdecode : ∀ en ∈ range, ∃ dst data,
      EdgeStore.parseOutKeyTarget (en.1.drop 1) = .ok dst ∧
      deserializeEdgeData en.2 = .ok data ∧ edgeOf en = data.toEdge label node dst := by
    intro en hen
    obtain ⟨x, hx, other, hends, rfl⟩ := (mem_out_entries h hnode).mp hen
    exact ⟨other, x.data, hof x hx other hends⟩
  refine ⟨range.map edgeOf, ?_, fun e => ?_, fun limit after => ?_⟩
  · rw [List.map_map]
    refine List.map_congr_left fun en hen => ?_
    obtain ⟨x, hx, other, hends, rfl⟩ := (mem_out_entries h hnode).mp hen
    show outKey schema (edgeOf _).src (edgeOf _).dst (edgeOf _).nanoid = _
    rw [(hof x hx other hends).2.2, nanoid_toEdge]
    rfl
  · rw [List.mem_map]
    constructor
    · rintro ⟨en, hen, rfl⟩
      obtain ⟨x, hx, other, hends, rfl⟩ := (mem_out_entries h hnode).mp hen
      exact ⟨x, hx, other, hends, (hof x hx other hends).2.2⟩
    · rintro ⟨x, hx, other, hends, rfl⟩
      exact ⟨_, (mem_out_entries h hnode).mpr ⟨x, hx, other, hends, rfl⟩,
        (hof x hx other hends).2.2⟩
  · refine ⟨_, ?_, cuts_page (one_le_clampLimit limit) (range.map edgeOf) after⟩
    rw [EdgeStore.listOut, hschema, if_neg (by simp)]
    show (EdgeStore.listOutLoop label node (EdgeStore.clampLimit limit) range after []).map _ = _
    rw [listOutLoop_skip hdecode, listOutLoop_eq (fun en hen => hdecode en (List.mem_of_mem_drop hen)),
      startAfter_map, ← List.map_drop]
    rfl

theorem listIn_pages (hschema : s.getSchema label = some schema)
    (h : Shape schema (s.keyspaces label) E I) (hnode : NulFree node)
    (hdir : schema.isUndirected = false) :
    ∃ all, ListsPages (s.listIn node label) (EdgeSide.incoming.key schema)
      ((s.keyspaces label).range (encodeEdgeInPrefix node) (encodeEdgeInPrefixEnd node))
      {e | ∃ x ∈ E, x.dst = node ∧ e = x.toEdge label} all := by
  set range := (s.keyspaces label).range (encodeEdgeInPrefix node) (encodeEdgeInPrefixEnd node)
    with hrange
  set edgeOf : Bytes × EdgeEntry → Edge := fun en =>
    (decodeIn schema (s.keyspaces label) label node en).getD ⟨"", "", "", "", 0, none, []⟩
    with hedgeOf
  have hof : ∀ x ∈ E, x.dst = node →
      edgeOf (inKey schema node x.src x.data.id, inValue schema x.data.id) = x.toEdge label := by
    rintro x hx rfl
    rw [hedgeOf]
    simp only [(decodeIn_entry h label hx).2.2, Option.getD_some]
  have hdecode : ∀ en ∈ range, ∃ src, ∃ data : EdgeData,
      EdgeStore.parseInKeyAndValue schema (en.1.drop 1) en.2 = .ok (src, data.id) ∧
      EdgeStore.getData (s.keyspaces label) (outKey schema src node data.id) = .ok (some data) ∧
      edgeOf en = data.toEdge label src node := by
    intro en hen
    obtain ⟨x, hx, rfl, rfl⟩ := (mem_in_entries h hnode hdir).mp hen
    obtain ⟨hkey, hdata, -⟩ := decodeIn_entry h label hx
    exact ⟨x.src, x.data, hkey, hdata, hof x hx rfl⟩
  refine ⟨range.map edgeOf, ?_, fun e => ?_, fun limit after => ?_⟩
  · rw [List.map_map]
    refine List.map_congr_left fun en hen => ?_
    obtain ⟨x, hx, hdst, rfl⟩ := (mem_in_entries h hnode hdir).mp hen
    show (if schema.isUndirected then _ else inKey schema (edgeOf _).dst (edgeOf _).src
      (edgeOf _).nanoid) = _
    rw [if_neg (by simp [hdir]), hof x hx hdst, StoredEdge.toEdge, nanoid_toEdge, ← hdst]
    rfl
  · rw [List.mem_map]
    constructor
    · rintro ⟨en, hen, rfl⟩
      obtain ⟨x, hx, hdst, rfl⟩ := (mem_in_entries h hnode hdir).mp hen
      exact ⟨x, hx, hdst, hof x hx hdst⟩
    · rintro ⟨x, hx, hdst, rfl⟩
      exact ⟨_, (mem_in_entries h hnode hdir).mpr ⟨x, hx, hdst, rfl⟩, hof x hx hdst⟩
  · refine ⟨_, ?_, cuts_page (one_le_clampLimit limit) (range.map edgeOf) after⟩
    simp only [EdgeStore.listIn, hschema, hdir]
    show (EdgeStore.listInLoop (s.keyspaces label) schema label node
      (EdgeStore.clampLimit limit) range after []).map _ = _
    have hskip : ∀ en ∈ range, ∃ src, ∃ data : EdgeData,
        EdgeStore.parseInKeyAndValue schema (en.1.drop 1) en.2 = .ok (src, data.id) ∧
        edgeOf en = data.toEdge label src node := by
      intro en hen
      obtain ⟨src, data, hkey, -, hedge⟩ := hdecode en hen
      exact ⟨src, data, hkey, hedge⟩
    have hwalk : ∀ en ∈ range, ∃ src edgeId data,
        EdgeStore.parseInKeyAndValue schema (en.1.drop 1) en.2 = .ok (src, edgeId) ∧
        EdgeStore.getData (s.keyspaces label) (outKey schema src node edgeId) = .ok (some data) ∧
        edgeOf en = data.toEdge label src node := by
      intro en hen
      obtain ⟨src, data, hall⟩ := hdecode en hen
      exact ⟨src, data.id, data, hall⟩
    rw [listInLoop_skip hskip, listInLoop_eq (fun en hen => hwalk en (List.mem_of_mem_drop hen)),
      startAfter_map, ← List.map_drop]
    rfl

/-- The schema of a label; one that is not defined yet has no edges and gets the default. -/
def EdgeStore.HasSchema (s : EdgeStore) (label : String) (schema : EdgeSchema) : Prop :=
  s.getSchema label = some schema ∨
    (s.getSchema label = none ∧ schema = .new label ∧ s.keyspaces label = ∅)

/-- What a listing of storage shows of a node, page by page. -/
theorem listStored_pages (side : EdgeSide) (hschema : s.HasSchema label schema)
    (h : Shape schema (s.keyspaces label) E I) (hnode : NulFree node) :
    ∃ all, ListsPages (side.listStored s node label) (side.key schema)
      (side.entries schema (s.keyspaces label) node)
      (side.seen schema node (StoredEdge.toEdge label '' E)) all := by
  rcases hschema with hsome | ⟨hnone, -, hempty⟩
  · -- the out listing of an undirected type is the in listing too
    have hund : schema.isUndirected = true →
        {e : Edge | ∃ x ∈ E, ∃ other, (x.src = node ∧ other = x.dst ∨
          schema.isUndirected = true ∧ x.dst = node ∧ other = x.src) ∧
          e = x.data.toEdge label node other} =
        side.seen schema node (StoredEdge.toEdge label '' E) := by
      intro hund
      rw [EdgeSide.seen, if_pos hund]
      ext e
      refine ⟨?_, ?_⟩
      · rintro ⟨x, hx, other, ⟨rfl, rfl⟩ | ⟨-, rfl, rfl⟩, rfl⟩
        · exact ⟨_, ⟨x, hx, rfl⟩, Or.inl ⟨rfl, rfl⟩⟩
        · exact ⟨_, ⟨x, hx, rfl⟩, Or.inr ⟨rfl, rfl⟩⟩
      · rintro ⟨v, ⟨x, hx, rfl⟩, ⟨rfl, rfl⟩ | ⟨rfl, rfl⟩⟩
        · exact ⟨x, hx, _, Or.inl ⟨rfl, rfl⟩, rfl⟩
        · exact ⟨x, hx, _, Or.inr ⟨hund, rfl, rfl⟩, rfl⟩
    obtain ⟨all, hall⟩ := listOut_pages hsome h hnode
    by_cases hu : schema.isUndirected = true
    · refine ⟨all, ?_⟩
      cases side with
      | outgoing => exact hall.congr (hund hu)
      | incoming =>
        have hlist : s.listIn node label = s.listOut node label := by
          funext after limit
          simp only [EdgeStore.listIn, hsome, hu, if_true]
        have hkey : EdgeSide.incoming.key schema = EdgeSide.outgoing.key schema := by
          funext e
          exact if_pos hu
        have hentries : EdgeSide.incoming.entries schema (s.keyspaces label) node =
            (s.keyspaces label).range (encodeEdgeOutPrefix node) (encodeEdgeOutPrefixEnd node) :=
          if_pos hu
        rw [hentries, hkey]
        show ListsPages (s.listIn node label) _ _ _ all
        rw [hlist]
        exact hall.congr (hund hu)
    · have hdir : schema.isUndirected = false := by simpa using hu
      cases side with
      | outgoing =>
        refine ⟨all, hall.congr ?_⟩
        rw [EdgeSide.seen, if_neg hu]
        ext e
        refine ⟨?_, ?_⟩
        · rintro ⟨x, hx, other, ⟨rfl, rfl⟩ | ⟨hu', -⟩, rfl⟩
          · exact ⟨⟨x, hx, rfl⟩, rfl⟩
          · exact absurd hu' hu
        · rintro ⟨⟨x, hx, rfl⟩, rfl⟩
          exact ⟨x, hx, _, Or.inl ⟨rfl, rfl⟩, rfl⟩
      | incoming =>
        obtain ⟨allIn, hallIn⟩ := listIn_pages hsome h hnode hdir
        have hentries : EdgeSide.incoming.entries schema (s.keyspaces label) node =
            (s.keyspaces label).range (encodeEdgeInPrefix node) (encodeEdgeInPrefixEnd node) :=
          if_neg hu
        rw [hentries]
        refine ⟨allIn, hallIn.congr ?_⟩
        rw [EdgeSide.seen, if_neg hu]
        ext e
        refine ⟨?_, ?_⟩
        · rintro ⟨x, hx, rfl, rfl⟩
          exact ⟨⟨x, hx, rfl⟩, rfl⟩
        · rintro ⟨⟨x, hx, rfl⟩, rfl⟩
          exact ⟨x, hx, rfl, rfl⟩
  · -- no type, no entries
    have hE : E = ∅ := by
      refine Set.eq_empty_of_forall_notMem fun x hx => ?_
      have hget := h.get_out hx
      rw [hempty] at hget
      simp at hget
    have hrange : ∀ lo hi : Bytes, (s.keyspaces label).range lo hi = [] := by
      intro lo hi
      rw [hempty]
      simp [Keyspace.range]
    have hentries : side.entries schema (s.keyspaces label) node = [] := by
      cases side with
      | outgoing => exact hrange _ _
      | incoming =>
        unfold EdgeSide.entries
        simp only [hrange, ite_self]
    refine ⟨[], ?_, fun e => ?_, fun limit after => ⟨([], none), ?_, ?_, ?_, ?_⟩⟩
    · rw [hentries]
      rfl
    · rw [hE, Set.image_empty]
      unfold EdgeSide.seen
      split <;> simp
    · cases side with
      | outgoing => simp [EdgeSide.listStored, EdgeStore.listOut, hnone]
      | incoming => simp [EdgeSide.listStored, EdgeStore.listIn, hnone]
    · simp
    · simp
    · intro cursor hcursor
      cases hcursor

theorem entries_keys_ordered (side : EdgeSide) (ks : Keyspace EdgeEntry) :
    ((side.entries schema ks node).map Prod.fst).Pairwise fun a b => compare a b = .lt := by
  cases side with
  | outgoing => exact range_ordered ..
  | incoming =>
    unfold EdgeSide.entries
    dsimp only
    split
    · exact range_ordered ..
    · exact range_ordered ..

theorem entries_keys_nodup (side : EdgeSide) (ks : Keyspace EdgeEntry) :
    ((side.entries schema ks node).map Prod.fst).Nodup := by
  cases side with
  | outgoing => exact range_keys_nodup ..
  | incoming =>
    unfold EdgeSide.entries
    dsimp only
    split
    · exact range_keys_nodup ..
    · exact range_keys_nodup ..

/-- What a listing of storage shows of a node, from the first page. -/
theorem listStored_all (side : EdgeSide) (hschema : s.HasSchema label schema)
    (h : Shape schema (s.keyspaces label) E I) (hnode : NulFree node) :
    ∃ all, ListsAll (side.listStored s node label none)
      (side.entries schema (s.keyspaces label) node).length
      (side.seen schema node (StoredEdge.toEdge label '' E)) all := by
  obtain ⟨all, hall⟩ := listStored_pages side hschema h hnode
  exact ⟨all, hall.listsAll (entries_keys_nodup side _)⟩

end Stored

/-! ## Exactness -/

/-- A zero byte in an edge id does not hide in the stored data. -/
theorem nulFree_id_of_serialize {data data' : EdgeData} (h' : NulFree data'.id)
    (heq : serializeEdgeData data = serializeEdgeData data') : NulFree data.id := by
  unfold serializeEdgeData at heq
  split at heq <;> split at heq
  · -- the timestamps have one length, so the ids end at the same place
    simp only [EdgeEntry.bytes.injEq, List.cons.injEq, true_and, List.cons_append] at heq
    have hid := (List.append_inj' heq (by simp)).1
    unfold NulFree
    rw [hid]
    exact h'
  · cases heq
  · cases heq
  · cases heq
    exact h'

/-- Nor does one in a node hide in an OUT key. -/
theorem nulFree_of_outKey (schema : EdgeSchema) {a b src dst i : String} (hs : NulFree src)
    (hd : NulFree dst) (hkey : outKey schema a b i = outKey schema src dst i) :
    NulFree a ∧ NulFree b := by
  have hcount := congrArg (List.count 0) hkey
  have hzero : ∀ {s : String}, NulFree s → (utf8 s).count 0 = 0 := List.count_eq_zero.mpr
  have hhead : (edgePrefixOut == 0) = false := by decide
  unfold NulFree
  rw [← List.count_eq_zero, ← List.count_eq_zero]
  unfold outKey at hcount
  cases hc : schema.cardinality with
  | single =>
    simp only [hc, encodeEdgeOutKeySingle, List.count_append, List.count_cons, hhead, hzero hs,
      hzero hd] at hcount
    omega
  | multiple =>
    simp only [hc, encodeEdgeOutKeyMulti, List.count_append, List.count_cons, hhead, hzero hs,
      hzero hd] at hcount
    omega

/-- The edges the OUT entries of a label hold; one of an undirected type is there in both
orientations. -/
def EdgeStore.held (s : EdgeStore) (schema : EdgeSchema) (label : String) : Set Edge :=
  {e | ∃ data, (s.keyspaces label)[outKey schema e.src e.dst data.id]? =
    some (serializeEdgeData data) ∧ e = data.toEdge label e.src e.dst}

/-- The edge leaves, or enters, the node; of an undirected type every edge of a node does both. -/
def EdgeSide.Meets (side : EdgeSide) (schema : EdgeSchema) (node : String) (e : Edge) : Prop :=
  (if schema.isUndirected then e.src else side.start e) = node

section Exactness

variable {schema : EdgeSchema} {s : EdgeStore} {label : String} {E : Set StoredEdge}
  {I : Set IdEntry}

theorem mem_held (h : Shape schema (s.keyspaces label) E I) {e : Edge} :
    e ∈ s.held schema label ↔ ∃ x ∈ E, e = x.toEdge label ∨
      schema.isUndirected = true ∧ e = (x.toEdge label).reversed := by
  constructor
  · rintro ⟨data, hget, he⟩
    obtain ⟨x, hx, hlink⟩ := (h.links _ _ (Or.inl (outKey_head ..))).mp hget
    obtain ⟨hs, hd, hi, -⟩ := h.clean_of_mem hx
    refine ⟨x, hx, ?_⟩
    have hdata : ∀ {a b : String}, NulFree a → NulFree b →
        outKey schema e.src e.dst data.id = outKey schema a b x.data.id →
        serializeEdgeData data = serializeEdgeData x.data →
        data = x.data ∧ e.src = a ∧ e.dst = b := by
      intro a b ha hb hkey hval
      have hdata := serializeEdgeData_inj (nulFree_id_of_serialize hi hval) hi hval
      rw [hdata] at hkey
      obtain ⟨hsrc, hdst⟩ := nulFree_of_outKey schema ha hb hkey
      obtain ⟨h1, h2, -⟩ := (outKey_inj schema hsrc ha hdst hb).mp hkey
      exact ⟨hdata, h1, h2⟩
    simp only [StoredEdge.links, List.mem_cons, Prod.mk.injEq, List.not_mem_nil, or_false] at hlink
    rcases hlink with ⟨hkey, hval⟩ | ⟨hkey, hval⟩
    · obtain ⟨rfl, h1, h2⟩ := hdata hs hd hkey hval
      rw [h1, h2] at he
      exact Or.inl he
    · by_cases hund : schema.isUndirected = true
      · rw [reverseKey, if_pos hund] at hkey
        rw [if_pos hund] at hval
        obtain ⟨rfl, h1, h2⟩ := hdata hd hs hkey hval
        rw [h1, h2] at he
        exact Or.inr ⟨hund, he⟩
      · have hhead := congrArg List.head? hkey
        rw [reverseKey, if_neg hund, outKey_head, inKey_head] at hhead
        exact absurd hhead (by decide)
  · rintro ⟨x, hx, rfl | ⟨hund, rfl⟩⟩
    · exact ⟨x.data, h.get_out hx, rfl⟩
    · have hrev := h.get_reverse hx
      rw [reverseKey, if_pos hund, if_pos hund] at hrev
      exact ⟨x.data, hrev, rfl⟩

/-- What a listing should show. -/
theorem mem_seen_held (h : Shape schema (s.keyspaces label) E I) (side : EdgeSide)
    {node : String} {e : Edge} :
    e ∈ side.seen schema node (StoredEdge.toEdge label '' E) ↔
      e ∈ s.held schema label ∧ side.Meets schema node e := by
  rw [mem_held h]
  unfold EdgeSide.seen EdgeSide.Meets
  by_cases hund : schema.isUndirected = true
  · simp only [hund, if_true, true_and]
    constructor
    · rintro ⟨v, ⟨x, hx, rfl⟩, ⟨rfl, rfl⟩ | ⟨rfl, rfl⟩⟩
      · exact ⟨⟨x, hx, Or.inl rfl⟩, rfl⟩
      · exact ⟨⟨x, hx, Or.inr rfl⟩, rfl⟩
    · rintro ⟨⟨x, hx, rfl | rfl⟩, rfl⟩
      · exact ⟨_, ⟨x, hx, rfl⟩, Or.inl ⟨rfl, rfl⟩⟩
      · exact ⟨_, ⟨x, hx, rfl⟩, Or.inr ⟨rfl, rfl⟩⟩
  · rw [if_neg hund, if_neg hund]
    constructor
    · rintro ⟨⟨x, hx, rfl⟩, hstart⟩
      exact ⟨⟨x, hx, Or.inl rfl⟩, hstart⟩
    · rintro ⟨⟨x, hx, rfl | ⟨hund', -⟩⟩, hstart⟩
      · exact ⟨⟨x, hx, rfl⟩, hstart⟩
      · exact absurd hund' hund

/-- Two edges that a node is listed with differ in their ids. -/
theorem seen_id_unique (h : Shape schema (s.keyspaces label) E I) (side : EdgeSide)
    {node : String} {e e' : Edge} (he : e ∈ side.seen schema node (StoredEdge.toEdge label '' E))
    (he' : e' ∈ side.seen schema node (StoredEdge.toEdge label '' E))
    (hid : e.nanoid = e'.nanoid) : e = e' := by
  have hsame : ∀ x ∈ E, ∀ x' ∈ E, x.data.id = x'.data.id → x = x' := by
    intro x hx x' hx' hid
    have hname := h.id_unique (h.named x hx) (h.named x' hx') hid
    exact h.slot_unique hx' hx ⟨congrArg IdEntry.src hname, congrArg IdEntry.dst hname,
      fun _ => hid⟩
  have hnanoid : ∀ x : StoredEdge, (x.toEdge label).nanoid = x.data.id ∧
      (x.toEdge label).reversed.nanoid = x.data.id :=
    fun x => ⟨nanoid_toEdge .., nanoid_toEdge x.data label x.dst x.src⟩
  unfold EdgeSide.seen at he he'
  by_cases hund : schema.isUndirected = true
  · rw [if_pos hund] at he he'
    obtain ⟨_, ⟨x, hx, rfl⟩, hends⟩ := he
    obtain ⟨_, ⟨x', hx', rfl⟩, hends'⟩ := he'
    have hxx : x = x' := by
      refine hsame x hx x' hx' ?_
      rcases hends with ⟨-, rfl⟩ | ⟨-, rfl⟩ <;> rcases hends' with ⟨-, rfl⟩ | ⟨-, rfl⟩ <;>
        simpa only [hnanoid] using hid
    subst hxx
    -- both orientations start at the node only for a loop
    rcases hends with ⟨h1, rfl⟩ | ⟨h1, rfl⟩ <;> rcases hends' with ⟨h2, rfl⟩ | ⟨h2, rfl⟩
    · rfl
    · exact Edge.reversed_of_loop (h1.trans h2.symm)
    · exact (Edge.reversed_of_loop (h2.trans h1.symm)).symm
    · rfl
  · rw [if_neg hund] at he he'
    obtain ⟨⟨x, hx, rfl⟩, -⟩ := he
    obtain ⟨⟨x', hx', rfl⟩, -⟩ := he'
    rw [(hnanoid x).1, (hnanoid x').1] at hid
    rw [hsame x hx x' hx' hid]

/-- In every state that valid calls reach, a client that follows the cursors of a listing from the
first page reads to the end, and it reads the edges that leave, or enter, the node, in strict key
order, whatever the page limit. -/
theorem listings_exact [External] (hschema : s.getSchema label = some schema)
    (h : Shaped schema (s.keyspaces label)) {ops : List EdgeOp}
    (hv : EdgeOp.RunValid label s ops) (side : EdgeSide) {node : String} (hnode : NulFree node) :
    ∃ edges,
      (∀ limit, Drains
        (fun after => side.listStored (EdgeOp.runOps label s ops) node label after limit)
        none edges) ∧
      edges.Pairwise (fun e e' => compare (side.key schema e) (side.key schema e') = .lt) ∧
      ∀ e, e ∈ edges ↔
        e ∈ (EdgeOp.runOps label s ops).held schema label ∧ side.Meets schema node e := by
  obtain ⟨hschema', E, I, hshape⟩ := EdgeOp.run_shaped hschema h hv ops (List.prefix_refl ops)
  obtain ⟨edges, hpages⟩ := listStored_pages side (Or.inl hschema') hshape hnode
  have hordered : (edges.map (side.key schema)).Pairwise fun a b => compare a b = .lt := by
    rw [hpages.keys]
    exact entries_keys_ordered side _
  have hids : (edges.map Edge.nanoid).Nodup := by
    refine List.Nodup.map_on ?_ (hpages.listsAll (entries_keys_nodup side _)).nodup
    intro e he e' he' hid
    exact seen_id_unique hshape side ((hpages.mem e).mp he) ((hpages.mem e').mp he') hid
  refine ⟨edges, hpages.drains hids, List.pairwise_map.mp hordered, fun e => ?_⟩
  rw [hpages.mem e]
  exact mem_seen_held hshape side

end Exactness

/-! ## A type with edges between three nodes -/

namespace Follows

local instance : External := .standIn

theorem twoPairs_listed : ∃ edges,
    (∀ limit, Drains (fun after => EdgeSide.outgoing.listStored
      (EdgeOp.runOps "follows" fresh twoPairs) "users:b" "follows" after limit) none edges) ∧
    edges.Pairwise (fun e e' => compare (EdgeSide.outgoing.key schema e)
      (EdgeSide.outgoing.key schema e') = .lt) ∧
    ∀ e, e ∈ edges ↔ e ∈ (EdgeOp.runOps "follows" fresh twoPairs).held schema "follows" ∧
      EdgeSide.outgoing.Meets schema "users:b" e := by
  refine listings_exact rfl ⟨∅, ∅, ?_⟩ twoPairs_valid .outgoing (by decide)
  exact Shape.empty

end Follows

end StellarDb
