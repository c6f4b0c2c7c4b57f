import StellarDb.Edges.Store

/-!
# StellarDb — the shape of an edge keyspace

The three redundant key families of an edge type describe a set of edges. `Shape` relates a
keyspace to the set `E` of edges its OUT (and IN) entries describe and to the set `I` of its id
entries:

* every link entry comes from an edge of `E`, and every edge of `E` has all its link entries;
* every edge of `E` is named by an id entry; an id entry that names no edge of `E` is *stale*.

Two lemmas say what the writes do to a shape, whatever came before: `Shape.create` and
`Shape.remove`. The read lemmas (`getData_out`, `getEnds_id`, `scanBetween_ok`) say what the
store finds in a keyspace of a given shape.
-/

namespace StellarDb

open Keyspaces

/-- No zero byte, as the separated keys need. -/
def NulFree (s : String) : Prop := (0 : UInt8) ∉ utf8 s

instance : DecidablePred NulFree := fun s => inferInstanceAs (Decidable ((0 : UInt8) ∉ utf8 s))

/-! ## Keys -/

section Keys

variable (schema : EdgeSchema)

theorem outKey_inj {s d i s' d' i' : String} (hs : NulFree s) (hs' : NulFree s') (hd : NulFree d)
    (hd' : NulFree d') :
    outKey schema s d i = outKey schema s' d' i' ↔
      s = s' ∧ d = d' ∧ (schema.cardinality = .multiple → i = i') := by
  unfold outKey
  cases schema.cardinality with
  | single =>
    simp only [encodeEdgeOutKeySingle, List.cons_append, List.cons.injEq, true_and,
      append_zero_inj hs hs', utf8_inj]
    simp
  | multiple =>
    simp only [encodeEdgeOutKeyMulti, List.cons_append, List.append_assoc, List.cons.injEq,
      true_and, append_zero_inj hs hs', append_zero_inj hd hd', utf8_inj]
    simp

theorem inKey_inj {s d i s' d' i' : String} (hs : NulFree s) (hs' : NulFree s') (hd : NulFree d)
    (hd' : NulFree d') :
    inKey schema s d i = inKey schema s' d' i' ↔
      s = s' ∧ d = d' ∧ (schema.cardinality = .multiple → i = i') := by
  unfold inKey
  cases schema.cardinality with
  | single =>
    simp only [encodeEdgeInKeySingle, List.cons_append, List.cons.injEq, true_and,
      append_zero_inj hs hs', utf8_inj]
    simp
  | multiple =>
    simp only [encodeEdgeInKeyMulti, List.cons_append, List.append_assoc, List.cons.injEq,
      true_and, append_zero_inj hs hs', append_zero_inj hd hd', utf8_inj]
    simp

theorem outKey_head (s d i : String) : (outKey schema s d i).head? = some edgePrefixOut := by
  unfold outKey
  cases schema.cardinality <;> rfl

theorem inKey_head (d s i : String) : (inKey schema d s i).head? = some edgePrefixIn := by
  unfold inKey
  cases schema.cardinality <;> rfl

theorem encodeEdgeIdKey_head (i : String) : (encodeEdgeIdKey i).head? = some edgePrefixId := rfl

theorem encodeEdgeIdKey_inj {i i' : String} :
    encodeEdgeIdKey i = encodeEdgeIdKey i' ↔ i = i' := by
  simp [encodeEdgeIdKey, utf8_inj]

theorem encodeEdgeIdValue_inj {s d s' d' : String} (hs : NulFree s) (hs' : NulFree s') :
    encodeEdgeIdValue s d = encodeEdgeIdValue s' d' ↔ s = s' ∧ d = d' := by
  simp only [encodeEdgeIdValue, append_zero_inj hs hs', utf8_inj]

end Keys

/-! ## Values -/

theorem decodeEdgeIdValue_encode {s : String} (hs : NulFree s) (d : String) :
    decodeEdgeIdValue (encodeEdgeIdValue s d) = some (s, d) := by
  have hmem : (0 : UInt8) ∈ utf8 s ++ 0 :: utf8 d := by simp
  unfold decodeEdgeIdValue encodeEdgeIdValue
  rw [if_pos hmem, takeWhile_zero_append hs, dropWhile_zero_append hs]
  simp [fromUtf8Lossy_utf8]

theorem deserialize_serialize {data : EdgeData} (h : NulFree data.id) :
    deserializeEdgeData (serializeEdgeData data) = .ok data := by
  unfold serializeEdgeData
  split
  · next hc =>
    -- the compact format drops what `is_compact` says is empty
    obtain ⟨id, createdAt, updatedAt, fields⟩ := data
    simp only [EdgeData.isCompact, Bool.and_eq_true, List.isEmpty_iff, decide_eq_true_eq] at hc
    obtain ⟨rfl, rfl⟩ := hc
    have hmem : (0 : UInt8) ∈ utf8 id ++ 0 :: leBytes 8 createdAt.toNat := by simp
    have hlen : (leBytes 8 createdAt.toNat).length = 8 := leBytes_length ..
    have htake : (leBytes 8 createdAt.toNat).take 8 = leBytes 8 createdAt.toNat :=
      List.take_of_length_le (le_of_eq hlen)
    have hstamp : BitVec.ofNat 64 (ofLeBytes (leBytes 8 createdAt.toNat)) = createdAt := by
      have hlt : createdAt.toNat < 256 ^ 8 := by simpa using createdAt.isLt
      rw [ofLeBytes_leBytes, Nat.mod_eq_of_lt hlt]
      simp
    show deserializeEdgeData (.bytes (edgeFormatCompact ::
      (utf8 id ++ 0 :: leBytes 8 createdAt.toNat))) = _
    rw [deserializeEdgeData, if_pos rfl, if_pos hmem]
    simp only [takeWhile_zero_append h, dropWhile_zero_append h, List.drop_one, List.tail_cons,
      htake, hlen, hstamp, fromUtf8Lossy_utf8, if_true]
  · rfl

/-- The label is stripped off again. -/
theorem nanoid_toEdge (data : EdgeData) (label src dst : String) :
    (data.toEdge label src dst).nanoid = data.id := by
  have hstrip : ∀ p s : String, stripPrefix p (p ++ s) = some s := by
    intro p s
    simp [stripPrefix]
  show ((stripPrefix label (label ++ ":" ++ data.id)).bind (stripPrefix ":")).getD _ = data.id
  rw [String.append_assoc, hstrip, Option.bind_some, hstrip, Option.getD_some]

theorem serializeEdgeData_inj {data data' : EdgeData} (h : NulFree data.id)
    (h' : NulFree data'.id) (heq : serializeEdgeData data = serializeEdgeData data') :
    data = data' := by
  have hd := deserialize_serialize h
  rw [heq, deserialize_serialize h'] at hd
  exact (Except.ok.inj hd).symm

/-! ## Edges and id entries -/

/-- An edge as the OUT entries store it. -/
structure StoredEdge where
  src : String
  dst : String
  data : EdgeData

/-- What an id entry says. -/
structure IdEntry where
  id : String
  src : String
  dst : String

/-- The id entry that belongs to an edge. -/
def StoredEdge.name (e : StoredEdge) : IdEntry := ⟨e.data.id, e.src, e.dst⟩

/-- The OUT entry and the reverse OUT or IN entry of an edge. -/
def StoredEdge.links (schema : EdgeSchema) (e : StoredEdge) : List (Bytes × EdgeEntry) :=
  [(outKey schema e.src e.dst e.data.id, serializeEdgeData e.data),
    (reverseKey schema e.src e.dst e.data.id,
      if schema.isUndirected then serializeEdgeData e.data else inValue schema e.data.id)]

def IdEntry.entry (x : IdEntry) : Bytes × EdgeEntry :=
  (encodeEdgeIdKey x.id, .bytes (encodeEdgeIdValue x.src x.dst))

/-- Zero-free, and in the order in which an undirected type stores its endpoints. -/
def Clean (schema : EdgeSchema) (x : IdEntry) : Prop :=
  NulFree x.src ∧ NulFree x.dst ∧ NulFree x.id ∧ normalize schema x.src x.dst = (x.src, x.dst)

/-- The edge has the link keys that an edge with this id entry would have. -/
def InSlot (schema : EdgeSchema) (x : IdEntry) (e : StoredEdge) : Prop :=
  e.src = x.src ∧ e.dst = x.dst ∧ (schema.cardinality = .multiple → e.data.id = x.id)

def IsLinkKey (k : Bytes) : Prop := k.head? = some edgePrefixOut ∨ k.head? = some edgePrefixIn

def IsIdKey (k : Bytes) : Prop := k.head? = some edgePrefixId

section Slots

variable {schema : EdgeSchema}

/-- Only the ordered orientation of a pair is stored by an undirected type. -/
theorem eq_of_normalize_both {s d : String} (hund : schema.isUndirected = true)
    (h : normalize schema s d = (s, d)) (h' : normalize schema d s = (d, s)) : s = d := by
  unfold normalize at h h'
  simp only [hund, Bool.true_and, decide_eq_true_eq] at h h'
  by_cases hgt : compare (utf8 s) (utf8 d) = .gt
  · rw [if_pos hgt] at h
    exact (Prod.mk.inj h).1.symm
  by_cases hgt' : compare (utf8 d) (utf8 s) = .gt
  · rw [if_pos hgt'] at h'
    exact (Prod.mk.inj h').1
  · have hswap : compare (utf8 s) (utf8 d) = (compare (utf8 d) (utf8 s)).swap :=
      Std.OrientedCmp.eq_swap
    have heq : compare (utf8 s) (utf8 d) = .eq := by
      cases hc : compare (utf8 d) (utf8 s) with
      | lt => rw [hc] at hswap; exact absurd hswap hgt
      | eq => rw [hc] at hswap; exact hswap
      | gt => exact absurd hc hgt'
    exact utf8_injective (Std.LawfulEqCmp.eq_of_compare heq)

/-- Either orientation is stored in the same order. -/
theorem normalize_swap {s d : String} (hund : schema.isUndirected = true)
    (h : normalize schema s d = (s, d)) : normalize schema d s = (s, d) := by
  by_cases hswap : (schema.isUndirected && compare (utf8 d) (utf8 s) = .gt) = true
  · exact if_pos hswap
  · have hn : normalize schema d s = (d, s) := if_neg hswap
    rw [hn, eq_of_normalize_both hund h hn]

theorem normalize_normalize (s d : String) :
    normalize schema (normalize schema s d).1 (normalize schema s d).2 = normalize schema s d := by
  by_cases hswap : (schema.isUndirected && compare (utf8 s) (utf8 d) = .gt) = true
  · have hn : normalize schema s d = (d, s) := if_pos hswap
    have hlt : compare (utf8 d) (utf8 s) = .lt := by
      simp only [Bool.and_eq_true, decide_eq_true_eq] at hswap
      exact Std.OrientedCmp.lt_of_gt hswap.2
    rw [hn]
    exact if_neg (by simp [hlt])
  · have hn : normalize schema s d = (s, d) := if_neg hswap
    rw [hn, hn]

/-- The link keys of a slot. -/
def slotKeys (schema : EdgeSchema) (x : IdEntry) : List Bytes :=
  [outKey schema x.src x.dst x.id, reverseKey schema x.src x.dst x.id]

theorem isLinkKey_of_mem_slotKeys {x : IdEntry} {k : Bytes} (h : k ∈ slotKeys schema x) :
    IsLinkKey k := by
  simp only [slotKeys, List.mem_cons, List.not_mem_nil, or_false] at h
  rcases h with rfl | rfl
  · exact Or.inl (outKey_head ..)
  · unfold reverseKey
    split
    · exact Or.inl (outKey_head ..)
    · exact Or.inr (inKey_head ..)

theorem mem_slotKeys_of_link {e : StoredEdge} {k : Bytes} {v : EdgeEntry}
    (h : (k, v) ∈ e.links schema) : k ∈ slotKeys schema e.name := by
  simp only [StoredEdge.links, List.mem_cons, Prod.mk.injEq, List.not_mem_nil, or_false] at h
  rcases h with ⟨rfl, -⟩ | ⟨rfl, -⟩
  · exact List.mem_cons_self ..
  · exact List.mem_cons_of_mem _ (List.mem_cons_self ..)

/-- Every link key of an edge has one value. -/
theorem link_value_unique {e : StoredEdge} {k : Bytes} {v v' : EdgeEntry}
    (h : (k, v) ∈ e.links schema) (h' : (k, v') ∈ e.links schema) : v = v' := by
  simp only [StoredEdge.links, List.mem_cons, Prod.mk.injEq, List.not_mem_nil, or_false] at h h'
  have hrev : outKey schema e.src e.dst e.data.id = reverseKey schema e.src e.dst e.data.id →
      schema.isUndirected = true := by
    intro heq
    by_contra hdir
    rw [reverseKey, if_neg hdir] at heq
    have hhead := congrArg List.head? heq
    rw [outKey_head, inKey_head] at hhead
    exact absurd hhead (by decide)
  rcases h with ⟨rfl, rfl⟩ | ⟨rfl, rfl⟩
  · rcases h' with ⟨-, rfl⟩ | ⟨hk, rfl⟩
    · rfl
    · rw [if_pos (hrev hk)]
  · rcases h' with ⟨hk, rfl⟩ | ⟨-, rfl⟩
    · rw [if_pos (hrev hk.symm)]
    · rfl

/-- An edge in the slot has the keys of the slot. -/
theorem slotKeys_eq_of_inSlot {x : IdEntry} {e : StoredEdge} (h : InSlot schema x e) :
    slotKeys schema e.name = slotKeys schema x := by
  obtain ⟨hs, hd, hi⟩ := h
  have hout : ∀ a b : String, outKey schema a b e.data.id = outKey schema a b x.id := by
    intro a b
    unfold outKey
    cases hc : schema.cardinality with
    | single => rfl
    | multiple => simp only [hi hc]
  have hin : ∀ a b : String, inKey schema a b e.data.id = inKey schema a b x.id := by
    intro a b
    unfold inKey
    cases hc : schema.cardinality with
    | single => rfl
    | multiple => simp only [hi hc]
  simp only [slotKeys, StoredEdge.name, reverseKey, hs, hd, hout, hin]

/-- Two clean slots that share a key are the same slot. -/
theorem inSlot_of_key {x : IdEntry} {e : StoredEdge} (hx : Clean schema x)
    (he : Clean schema e.name) {k : Bytes} (hk : k ∈ slotKeys schema x)
    (hke : k ∈ slotKeys schema e.name) : InSlot schema x e := by
  obtain ⟨hxs, hxd, -, hxn⟩ := hx
  obtain ⟨hes, hed, -, hen⟩ := he
  have hcross : ∀ a b i a' b' i', outKey schema a b i ≠ inKey schema a' b' i' := by
    intro a b i a' b' i' heq
    have hhead := congrArg List.head? heq
    rw [outKey_head, inKey_head] at hhead
    exact absurd hhead (by decide)
  simp only [slotKeys, List.mem_cons, List.not_mem_nil, or_false] at hk hke
  by_cases hund : schema.isUndirected = true
  · simp only [reverseKey, if_pos hund] at hk hke
    rcases hk with rfl | rfl <;> rcases hke with h | h
    · obtain ⟨h1, h2, h3⟩ := (outKey_inj schema hxs hes hxd hed).mp h
      exact ⟨h1.symm, h2.symm, fun hm => (h3 hm).symm⟩
    · -- the stored orientation of one is the reverse of the other: both ends agree
      obtain ⟨h1, h2, h3⟩ := (outKey_inj schema hxs hed hxd hes).mp h
      rw [h1, h2] at hxn
      have hsd := eq_of_normalize_both hund hen hxn
      exact ⟨hsd.trans h1.symm, hsd.symm.trans h2.symm, fun hm => (h3 hm).symm⟩
    · obtain ⟨h1, h2, h3⟩ := (outKey_inj schema hxd hes hxs hed).mp h
      rw [h1, h2] at hxn
      have hsd := eq_of_normalize_both hund hen hxn
      exact ⟨hsd.trans h2.symm, hsd.symm.trans h1.symm, fun hm => (h3 hm).symm⟩
    · obtain ⟨h1, h2, h3⟩ := (outKey_inj schema hxd hed hxs hes).mp h
      exact ⟨h2.symm, h1.symm, fun hm => (h3 hm).symm⟩
  · simp only [reverseKey, if_neg hund] at hk hke
    rcases hk with rfl | rfl <;> rcases hke with h | h
    · obtain ⟨h1, h2, h3⟩ := (outKey_inj schema hxs hes hxd hed).mp h
      exact ⟨h1.symm, h2.symm, fun hm => (h3 hm).symm⟩
    · exact (hcross _ _ _ _ _ _ h).elim
    · exact (hcross _ _ _ _ _ _ h.symm).elim
    · obtain ⟨h1, h2, h3⟩ := (inKey_inj schema hxd hed hxs hes).mp h
      exact ⟨h2.symm, h1.symm, fun hm => (h3 hm).symm⟩

end Slots

/-! ## Shapes -/

/-- The keyspace stores the links of the edges `E` and the id entries `I`, and nothing else
under the OUT, IN and ID prefixes; every edge has its id entry. -/
structure Shape (schema : EdgeSchema) (ks : Keyspace EdgeEntry) (E : Set StoredEdge)
    (I : Set IdEntry) : Prop where
  clean : ∀ x ∈ I, Clean schema x
  named : ∀ e ∈ E, e.name ∈ I
  links : ∀ (k : Bytes) (v : EdgeEntry), IsLinkKey k →
    (ks[k]? = some v ↔ ∃ e ∈ E, (k, v) ∈ e.links schema)
  ids : ∀ (k : Bytes) (v : EdgeEntry), IsIdKey k → (ks[k]? = some v ↔ ∃ x ∈ I, (k, v) = x.entry)

namespace Shape

variable {schema : EdgeSchema} {ks : Keyspace EdgeEntry} {E : Set StoredEdge} {I : Set IdEntry}

theorem empty : Shape schema ∅ ∅ ∅ where
  clean := by simp
  named := by simp
  links := by simp
  ids := by simp

/-- A shape does not see the field index entries. -/
theorem congr (h : Shape schema ks E I) {ks' : Keyspace EdgeEntry}
    (hks : ∀ k : Bytes, k.head? ≠ some edgePrefixIdx → ks'[k]? = ks[k]?) :
    Shape schema ks' E I where
  clean := h.clean
  named := h.named
  links := by
    intro k v hk
    have hne : k.head? ≠ some edgePrefixIdx := by
      rcases hk with hk | hk <;> rw [hk] <;> decide
    rw [hks k hne]
    exact h.links k v hk
  ids := by
    intro k v hk
    have hne : k.head? ≠ some edgePrefixIdx := by
      rw [show k.head? = some edgePrefixId from hk]
      decide
    rw [hks k hne]
    exact h.ids k v hk

theorem get_out (h : Shape schema ks E I) {e : StoredEdge} (he : e ∈ E) :
    ks[outKey schema e.src e.dst e.data.id]? = some (serializeEdgeData e.data) :=
  (h.links _ _ (Or.inl (outKey_head ..))).mpr ⟨e, he, List.mem_cons_self ..⟩

theorem get_id (h : Shape schema ks E I) {x : IdEntry} (hx : x ∈ I) :
    ks[encodeEdgeIdKey x.id]? = some (.bytes (encodeEdgeIdValue x.src x.dst)) :=
  (h.ids _ _ (encodeEdgeIdKey_head x.id)).mpr ⟨x, hx, rfl⟩

/-- An id has at most one entry. -/
theorem id_unique (h : Shape schema ks E I) {x y : IdEntry} (hx : x ∈ I) (hy : y ∈ I)
    (hid : x.id = y.id) : x = y := by
  have hval := h.get_id hx
  rw [hid, h.get_id hy] at hval
  have hbytes := EdgeEntry.bytes.inj (Option.some.inj hval)
  obtain ⟨h1, h2⟩ := (encodeEdgeIdValue_inj (h.clean y hy).1 (h.clean x hx).1).mp hbytes
  cases x
  cases y
  simp_all

/-- A slot has at most one edge. -/
theorem slot_unique (h : Shape schema ks E I) {e e' : StoredEdge} (he : e ∈ E) (he' : e' ∈ E)
    (hslot : InSlot schema e.name e') : e' = e := by
  have hkeys := slotKeys_eq_of_inSlot hslot
  have hout : outKey schema e'.src e'.dst e'.data.id = outKey schema e.src e.dst e.data.id :=
    (List.cons.inj hkeys).1
  have hval := h.get_out he'
  rw [hout, h.get_out he] at hval
  have hdata := serializeEdgeData_inj (h.clean _ (h.named e he)).2.2.1
    (h.clean _ (h.named e' he')).2.2.1 (Option.some.inj hval)
  obtain ⟨hs, hd, -⟩ := hslot
  cases e
  cases e'
  simp_all [StoredEdge.name]

theorem clean_of_mem (h : Shape schema ks E I) {e : StoredEdge} (he : e ∈ E) :
    Clean schema e.name := h.clean _ (h.named e he)

end Shape

/-- The writes of a new edge, seen under one key. -/
theorem getElem?_insertEdgeKeys (schema : EdgeSchema) (ks : Keyspace EdgeEntry) (e : StoredEdge)
    (k : Bytes) :
    (ks.applyWrites (insertEdgeKeys schema e.src e.dst e.data))[k]? =
      if encodeEdgeIdKey e.data.id = k then some (e.name.entry).2
      else if reverseKey schema e.src e.dst e.data.id = k then
        some (if schema.isUndirected then serializeEdgeData e.data else inValue schema e.data.id)
      else if outKey schema e.src e.dst e.data.id = k then some (serializeEdgeData e.data)
      else ks[k]? := by
  simp only [insertEdgeKeys, Keyspace.applyWrites_cons, Keyspace.applyWrites_nil,
    Keyspace.getElem?_write]
  rfl

/-- The removals of an edge, seen under one key. -/
theorem getElem?_deleteEdgeKeysInTx (schema : EdgeSchema) (ks : Keyspace EdgeEntry) (x : IdEntry)
    (k : Bytes) :
    (ks.applyWrites (deleteEdgeKeysInTx schema x.src x.dst x.id))[k]? =
      if k = encodeEdgeIdKey x.id ∨ k ∈ slotKeys schema x then none else ks[k]? := by
  simp only [deleteEdgeKeysInTx, Keyspace.applyWrites_cons, Keyspace.applyWrites_nil,
    Keyspace.getElem?_write, slotKeys, List.mem_cons, List.not_mem_nil, or_false]
  grind

theorem idKey_ne_of_isLinkKey {k : Bytes} (hk : IsLinkKey k) (i : String) :
    encodeEdgeIdKey i ≠ k := by
  rintro rfl
  rcases hk with hk | hk <;> exact absurd hk (by simp [encodeEdgeIdKey_head]; decide)

theorem notMem_slotKeys_of_isIdKey (schema : EdgeSchema) {k : Bytes} (hk : IsIdKey k)
    (x : IdEntry) : k ∉ slotKeys schema x := by
  intro hmem
  rcases isLinkKey_of_mem_slotKeys hmem with h | h <;>
    · rw [show k.head? = some edgePrefixId from hk] at h
      exact absurd h (by decide)

namespace Shape

variable {schema : EdgeSchema} {ks : Keyspace EdgeEntry} {E : Set StoredEdge} {I : Set IdEntry}

/-- A new edge takes the place of what was in its slot; the id entry of that one stays. -/
theorem create (h : Shape schema ks E I) {e : StoredEdge} (he : Clean schema e.name)
    (hfresh : ks[encodeEdgeIdKey e.data.id]? = none) :
    Shape schema (ks.applyWrites (insertEdgeKeys schema e.src e.dst e.data))
      (insert e {e' ∈ E | ¬ InSlot schema e.name e'}) (insert e.name I) where
  clean := by
    rintro x (rfl | hx)
    · exact he
    · exact h.clean x hx
  named := by
    rintro e' (rfl | ⟨he', -⟩)
    · exact Set.mem_insert ..
    · exact Set.mem_insert_of_mem _ (h.named e' he')
  links := by
    intro k v hk
    -- under a key of the slot the new edge is found, elsewhere what was there
    have hread : (ks.applyWrites (insertEdgeKeys schema e.src e.dst e.data))[k]? = some v ↔
        (k, v) ∈ e.links schema ∨ k ∉ slotKeys schema e.name ∧ ks[k]? = some v := by
      rw [getElem?_insertEdgeKeys, if_neg (idKey_ne_of_isLinkKey hk _)]
      by_cases hslot : k ∈ slotKeys schema e.name
      · have hval : ∃ v', (k, v') ∈ e.links schema ∧
            (if reverseKey schema e.src e.dst e.data.id = k then
              some (if schema.isUndirected then serializeEdgeData e.data
                else inValue schema e.data.id)
            else if outKey schema e.src e.dst e.data.id = k then some (serializeEdgeData e.data)
            else ks[k]?) = some v' := by
          simp only [slotKeys, StoredEdge.name, List.mem_cons, List.not_mem_nil, or_false] at hslot
          by_cases hrev : reverseKey schema e.src e.dst e.data.id = k
          · exact ⟨_, hrev ▸ List.mem_cons_of_mem _ (List.mem_cons_self ..), if_pos hrev⟩
          · have hout : outKey schema e.src e.dst e.data.id = k :=
              (hslot.resolve_right (fun h => hrev h.symm)).symm
            have hlink : (k, serializeEdgeData e.data) ∈ e.links schema := by
              rw [← hout]
              exact List.mem_cons_self ..
            refine ⟨_, hlink, ?_⟩
            rw [if_neg hrev, if_pos hout]
        obtain ⟨v', hv', hif⟩ := hval
        rw [hif]
        constructor
        · intro hv
          exact Or.inl (Option.some.inj hv ▸ hv')
        · rintro (hv | ⟨hno, -⟩)
          · rw [link_value_unique hv' hv]
          · exact absurd hslot hno
      · have hne : reverseKey schema e.src e.dst e.data.id ≠ k ∧
            outKey schema e.src e.dst e.data.id ≠ k := by
          simp only [slotKeys, StoredEdge.name, List.mem_cons, List.not_mem_nil, or_false,
            not_or] at hslot
          exact ⟨fun h => hslot.2 h.symm, fun h => hslot.1 h.symm⟩
        rw [if_neg hne.1, if_neg hne.2]
        constructor
        · exact fun hv => Or.inr ⟨hslot, hv⟩
        · rintro (hv | ⟨-, hv⟩)
          · exact absurd (mem_slotKeys_of_link hv) hslot
          · exact hv
    rw [hread]
    constructor
    · rintro (hv | ⟨hno, hv⟩)
      · exact ⟨e, Set.mem_insert .., hv⟩
      · obtain ⟨e', he', hlink⟩ := (h.links k v hk).mp hv
        refine ⟨e', Set.mem_insert_of_mem _ ⟨he', ?_⟩, hlink⟩
        intro hslot
        exact hno (slotKeys_eq_of_inSlot hslot ▸ mem_slotKeys_of_link hlink)
    · rintro ⟨e', rfl | ⟨he', hslot⟩, hlink⟩
      · exact Or.inl hlink
      · refine Or.inr ⟨?_, (h.links k v hk).mpr ⟨e', he', hlink⟩⟩
        intro hmem
        exact hslot (inSlot_of_key he (h.clean_of_mem he') hmem (mem_slotKeys_of_link hlink))
  ids := by
    intro k v hk
    have hslot := notMem_slotKeys_of_isIdKey schema hk e.name
    have hne : reverseKey schema e.src e.dst e.data.id ≠ k ∧
        outKey schema e.src e.dst e.data.id ≠ k := by
      simp only [slotKeys, StoredEdge.name, List.mem_cons, List.not_mem_nil, or_false,
        not_or] at hslot
      exact ⟨fun h => hslot.2 h.symm, fun h => hslot.1 h.symm⟩
    rw [getElem?_insertEdgeKeys, if_neg hne.1, if_neg hne.2]
    by_cases hid : encodeEdgeIdKey e.data.id = k
    · subst hid
      rw [if_pos rfl]
      constructor
      · intro hv
        exact ⟨e.name, Set.mem_insert .., by rw [← Option.some.inj hv]; rfl⟩
      · rintro ⟨x, rfl | hx, heq⟩
        · rw [(Prod.mk.inj heq).2]
          rfl
        · -- the id is fresh
          have hget := (h.ids _ v hk).mpr ⟨x, hx, heq⟩
          rw [hfresh] at hget
          cases hget
    · rw [if_neg hid, h.ids k v hk]
      constructor
      · rintro ⟨x, hx, heq⟩
        exact ⟨x, Set.mem_insert_of_mem _ hx, heq⟩
      · rintro ⟨x, rfl | hx, heq⟩
        · exact absurd (Prod.mk.inj heq).1.symm hid
        · exact ⟨x, hx, heq⟩

/-- Removing the keys of a slot removes its edge, and the id entry. -/
theorem remove (h : Shape schema ks E I) {x : IdEntry} (hx : Clean schema x)
    (hid : ∀ e ∈ E, e.data.id = x.id → InSlot schema x e) :
    Shape schema (ks.applyWrites (deleteEdgeKeysInTx schema x.src x.dst x.id))
      {e ∈ E | ¬ InSlot schema x e} {y ∈ I | y.id ≠ x.id} where
  clean := fun y hy => h.clean y hy.1
  named := by
    rintro e ⟨he, hslot⟩
    exact ⟨h.named e he, fun heq => hslot (hid e he heq)⟩
  links := by
    intro k v hk
    have hne : k ≠ encodeEdgeIdKey x.id := fun heq => idKey_ne_of_isLinkKey hk _ heq.symm
    rw [getElem?_deleteEdgeKeysInTx]
    by_cases hslot : k ∈ slotKeys schema x
    · rw [if_pos (Or.inr hslot)]
      refine iff_of_false (by simp) ?_
      rintro ⟨e, ⟨he, hno⟩, hlink⟩
      exact hno (inSlot_of_key hx (h.clean_of_mem he) hslot (mem_slotKeys_of_link hlink))
    · rw [if_neg (not_or.mpr ⟨hne, hslot⟩), h.links k v hk]
      constructor
      · rintro ⟨e, he, hlink⟩
        refine ⟨e, ⟨he, ?_⟩, hlink⟩
        intro hin
        exact hslot (slotKeys_eq_of_inSlot hin ▸ mem_slotKeys_of_link hlink)
      · rintro ⟨e, ⟨he, -⟩, hlink⟩
        exact ⟨e, he, hlink⟩
  ids := by
    intro k v hk
    have hslot := notMem_slotKeys_of_isIdKey schema hk x
    rw [getElem?_deleteEdgeKeysInTx]
    by_cases hkid : k = encodeEdgeIdKey x.id
    · rw [if_pos (Or.inl hkid)]
      refine iff_of_false (by simp) ?_
      rintro ⟨y, ⟨-, hy⟩, heq⟩
      have hkey : encodeEdgeIdKey x.id = encodeEdgeIdKey y.id :=
        hkid.symm.trans (Prod.mk.inj heq).1
      exact hy (encodeEdgeIdKey_inj.mp hkey).symm
    · rw [if_neg (not_or.mpr ⟨hkid, hslot⟩), h.ids k v hk]
      constructor
      · rintro ⟨y, hy, heq⟩
        refine ⟨y, ⟨hy, ?_⟩, heq⟩
        intro hyid
        exact hkid (by rw [(Prod.mk.inj heq).1, hyid])
      · rintro ⟨y, ⟨hy, -⟩, heq⟩
        exact ⟨y, hy, heq⟩

end Shape

/-! ## Reads -/

/-- A traversal none of whose steps fails collects exactly the results. -/
theorem exists_mapM_ok {α β ε : Type} {f : α → Except ε β} {l : List α}
    (h : ∀ a ∈ l, ∃ b, f a = .ok b) :
    ∃ bs, l.mapM f = .ok bs ∧ ∀ b, b ∈ bs ↔ ∃ a ∈ l, f a = .ok b := by
  induction l with
  | nil => exact ⟨[], rfl, by simp⟩
  | cons a l ih =>
    rw [List.forall_mem_cons] at h
    obtain ⟨b, hb⟩ := h.1
    obtain ⟨bs, hbs, hmem⟩ := ih h.2
    refine ⟨b :: bs, ?_, ?_⟩
    · rw [List.mapM_cons, hb, hbs]
      rfl
    · intro b'
      simp [hmem, hb, eq_comm]

/-- No step of a traversal that succeeds fails. -/
theorem ok_of_mapM_ok {α β ε : Type} {f : α → Except ε β} {l : List α} {bs : List β}
    (h : l.mapM f = .ok bs) : ∀ a ∈ l, ∃ b, f a = .ok b := by
  induction l generalizing bs with
  | nil => exact fun a ha => absurd ha List.not_mem_nil
  | cons a l ih =>
    rw [List.mapM_cons] at h
    cases hf : f a with
    | error e =>
      rw [hf] at h
      cases h
    | ok b =>
      cases hl : l.mapM f with
      | error e =>
        rw [hf, hl] at h
        cases h
      | ok bs' => exact List.forall_mem_cons.mpr ⟨⟨b, hf⟩, ih hl⟩

/-- The parts of an OUT key of a `Multiple` type. -/
theorem outKey_multiple_inj {schema : EdgeSchema} (hm : schema.cardinality = .multiple)
    {s d a b i : String} {rest : Bytes} (hs : NulFree s) (hd : NulFree d) (ha : NulFree a)
    (hb : NulFree b)
    (h : edgePrefixOut :: utf8 s ++ 0x00 :: utf8 d ++ [0] ++ rest = outKey schema a b i) :
    s = a ∧ d = b ∧ rest = utf8 i := by
  simp only [outKey, hm, encodeEdgeOutKeyMulti, List.cons_append, List.append_assoc,
    List.nil_append, List.cons.injEq, true_and, append_zero_inj hs ha, append_zero_inj hd hb,
    utf8_inj] at h
  exact h

namespace Shape

variable {schema : EdgeSchema} {ks : Keyspace EdgeEntry} {E : Set StoredEdge} {I : Set IdEntry}

/-- What is found under an OUT key is the data of the edge in its slot. -/
theorem mem_of_out (h : Shape schema ks E I) {x : IdEntry} (hx : Clean schema x) {v : EdgeEntry}
    (hv : ks[outKey schema x.src x.dst x.id]? = some v) :
    ∃ e ∈ E, InSlot schema x e ∧ v = serializeEdgeData e.data := by
  obtain ⟨e, he, hlink⟩ := (h.links _ v (Or.inl (outKey_head ..))).mp hv
  have hslot := inSlot_of_key hx (h.clean_of_mem he) (List.mem_cons_self ..)
    (mem_slotKeys_of_link hlink)
  have hkey : outKey schema e.src e.dst e.data.id = outKey schema x.src x.dst x.id :=
    (List.cons.inj (slotKeys_eq_of_inSlot hslot)).1
  refine ⟨e, he, hslot, link_value_unique hlink ?_⟩
  rw [← hkey]
  exact List.mem_cons_self ..

theorem getData_out (h : Shape schema ks E I) {x : IdEntry} (hx : Clean schema x) :
    (∃ e ∈ E, InSlot schema x e ∧
      EdgeStore.getData ks (outKey schema x.src x.dst x.id) = .ok (some e.data)) ∨
    ((∀ e ∈ E, ¬ InSlot schema x e) ∧
      EdgeStore.getData ks (outKey schema x.src x.dst x.id) = .ok none) := by
  unfold EdgeStore.getData
  cases hv : ks[outKey schema x.src x.dst x.id]? with
  | none =>
    refine Or.inr ⟨?_, rfl⟩
    intro e he hslot
    have hget := h.get_out he
    have hkey : outKey schema e.src e.dst e.data.id = outKey schema x.src x.dst x.id :=
      (List.cons.inj (slotKeys_eq_of_inSlot hslot)).1
    rw [hkey, hv] at hget
    cases hget
  | some v =>
    obtain ⟨e, he, hslot, rfl⟩ := h.mem_of_out hx hv
    refine Or.inl ⟨e, he, hslot, ?_⟩
    simp only [deserialize_serialize (h.clean_of_mem he).2.2.1]
    rfl

theorem getEnds_id (h : Shape schema ks E I) (i : String) :
    (∃ x ∈ I, x.id = i ∧ EdgeStore.getEnds ks i = .ok (some (x.src, x.dst))) ∨
    ((∀ x ∈ I, x.id ≠ i) ∧ EdgeStore.getEnds ks i = .ok none) := by
  unfold EdgeStore.getEnds
  cases hv : ks[encodeEdgeIdKey i]? with
  | none =>
    refine Or.inr ⟨?_, rfl⟩
    rintro x hx rfl
    rw [h.get_id hx] at hv
    cases hv
  | some v =>
    obtain ⟨x, hx, heq⟩ := (h.ids _ v (encodeEdgeIdKey_head i)).mp hv
    obtain ⟨hkey, rfl⟩ := Prod.mk.inj heq
    refine Or.inl ⟨x, hx, (encodeEdgeIdKey_inj.mp hkey).symm, ?_⟩
    simp only [decodeEdgeIdValue_encode (h.clean x hx).1]

/-- The scan between two nodes of a `Multiple` type finds the data of the edges between them. -/
theorem scanBetween_ok (h : Shape schema ks E I) (hm : schema.cardinality = .multiple)
    {s d : String} (hs : NulFree s) (hd : NulFree d) (hn : normalize schema s d = (s, d)) :
    ∃ datas, EdgeStore.scanBetween ks s d = .ok datas ∧
      ∀ data, data ∈ datas ↔ (⟨s, d, data⟩ : StoredEdge) ∈ E := by
  have hfront : ∀ k v, (k, v) ∈ Keyspace.range ks (encodeEdgeOutTargetPrefix s d)
      (encodeEdgeOutTargetPrefixEnd s d) → ∃ data, (⟨s, d, data⟩ : StoredEdge) ∈ E ∧
        v = serializeEdgeData data := by
    intro k v hkv
    obtain ⟨hget, hrange⟩ := mem_range.mp hkv
    obtain ⟨rest, rfl⟩ := (inRange_sep_iff (edgePrefixOut :: utf8 s ++ 0x00 :: utf8 d) k).mp hrange
    have hlinkKey : IsLinkKey ((edgePrefixOut :: utf8 s ++ 0x00 :: utf8 d) ++ [0] ++ rest) :=
      Or.inl rfl
    obtain ⟨e, he, hlink⟩ := (h.links _ v hlinkKey).mp hget
    obtain ⟨hes, hed, -, hen⟩ := h.clean_of_mem he
    simp only [StoredEdge.links, List.mem_cons, Prod.mk.injEq, List.not_mem_nil, or_false] at hlink
    rcases hlink with ⟨hk, rfl⟩ | ⟨hk, hv⟩
    · obtain ⟨rfl, rfl, -⟩ := outKey_multiple_inj hm hs hd hes hed hk
      exact ⟨e.data, he, rfl⟩
    · by_cases hund : schema.isUndirected = true
      · -- the other orientation lies in the range for a loop only
        rw [reverseKey, if_pos hund] at hk
        obtain ⟨rfl, rfl, -⟩ := outKey_multiple_inj hm hs hd hed hes hk
        have hloop : e.src = e.dst := eq_of_normalize_both hund hen hn
        rw [if_pos hund] at hv
        have heq : (⟨e.dst, e.src, e.data⟩ : StoredEdge) = e := by
          obtain ⟨es, ed, edata⟩ := e
          have hloop' : es = ed := hloop
          rw [hloop']
        exact ⟨e.data, heq.symm ▸ he, hv⟩
      · rw [reverseKey, if_neg hund] at hk
        have hhead := congrArg List.head? hk
        rw [inKey_head] at hhead
        exact absurd hhead (by simp; decide)
  have hall : ∀ e ∈ Keyspace.range ks (encodeEdgeOutTargetPrefix s d)
      (encodeEdgeOutTargetPrefixEnd s d), ∃ data, deserializeEdgeData e.2 = .ok data := by
    rintro ⟨k, v⟩ hkv
    obtain ⟨data, he, rfl⟩ := hfront k v hkv
    exact ⟨data, deserialize_serialize (h.clean_of_mem he).2.2.1⟩
  obtain ⟨datas, hdatas, hmem⟩ := exists_mapM_ok hall
  refine ⟨datas, hdatas, ?_⟩
  intro data
  rw [hmem]
  constructor
  · rintro ⟨⟨k, v⟩, hkv, hdes⟩
    obtain ⟨data', he, rfl⟩ := hfront k v hkv
    rw [deserialize_serialize (h.clean_of_mem he).2.2.1] at hdes
    rw [← Except.ok.inj hdes]
    exact he
  · intro he
    have hget := h.get_out he
    refine ⟨(_, _), mem_range.mpr ⟨hget, ?_⟩, deserialize_serialize (h.clean_of_mem he).2.2.1⟩
    refine (inRange_sep_iff (edgePrefixOut :: utf8 s ++ 0x00 :: utf8 d) _).mpr ⟨utf8 data.id, ?_⟩
    simp [hm, encodeEdgeOutKeyMulti]

end Shape

end StellarDb
