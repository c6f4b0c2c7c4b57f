import StellarDb.Edges.Listing
import StellarDb.Encoding.Tags
import StellarDb.Indexes.Lookup

/-!
# StellarDb — edges by field value

`query_by_field` walks the index entries of a field and a value, reads the edge id behind the
last zero byte of each key and asks `get_by_id` for the edge. Of the writing operations `create`
and the two direct deletes keep the entries; `create_in_tx` and `delete_in_tx` do not. An entry
left behind is harmless while its id is unknown, but under `Single` cardinality the id entry of
an edge that was replaced leads to the new edge, so the entry then answers with an edge that has
another value.

`queries_exact`: in every run where no edge with an indexed scalar is created in a transaction and
no create finds an id entry for its pair whose edge is still indexed, each query answers with the
stored edges whose field equals the value, each once.
-/

namespace StellarDb

open Keyspaces Runs

/-! ## The query -/

/-- Field index value prefix: `0x04|field|0|encoded_value|0` -/
def encodeEdgeFieldIndexValuePrefix [External] (field : String) (value : Value) : Bytes :=
  edgePrefixIdx :: utf8 field ++ 0x00 :: encodeValueOrdered value ++ [0x00]

/-- The prefix with its last byte replaced. -/
def fieldIndexPrefixEnd (front : Bytes) : Bytes :=
  match front.getLast? with
  | some _ => front.dropLast ++ [0x01]
  | none => front

/-- The part of a key behind its last zero byte. -/
def extractEdgeIdFromIndexKey (key : Bytes) : Option String :=
  (key.splitOn 0).getLast?.map fromUtf8Lossy

namespace EdgeStore

def notIndexed (field label : String) : StorageError :=
  .invalidOperation ("Field '" ++ field ++ "' is not indexed on edge type '" ++ label ++ "'")

/-- The loop of `query_by_field`: entries whose edge is not found are passed over. -/
def edgesOfEntries (s : EdgeStore) (label : String) :
    List (Bytes × EdgeEntry) → Except StorageError (List Edge)
  | [] => .ok []
  | (key, _) :: rest =>
    match extractEdgeIdFromIndexKey (key.drop 1) with
    | none => s.edgesOfEntries label rest
    | some edgeId =>
      match s.getById label edgeId with
      | .error e => .error e
      | .ok none => s.edgesOfEntries label rest
      | .ok (some edge) => (s.edgesOfEntries label rest).map (edge :: ·)

/-- Query edges by field value. -/
def queryByField [External] (s : EdgeStore) (label field : String) (value : Value) :
    Except StorageError (List Edge) :=
  match s.getSchema label with
  | none => .error (notDefined label)
  | some schema =>
    if !(schema.indexes.any fun index => index.contains field) then
      .error (notIndexed field label)
    else
      let front := encodeEdgeFieldIndexValuePrefix field value
      s.edgesOfEntries label ((s.keyspaces label).range front (fieldIndexPrefixEnd front))

end EdgeStore

/-! ## Encodings of scalars -/

/-- The kinds of value a query is made with. -/
def Value.IsScalar : Value → Prop
  | .null | .bool _ | .int _ | .string _ | .reference _ => True
  | _ => False

section Encodings

variable [External]

/-- No encoding of a scalar, with what follows it, is the front of another encoding. -/
theorem scalar_front {v w : Value} (hv : v.IsScalar) {x y : Bytes}
    (h : encodeValueOrdered v ++ x = encodeValueOrdered w ++ y) :
    encodeValueOrdered v = encodeValueOrdered w := by
  have htag := tagByte_eq_of_append_eq h
  have hnumber : tagByte v = tagNumber → encodeValueOrdered v = encodeValueOrdered w := by
    intro hnum
    have hlen : (encodeValueOrdered v).length = (encodeValueOrdered w).length := by
      rw [number_length hnum, number_length (htag.symm.trans hnum)]
    exact List.append_inj_left h hlen
  cases v with
  | null =>
    cases w with
    | null => rfl
    | _ => exact absurd htag (by simp only [tagByte]; decide)
  | bool a =>
    cases w with
    | bool b =>
      simp only [encodeValueOrdered, List.cons_append, List.nil_append, List.cons.injEq] at h ⊢
      exact ⟨trivial, h.2.1, trivial⟩
    | _ => exact absurd htag (by simp only [tagByte]; decide)
  | int n => exact hnumber rfl
  | string text => exact text_front rfl h
  | reference text => exact text_front rfl h
  | _ => exact hv.elim

variable [Numerics]

/-- The value is encoded like an integer exactly if it equals it. -/
def EncodesAsEqual (w : Value) : Prop :=
  ∀ n : Int64, encodeValueOrdered w = encodeValueOrdered (.int n) ↔
    valuesEqual w (.int n) = true

omit [External] in
theorem valuesEqual_int (a b : Int64) : valuesEqual (.int a) (.int b) = true ↔ a = b := by
  show decide ((Decimal.ofInt64 a).toRat = (Decimal.ofInt64 b).toRat) = true ↔ a = b
  rw [decide_eq_true_iff, Decimal.toRat_ofInt64, Decimal.toRat_ofInt64, Int.cast_inj,
    Int64.toInt_inj]

omit [Numerics] in
theorem encode_int_inj {a b : Int64}
    (h : encodeValueOrdered (.int a) = encodeValueOrdered (.int b)) : a = b := by
  rw [encodeValueOrdered, encodeValueOrdered] at h
  have hcmp := compare_encodeI64FixedWidth (natAbs_lt_of_int64 a) (natAbs_lt_of_int64 b)
  rw [(List.cons.inj h).2, compare_bytes_self] at hcmp
  exact Int64.toInt_inj.mp (compare_eq_iff_eq.mp hcmp.symm)

/-- For a scalar the encodings agree exactly if the values are equal. -/
theorem encodes_iff {v w : Value} (hv : v.IsScalar) (hw : EncodesAsEqual w) :
    encodeValueOrdered w = encodeValueOrdered v ↔ valuesEqual w v = true := by
  have htags : encodeValueOrdered w = encodeValueOrdered v → tagByte w = tagByte v := by
    intro h
    have hhead := congrArg List.head? h
    rw [head_encodeValueOrdered, head_encodeValueOrdered] at hhead
    exact Option.some.inj hhead
  have htext : ∀ a b : String, tagString :: escapeNul (utf8 a) = tagString :: escapeNul (utf8 b) ↔
      a = b := by
    intro a b
    refine ⟨fun h => ?_, fun h => by rw [h]⟩
    by_contra hab
    have hcmp := compare_escapeNul (fun heq => hab (utf8_injective heq)) [] []
    rw [(List.cons.inj h).2, compare_bytes_self] at hcmp
    exact hab (utf8_injective (Std.LawfulEqCmp.eq_of_compare hcmp.symm))
  cases v with
  | null =>
    cases w with
    | null => simp [valuesEqual, Value.asDecimal]
    | _ =>
      refine iff_of_false (fun h => absurd (htags h) (by simp only [tagByte]; decide)) ?_
      simp [valuesEqual, Value.asDecimal]
  | bool b =>
    cases w with
    | bool a => cases a <;> cases b <;> simp [encodeValueOrdered, valuesEqual, Value.asDecimal]
    | _ =>
      refine iff_of_false (fun h => absurd (htags h) (by simp only [tagByte]; decide)) ?_
      simp [valuesEqual, Value.asDecimal]
  | int n => exact hw n
  | string b =>
    cases w with
    | string a => simp [encodeValueOrdered, htext, valuesEqual, Value.asDecimal]
    | reference a => simp [encodeValueOrdered, htext, valuesEqual, Value.asDecimal]
    | _ =>
      refine iff_of_false (fun h => absurd (htags h) (by simp only [tagByte]; decide)) ?_
      simp [valuesEqual, Value.asDecimal]
  | reference b =>
    cases w with
    | string a =>
      simp only [encodeValueOrdered, htext, valuesEqual, Value.asDecimal, beq_iff_eq]
      exact eq_comm
    | reference a => simp [encodeValueOrdered, htext, valuesEqual, Value.asDecimal]
    | _ =>
      refine iff_of_false (fun h => absurd (htags h) (by simp only [tagByte]; decide)) ?_
      simp [valuesEqual, Value.asDecimal]
  | _ => exact hv.elim

/-- Only doubles and decimals can be encoded like an integer they do not equal, or unlike one
they equal. -/
theorem encodesAsEqual_of_kind {w : Value} (h : ∀ f, w ≠ .float f) (h' : ∀ d, w ≠ .decimal d) :
    EncodesAsEqual w := by
  intro n
  cases w with
  | int m =>
    rw [valuesEqual_int]
    exact ⟨encode_int_inj, fun heq => by rw [heq]⟩
  | float f => exact absurd rfl (h f)
  | decimal d => exact absurd rfl (h' d)
  | _ =>
    refine iff_of_false (fun heq => ?_) (by simp [valuesEqual, Value.asDecimal])
    have hhead := congrArg List.head? heq
    rw [head_encodeValueOrdered, head_encodeValueOrdered] at hhead
    exact absurd (Option.some.inj hhead) (by simp only [tagByte]; decide)

end Encodings

/-! ## Index keys -/

/-- All indexed fields. -/
def EdgeSchema.indexedFields (schema : EdgeSchema) : List String := schema.indexes.flatten

/-- No indexed field begins with another one and a zero byte. -/
def FieldsApart (schema : EdgeSchema) : Prop :=
  ∀ f ∈ schema.indexedFields, ∀ g ∈ schema.indexedFields, ¬ (utf8 f ++ [0]) <+: utf8 g

/-- Of two fronts ended by one separator that agree, one with its separator begins the other,
unless they are equal. -/
theorem fronts_agree {a b x y : Bytes} (h : a ++ [0] ++ x = b ++ [0] ++ y) :
    a = b ∨ (a ++ [0]) <+: b ∨ (b ++ [0]) <+: a := by
  have hb : b <+: a ++ [0] ++ x := ⟨[0] ++ y, by rw [h, List.append_assoc]⟩
  have ha : a <+: b ++ [0] ++ y := ⟨[0] ++ x, by rw [← h, List.append_assoc]⟩
  rcases Nat.lt_trichotomy a.length b.length with hlt | heq | hgt
  · right; left
    refine List.prefix_of_prefix_length_le (List.prefix_append _ x) hb ?_
    rw [List.length_append, List.length_singleton]
    omega
  · left
    rw [List.append_assoc, List.append_assoc] at h
    exact List.append_inj_left h heq
  · right; right
    refine List.prefix_of_prefix_length_le (List.prefix_append _ y) ha ?_
    rw [List.length_append, List.length_singleton]
    omega

section IndexKeys

variable [External]

theorem fieldIndexPrefixEnd_eq (field : String) (v : Value) :
    encodeEdgeFieldIndexValuePrefix field v =
        edgePrefixIdx :: utf8 field ++ 0x00 :: encodeValueOrdered v ++ [0] ∧
      fieldIndexPrefixEnd (encodeEdgeFieldIndexValuePrefix field v) =
        edgePrefixIdx :: utf8 field ++ 0x00 :: encodeValueOrdered v ++ [1] := by
  refine ⟨rfl, ?_⟩
  unfold fieldIndexPrefixEnd encodeEdgeFieldIndexValuePrefix
  rw [List.getLast?_concat, List.dropLast_concat]

theorem extractEdgeId_key (field : String) (w : Value) {i : String} (hi : NulFree i) :
    extractEdgeIdFromIndexKey ((encodeEdgeFieldIndexKey field w i).drop 1) = some i := by
  unfold extractEdgeIdFromIndexKey encodeEdgeFieldIndexKey
  rw [List.cons_append, List.cons_append, List.drop_succ_cons, List.drop_zero,
    List.splitOn_append_cons_self, List.splitOn_eq_singleton hi, List.getLast?_concat,
    Option.map_some, fromUtf8Lossy_utf8]

theorem encodeEdgeFieldIndexKey_id {f g : String} {v w : Value} {i j : String} (hi : NulFree i)
    (hj : NulFree j) (h : encodeEdgeFieldIndexKey f v i = encodeEdgeFieldIndexKey g w j) :
    i = j := by
  have hid := extractEdgeId_key f v hi
  rw [h, extractEdgeId_key g w hj] at hid
  exact (Option.some.inj hid).symm

/-- The scanned range holds the entries of the field whose value has the same encoding. -/
theorem inRange_fieldIndex {schema : EdgeSchema} (hapart : FieldsApart schema)
    {field f : String} (hfield : field ∈ schema.indexedFields) (hf : f ∈ schema.indexedFields)
    {v w : Value} (hv : v.IsScalar) (i : String) :
    inRange (encodeEdgeFieldIndexValuePrefix field v)
        (fieldIndexPrefixEnd (encodeEdgeFieldIndexValuePrefix field v))
        (encodeEdgeFieldIndexKey f w i) = true ↔
      f = field ∧ encodeValueOrdered w = encodeValueOrdered v := by
  rw [(fieldIndexPrefixEnd_eq field v).2, (fieldIndexPrefixEnd_eq field v).1, inRange_sep_iff]
  constructor
  · rintro ⟨rest, hrest⟩
    simp only [encodeEdgeFieldIndexKey, List.cons_append, List.append_assoc, List.cons.injEq,
      true_and, List.nil_append] at hrest
    have hfronts : utf8 field ++ [0] ++ (encodeValueOrdered v ++ 0 :: rest) =
        utf8 f ++ [0] ++ (encodeValueOrdered w ++ 0 :: utf8 i) := by
      simpa using hrest
    rcases fronts_agree hfronts with heq | hfront | hfront
    · rw [heq] at hfronts
      exact ⟨(utf8_injective heq).symm, (scalar_front hv (List.append_cancel_left hfronts)).symm⟩
    · exact absurd hfront (hapart field hfield f hf)
    · exact absurd hfront (hapart f hf field hfield)
  · rintro ⟨rfl, hw⟩
    refine ⟨utf8 i, ?_⟩
    simp [encodeEdgeFieldIndexKey, hw]

end IndexKeys

/-! ## What the index holds -/

section Invariant

variable [External] [Numerics]

/-- Some query value equals it. -/
def Searchable (w : Value) : Prop := ∃ v : Value, v.IsScalar ∧ valuesEqual w v = true

/-- Every index entry belongs to an indexed field; where its id leads to an edge, the edge has
that id and the value. Every stored edge has an entry for each searchable value of an indexed
field. -/
structure FieldIndexed (schema : EdgeSchema) (ks : Keyspace EdgeEntry) (E : Set StoredEdge)
    (I : Set IdEntry) : Prop where
  shape : Shape schema ks E I
  entries : ∀ (k : Bytes) (v : EdgeEntry), k.head? = some edgePrefixIdx → ks[k]? = some v →
    ∃ f ∈ schema.indexedFields, ∃ w i, NulFree i ∧ EncodesAsEqual w ∧
      k = encodeEdgeFieldIndexKey f w i ∧
      ∀ x ∈ I, x.id = i → ∀ e ∈ E, InSlot schema x e →
        e.data.id = i ∧ e.data.fields.lookup f = some w
  complete : ∀ e ∈ E, ∀ f ∈ schema.indexedFields, ∀ w, e.data.fields.lookup f = some w →
    Searchable w → EncodesAsEqual w ∧
      (ks[encodeEdgeFieldIndexKey f w e.data.id]?).isSome = true

variable {schema : EdgeSchema} {ks : Keyspace EdgeEntry} {E : Set StoredEdge} {I : Set IdEntry}

theorem fieldIndexed_empty : FieldIndexed schema ∅ ∅ ∅ where
  shape := Shape.empty
  entries := by simp
  complete := by simp

omit [Numerics] in
theorem mem_updateFieldIndexes {i : String} {fields : List (String × Value)} {insert : Bool}
    {wr : Write EdgeEntry} :
    wr ∈ updateFieldIndexes schema i fields insert ↔
      ∃ f ∈ schema.indexedFields, ∃ w, fields.lookup f = some w ∧
        wr = (encodeEdgeFieldIndexKey f w i, if insert then some (.bytes []) else none) := by
  simp only [updateFieldIndexes, EdgeSchema.indexedFields, List.mem_flatMap, List.mem_filterMap,
    List.mem_flatten, Option.map_eq_some_iff]
  constructor
  · rintro ⟨index, hindex, f, hf, w, hw, rfl⟩
    exact ⟨f, ⟨index, hindex, hf⟩, w, hw, rfl⟩
  · rintro ⟨f, ⟨index, hindex, hf⟩, w, hw, rfl⟩
    exact ⟨index, hindex, f, hf, w, hw, rfl⟩

/-! ### Creating -/

omit [Numerics] in
/-- The entries a create adds to a field index, seen under one key. -/
theorem getElem?_updateFieldIndexes (schema : EdgeSchema) (ks : Keyspace EdgeEntry) (i : String)
    (fields : List (String × Value)) (k : Bytes) :
    (ks.applyWrites (updateFieldIndexes schema i fields true))[k]? = some (.bytes []) ∧
        (∃ f ∈ schema.indexedFields, ∃ w, fields.lookup f = some w ∧
          k = encodeEdgeFieldIndexKey f w i) ∨
      (ks.applyWrites (updateFieldIndexes schema i fields true))[k]? = ks[k]? ∧
        ∀ f ∈ schema.indexedFields, ∀ w, fields.lookup f = some w →
          k ≠ encodeEdgeFieldIndexKey f w i := by
  by_cases hk : ∃ f ∈ schema.indexedFields, ∃ w, fields.lookup f = some w ∧
      k = encodeEdgeFieldIndexKey f w i
  · refine Or.inl ⟨?_, hk⟩
    obtain ⟨f, hf, w, hw, rfl⟩ := hk
    apply Keyspace.getElem?_applyWrites_of_same
    · exact mem_updateFieldIndexes.mpr ⟨f, hf, w, hw, rfl⟩
    · intro wr hwr _
      obtain ⟨_, _, _, _, rfl⟩ := mem_updateFieldIndexes.mp hwr
      rfl
  · refine Or.inr ⟨?_, ?_⟩
    · apply Keyspace.getElem?_applyWrites_of_untouched
      intro wr hwr heq
      obtain ⟨f, hf, w, hw, rfl⟩ := mem_updateFieldIndexes.mp hwr
      exact hk ⟨f, hf, w, hw, heq.symm⟩
    · intro f hf w hw heq
      exact hk ⟨f, hf, w, hw, heq⟩

/-- The id is in no id entry and in no index entry. -/
def FreshId (ks : Keyspace EdgeEntry) (i : String) : Prop :=
  ks[encodeEdgeIdKey i]? = none ∧ ∀ f w, ks[encodeEdgeFieldIndexKey f w i]? = none

/-- Under `Single` cardinality no id entry for the ends is that of an edge with index entries. -/
def NoIndexedTwin (schema : EdgeSchema) (ks : Keyspace EdgeEntry) (src dst : String) : Prop :=
  schema.cardinality = .single → ∀ i : String,
    ks[encodeEdgeIdKey i]? = some (.bytes (encodeEdgeIdValue src dst)) →
      ∀ f w, ks[encodeEdgeFieldIndexKey f w i]? = none

/-- A new edge that finds its pair free of indexed edges; its own entries are written, or not
needed. -/
theorem FieldIndexed.create (h : FieldIndexed schema ks E I) {e : StoredEdge}
    (he : Clean schema e.name) (hfresh : FreshId ks e.data.id)
    (htwin : NoIndexedTwin schema ks e.src e.dst) {ks' : Keyspace EdgeEntry}
    (hshape : Shape schema ks' (insert e {e' ∈ E | ¬ InSlot schema e.name e'}) (insert e.name I))
    (hentries : ∀ (k : Bytes) (v : EdgeEntry), k.head? = some edgePrefixIdx → ks'[k]? = some v →
      ks[k]? = some v ∨ ∃ f ∈ schema.indexedFields, ∃ w, e.data.fields.lookup f = some w ∧
        EncodesAsEqual w ∧ k = encodeEdgeFieldIndexKey f w e.data.id)
    (hkept : ∀ f w i, (ks[encodeEdgeFieldIndexKey f w i]?).isSome = true →
      (ks'[encodeEdgeFieldIndexKey f w i]?).isSome = true)
    (hown : ∀ f ∈ schema.indexedFields, ∀ w, e.data.fields.lookup f = some w → Searchable w →
      EncodesAsEqual w ∧ (ks'[encodeEdgeFieldIndexKey f w e.data.id]?).isSome = true) :
    FieldIndexed schema ks' (insert e {e' ∈ E | ¬ InSlot schema e.name e'}) (insert e.name I) where
  shape := hshape
  entries := by
    intro k v hk hv
    rcases hentries k v hk hv with hold | ⟨f, hf, w, hw, henc, rfl⟩
    · obtain ⟨f, hf, w, i, hi, henc, rfl, hleads⟩ := h.entries k v hk hold
      refine ⟨f, hf, w, i, hi, henc, rfl, ?_⟩
      rintro x (rfl | hx) hxi e' he' hslot
      · -- the fresh id is in no old entry
        rw [← hxi, show e.name.id = e.data.id from rfl, hfresh.2 f w] at hold
        cases hold
      · rcases he' with rfl | ⟨he', -⟩
        · cases hc : schema.cardinality with
          | single =>
            -- the id entry names the pair of the new edge
            have hget := h.shape.get_id hx
            rw [← hslot.1, ← hslot.2.1] at hget
            rw [← hxi, htwin hc x.id hget f w] at hold
            cases hold
          | multiple =>
            have hid : e'.data.id = x.id := hslot.2.2 hc
            rw [← hxi, ← hid, hfresh.2 f w] at hold
            cases hold
        · exact hleads x hx hxi e' he' hslot
    · refine ⟨f, hf, w, e.data.id, he.2.2.1, henc, rfl, ?_⟩
      rintro x (rfl | hx) hxi e' he' hslot
      · rcases he' with rfl | ⟨-, hno⟩
        · exact ⟨rfl, hw⟩
        · exact absurd hslot hno
      · have hget := h.shape.get_id hx
        rw [hxi, hfresh.1] at hget
        cases hget
  complete := by
    rintro e' (rfl | ⟨he', -⟩) f hf w hw hsearch
    · exact hown f hf w hw hsearch
    · obtain ⟨henc, hsome⟩ := h.complete e' he' f hf w hw hsearch
      exact ⟨henc, hkept _ _ _ hsome⟩

/-! ### Deleting -/

/-- Removals; an index entry goes only together with the id entry of its edge. -/
def Deleting (ws : List (Write EdgeEntry)) : Prop :=
  (∀ w ∈ ws, w.2 = none) ∧ ∀ f v i, NulFree i →
    (encodeEdgeFieldIndexKey f v i, none) ∈ ws → (encodeEdgeIdKey i, none) ∈ ws

theorem FieldIndexed.delete (h : FieldIndexed schema ks E I) {ws : List (Write EdgeEntry)}
    (hws : Deleting ws) {E' : Set StoredEdge} {I' : Set IdEntry}
    (hshape : Shape schema (ks.applyWrites ws) E' I') :
    FieldIndexed schema (ks.applyWrites ws) E' I' := by
  -- what is there after the removals was there before
  have hold : ∀ (k : Bytes) (v : EdgeEntry), (ks.applyWrites ws)[k]? = some v → ks[k]? = some v := by
    intro k v hv
    by_cases hk : ∃ w ∈ ws, w.1 = k
    · obtain ⟨w, hw, rfl⟩ := hk
      have hmem : (w.1, none) ∈ ws := by
        rw [← hws.1 w hw]
        exact hw
      rw [Keyspace.getElem?_applyWrites_of_same hmem fun w' hw' _ => hws.1 w' hw'] at hv
      cases hv
    · rwa [Keyspace.getElem?_applyWrites_of_untouched
        fun w hw heq => hk ⟨w, hw, heq⟩] at hv
  have hE : ∀ e ∈ E', e ∈ E := by
    intro e he
    have hclean := hshape.clean_of_mem he
    obtain ⟨e', he', hslot, hdata⟩ := h.shape.mem_of_out hclean (hold _ _ (hshape.get_out he))
    have heq := serializeEdgeData_inj hclean.2.2.1 (h.shape.clean_of_mem he').2.2.1 hdata
    have hee : e' = e := by
      obtain ⟨src, dst, data⟩ := e
      obtain ⟨src', dst', data'⟩ := e'
      obtain ⟨h1, h2, -⟩ := hslot
      cases h1
      cases h2
      cases heq
      rfl
    exact hee ▸ he'
  have hI : ∀ x ∈ I', x ∈ I := by
    intro x hx
    obtain ⟨y, hy, hentry⟩ := (h.shape.ids _ _ (encodeEdgeIdKey_head x.id)).mp
      (hold _ _ (hshape.get_id hx))
    obtain ⟨hkey, hval⟩ := Prod.mk.inj hentry
    have hid : x.id = y.id := encodeEdgeIdKey_inj.mp hkey
    have hends := (encodeEdgeIdValue_inj (hshape.clean x hx).1 (h.shape.clean y hy).1).mp
      (EdgeEntry.bytes.inj hval)
    have hxy : x = y := by
      obtain ⟨i, a, b⟩ := x
      obtain ⟨i', a', b'⟩ := y
      obtain ⟨h1, h2⟩ := hends
      cases hid
      cases h1
      cases h2
      rfl
    exact hxy ▸ hy
  refine ⟨hshape, ?_, ?_⟩
  · intro k v hk hv
    obtain ⟨f, hf, w, i, hi, henc, rfl, hleads⟩ := h.entries k v hk (hold k v hv)
    exact ⟨f, hf, w, i, hi, henc, rfl, fun x hx hxi e he => hleads x (hI x hx) hxi e (hE e he)⟩
  · intro e he f hf w hw hsearch
    obtain ⟨henc, hsome⟩ := h.complete e (hE e he) f hf w hw hsearch
    refine ⟨henc, ?_⟩
    rw [Keyspace.getElem?_applyWrites_of_untouched]
    · exact hsome
    · intro wr hwr heq
      -- the id entry of a stored edge is not removed
      have hidx : (encodeEdgeFieldIndexKey f w e.data.id, none) ∈ ws := by
        rw [← heq, ← hws.1 wr hwr]
        exact hwr
      have hid : (encodeEdgeIdKey e.data.id, none) ∈ ws :=
        hws.2 f w _ (hshape.clean_of_mem he).2.2.1 hidx
      have hnone : (ks.applyWrites ws)[encodeEdgeIdKey e.data.id]? = none :=
        Keyspace.getElem?_applyWrites_of_same hid (fun w' hw' _ => hws.1 w' hw') ks
      have hgone := hshape.get_id (hshape.named e he)
      rw [show e.name.id = e.data.id from rfl, hnone] at hgone
      cases hgone

end Invariant

/-! ## Runs -/

namespace EdgeOp

variable [External] [Numerics] {schema : EdgeSchema} {s : EdgeStore} {label : String}
  {E : Set StoredEdge} {I : Set IdEntry}

/-- Ids are not used twice. -/
def FreshIds (ks : Keyspace EdgeEntry) : EdgeOp → Prop
  | .create edge | .createInTx edge => FreshId ks edge.nanoid
  | _ => True

/-- What a create must meet for the index to stay exact: the pair is free of indexed edges, the
indexed values are encoded as they compare, and in a transaction there are none to search for. -/
def IndexSafe (schema : EdgeSchema) (ks : Keyspace EdgeEntry) : EdgeOp → Prop
  | .create edge =>
    (∀ f ∈ schema.indexedFields, ∀ w, edge.fields.lookup f = some w → EncodesAsEqual w) ∧
      NoIndexedTwin schema ks (storedOf schema edge).src (storedOf schema edge).dst
  | .createInTx edge =>
    (∀ f ∈ schema.indexedFields, ∀ w, edge.fields.lookup f = some w → ¬ Searchable w) ∧
      NoIndexedTwin schema ks (storedOf schema edge).src (storedOf schema edge).dst
  | _ => True

omit [Numerics] in
/-- Index entries of one edge, with its other keys. -/
theorem deleting_edge (schema : EdgeSchema) {i : String} (hi : NulFree i) (src dst : String)
    (fields : List (String × Value)) :
    Deleting (deleteEdgeKeysInTx schema src dst i ++ updateFieldIndexes schema i fields false) := by
  refine ⟨?_, ?_⟩
  · intro w hw
    rcases List.mem_append.mp hw with hw | hw
    · simp only [deleteEdgeKeysInTx, List.mem_cons, List.not_mem_nil, or_false] at hw
      rcases hw with rfl | rfl | rfl <;> rfl
    · obtain ⟨_, _, _, _, rfl⟩ := mem_updateFieldIndexes.mp hw
      rfl
  · intro f v j hj hmem
    refine List.mem_append_left _ ?_
    rcases List.mem_append.mp hmem with hmem | hmem
    · simp only [deleteEdgeKeysInTx, List.mem_cons, Prod.mk.injEq, List.not_mem_nil, or_false,
        and_true] at hmem
      have hhead : (encodeEdgeFieldIndexKey f v j).head? = some edgePrefixIdx := rfl
      rcases hmem with h | h | h
      · rw [h, outKey_head] at hhead
        exact absurd hhead (by decide)
      · rw [h] at hhead
        unfold reverseKey at hhead
        split at hhead
        · rw [outKey_head] at hhead
          exact absurd hhead (by decide)
        · rw [inKey_head] at hhead
          exact absurd hhead (by decide)
      · rw [h, encodeEdgeIdKey_head] at hhead
        exact absurd hhead (by decide)
    · obtain ⟨g, -, w, -, heq⟩ := mem_updateFieldIndexes.mp hmem
      rw [encodeEdgeFieldIndexKey_id hj hi (Prod.mk.inj heq).1]
      simp [deleteEdgeKeysInTx]

omit [Numerics] in
theorem deleting_append {ws ws' : List (Write EdgeEntry)} (h : Deleting ws) (h' : Deleting ws') :
    Deleting (ws ++ ws') := by
  refine ⟨?_, ?_⟩
  · intro w hw
    rcases List.mem_append.mp hw with hw | hw
    · exact h.1 w hw
    · exact h'.1 w hw
  · intro f v i hi hmem
    rcases List.mem_append.mp hmem with hmem | hmem
    · exact List.mem_append_left _ (h.2 f v i hi hmem)
    · exact List.mem_append_right _ (h'.2 f v i hi hmem)

omit [Numerics] in
theorem deleting_nil : Deleting [] := ⟨by simp, by simp⟩

omit [Numerics] in
theorem deleting_flatMap {α : Type} (xs : List α) {ws : α → List (Write EdgeEntry)}
    (h : ∀ a ∈ xs, Deleting (ws a)) : Deleting (xs.flatMap ws) := by
  induction xs with
  | nil => exact deleting_nil
  | cons a xs ih =>
    rw [List.forall_mem_cons] at h
    rw [List.flatMap_cons]
    exact deleting_append h.1 (ih h.2)

omit [Numerics] in
theorem deleting_comm {ws ws' : List (Write EdgeEntry)} (h : Deleting (ws ++ ws')) :
    Deleting (ws' ++ ws) := by
  unfold Deleting at h ⊢
  simpa only [List.mem_append, or_comm] using h

omit [Numerics] in
theorem deleting_keys (schema : EdgeSchema) {i : String} (hi : NulFree i) (src dst : String) :
    Deleting (deleteEdgeKeysInTx schema src dst i) := by
  have h := deleting_edge schema hi src dst []
  have hnil : updateFieldIndexes schema i [] false = [] := by simp [updateFieldIndexes]
  rwa [hnil, List.append_nil] at h

/-- The operations that delete only remove entries. -/
def Deletes : EdgeOp → Prop
  | .create _ | .createInTx _ => False
  | _ => True

omit [Numerics] in
theorem exec_deleting (hschema : s.getSchema label = some schema)
    (h : Shape schema (s.keyspaces label) E I) {op : EdgeOp} (hop : op.Deletes)
    (hv : op.Valid label (s.keyspaces label)) :
    ∃ ws, Deleting ws ∧ (op.exec label s).keyspaces label = (s.keyspaces label).applyWrites ws := by
  cases op with
  | create edge => exact hop.elim
  | createInTx edge => exact hop.elim
  | delete src dst =>
    obtain ⟨hs, hd⟩ := hv
    cases hc : schema.cardinality with
    | single =>
      rcases getData_single h hc hs hd with ⟨e, he, h1, h2, hget⟩ | hget
      · refine ⟨_, deleting_comm (deleting_edge schema (h.clean_of_mem he).2.2.1 e.src e.dst
          e.data.fields), ?_⟩
        simp [exec, EdgeStore.delete, hschema, hc, hget, h1, h2, keyspaces_write, StoredEdge.name]
      · exact ⟨[], deleting_nil, by simp [exec, EdgeStore.delete, hschema, hc, hget]⟩
    | multiple =>
      obtain ⟨hn1, hn2⟩ := nulFree_normalize schema hs hd
      obtain ⟨datas, hscan, hmem⟩ := h.scanBetween_ok hc hn1 hn2 (normalize_normalize src dst)
      refine ⟨_, deleting_flatMap datas fun data hdata =>
        deleting_edge schema (h.clean_of_mem ((hmem data).mp hdata)).2.2.1 (normalize schema src dst).1
          (normalize schema src dst).2 data.fields, ?_⟩
      simp [exec, EdgeStore.delete, hschema, hc, hscan, keyspaces_write, StoredEdge.name]
  | deleteById edgeId =>
    rcases h.getEnds_id edgeId with ⟨x, hx, rfl, hends⟩ | ⟨-, hends⟩
    · have hi := (h.clean x hx).2.2.1
      rcases h.getData_out (h.clean x hx) with ⟨e, -, -, hget⟩ | ⟨-, hget⟩
      · refine ⟨_, deleting_edge schema hi x.src x.dst e.data.fields, ?_⟩
        simp [exec, EdgeStore.deleteById, hschema, hends, hget, keyspaces_write, EdgeStore.cleanup]
      · refine ⟨_, deleting_keys schema hi x.src x.dst, ?_⟩
        simp [exec, EdgeStore.deleteById, hschema, hends, hget, keyspaces_write, EdgeStore.cleanup]
    · exact ⟨[], deleting_nil, by simp [exec, EdgeStore.deleteById, hschema, hends]⟩
  | deleteInTx src dst =>
    obtain ⟨hs, hd⟩ := hv
    cases hc : schema.cardinality with
    | single =>
      rcases getData_single h hc hs hd with ⟨e, he, h1, h2, hget⟩ | hget
      · refine ⟨_, deleting_keys schema (h.clean_of_mem he).2.2.1 e.src e.dst, ?_⟩
        simp [exec, EdgeStore.deleteInTx, hschema, hc, hget, h1, h2, keyspaces_write, StoredEdge.name]
      · refine ⟨[], deleting_nil, ?_⟩
        simp [exec, EdgeStore.deleteInTx, hschema, hc, hget, keyspaces_write]
    | multiple =>
      obtain ⟨hn1, hn2⟩ := nulFree_normalize schema hs hd
      obtain ⟨datas, hscan, hmem⟩ := h.scanBetween_ok hc hn1 hn2 (normalize_normalize src dst)
      refine ⟨_, deleting_flatMap datas fun data hdata =>
        deleting_keys schema (h.clean_of_mem ((hmem data).mp hdata)).2.2.1 (normalize schema src dst).1
          (normalize schema src dst).2, ?_⟩
      simp [exec, EdgeStore.deleteInTx, hschema, hc, hscan, keyspaces_write, StoredEdge.name]

omit [External] [Numerics] in
/-- The keys of a new edge, seen from the field index. -/
theorem getElem?_createWrites (ks : Keyspace EdgeEntry) (edge : Edge) {k : Bytes}
    (hk : k.head? = some edgePrefixIdx) :
    (ks.applyWrites (EdgeStore.createWrites schema edge))[k]? = ks[k]? := by
  refine Keyspace.getElem?_applyWrites_of_untouched ?_ ks
  intro w hw heq
  rw [← heq] at hk
  simp only [EdgeStore.createWrites, insertEdgeKeys, List.mem_cons, List.not_mem_nil, or_false]
    at hw
  rcases hw with rfl | rfl | rfl
  · rw [outKey_head] at hk
    exact absurd hk (by decide)
  · unfold reverseKey at hk
    split at hk
    · rw [outKey_head] at hk
      exact absurd hk (by decide)
    · rw [inKey_head] at hk
      exact absurd hk (by decide)
  · rw [encodeEdgeIdKey_head] at hk
    exact absurd hk (by decide)

/-- One operation keeps the field index. -/
theorem exec_fieldIndexed (hschema : s.getSchema label = some schema)
    (h : FieldIndexed schema (s.keyspaces label) E I) {op : EdgeOp}
    (hv : op.Valid label (s.keyspaces label)) (hfresh : op.FreshIds (s.keyspaces label))
    (hsafe : op.IndexSafe schema (s.keyspaces label)) :
    (op.exec label s).getSchema label = some schema ∧
      ∃ E' I', FieldIndexed schema ((op.exec label s).keyspaces label) E' I' := by
  obtain ⟨hschema', E', I', hshape', -⟩ := exec_shape hschema h.shape hv
  refine ⟨hschema', ?_⟩
  have hdelete : op.Deletes → ∃ E' I', FieldIndexed schema ((op.exec label s).keyspaces label) E' I' := by
    intro hop
    obtain ⟨ws, hws, hexec⟩ := exec_deleting hschema h.shape hop hv
    rw [hexec] at hshape' ⊢
    exact ⟨E', I', h.delete hws hshape'⟩
  cases op with
  | create edge =>
    obtain ⟨rfl, hs, hd, hi, hid⟩ := hv
    have hclean : Clean schema (storedOf schema edge).name := clean_storedOf hs hd hi
    have hexec : ((EdgeOp.create edge).exec edge.label s).keyspaces edge.label =
        ((s.keyspaces edge.label).applyWrites (EdgeStore.createWrites schema edge)).applyWrites
          (updateFieldIndexes schema edge.nanoid edge.fields true) := by
      simp [exec, EdgeStore.create, EdgeStore.schemaOrDefine, hschema, keyspaces_write,
        Keyspace.applyWrites_append]
    have hread : ∀ k : Bytes, k.head? = some edgePrefixIdx →
        ((s.keyspaces edge.label).applyWrites (EdgeStore.createWrites schema edge))[k]? =
          (s.keyspaces edge.label)[k]? := fun k hk => getElem?_createWrites _ edge hk
    have hshape := shape_fieldIndexes (h.shape.create hclean hfresh.1) edge.nanoid edge.fields true
    rw [hexec]
    refine ⟨_, _, h.create hclean hfresh hsafe.2 hshape ?_ ?_ ?_⟩
    · intro k v hk hv
      rcases getElem?_updateFieldIndexes schema ((s.keyspaces edge.label).applyWrites
        (EdgeStore.createWrites schema edge)) edge.nanoid edge.fields k with
        ⟨-, f, hf, w, hw, rfl⟩ | ⟨hsame, -⟩
      · exact Or.inr ⟨f, hf, w, hw, hsafe.1 f hf w hw, rfl⟩
      · rw [hsame, hread k hk] at hv
        exact Or.inl hv
    · intro f w i hsome
      rcases getElem?_updateFieldIndexes schema ((s.keyspaces edge.label).applyWrites
        (EdgeStore.createWrites schema edge)) edge.nanoid edge.fields
        (encodeEdgeFieldIndexKey f w i) with ⟨hnew, -⟩ | ⟨hsame, -⟩
      · rw [hnew]
        rfl
      · rw [hsame, hread _ rfl]
        exact hsome
    · intro f hf w hw _
      refine ⟨hsafe.1 f hf w hw, ?_⟩
      rcases getElem?_updateFieldIndexes schema ((s.keyspaces edge.label).applyWrites
        (EdgeStore.createWrites schema edge)) edge.nanoid edge.fields
        (encodeEdgeFieldIndexKey f w edge.nanoid) with ⟨hnew, -⟩ | ⟨-, hno⟩
      · show (Keyspace.applyWrites _ _)[encodeEdgeFieldIndexKey f w edge.nanoid]?.isSome = true
        rw [hnew]
        rfl
      · exact absurd rfl (hno f hf w hw)
  | createInTx edge =>
    obtain ⟨rfl, hs, hd, hi, hid⟩ := hv
    have hclean : Clean schema (storedOf schema edge).name := clean_storedOf hs hd hi
    have hexec : ((EdgeOp.createInTx edge).exec edge.label s).keyspaces edge.label =
        (s.keyspaces edge.label).applyWrites (EdgeStore.createWrites schema edge) := by
      simp [exec, EdgeStore.createInTx, EdgeStore.schemaOrDefine, hschema, keyspaces_write]
    have hshape := h.shape.create hclean hfresh.1
    rw [hexec]
    refine ⟨_, _, h.create hclean hfresh hsafe.2 hshape ?_ ?_ ?_⟩
    · intro k v hk hv
      rw [getElem?_createWrites _ edge hk] at hv
      exact Or.inl hv
    · intro f w i hsome
      rw [getElem?_createWrites _ edge rfl]
      exact hsome
    · intro f hf w hw hsearch
      exact absurd hsearch (hsafe.1 f hf w hw)
  | delete src dst => exact hdelete trivial
  | deleteById edgeId => exact hdelete trivial
  | deleteInTx src dst => exact hdelete trivial

end EdgeOp

/-! ## Exact queries -/

section Queries

variable [External] [Numerics] {schema : EdgeSchema} {s : EdgeStore} {label : String}
  {E : Set StoredEdge} {I : Set IdEntry}

omit [External] [Numerics] in
/-- The entries are passed over or give their edge, in order. -/
theorem edgesOfEntries_eq {entries : List (Bytes × EdgeEntry)} {edgeOf : Bytes × EdgeEntry → Option Edge}
    (h : ∀ en ∈ entries, ∃ i, extractEdgeIdFromIndexKey (en.1.drop 1) = some i ∧
      s.getById label i = .ok (edgeOf en)) :
    s.edgesOfEntries label entries = .ok (entries.filterMap edgeOf) := by
  induction entries with
  | nil => rfl
  | cons en entries ih =>
    rw [List.forall_mem_cons] at h
    obtain ⟨i, hi, hget⟩ := h.1
    obtain ⟨key, value⟩ := en
    simp only [EdgeStore.edgesOfEntries, hi, hget]
    cases hedge : edgeOf (key, value) with
    | none =>
      rw [List.filterMap_cons_none hedge]
      exact ih h.2
    | some edge =>
      rw [List.filterMap_cons_some hedge]
      dsimp only
      rw [ih h.2]
      rfl

omit [External] [Numerics] in
/-- What is found under an id: the edge in the slot its id entry names. -/
theorem getById_shape (hschema : s.getSchema label = some schema)
    (h : Shape schema (s.keyspaces label) E I) (i : String) :
    (∃ x ∈ I, ∃ e ∈ E, x.id = i ∧ InSlot schema x e ∧
      s.getById label i = .ok (some (e.toEdge label))) ∨
    ((∀ e ∈ E, e.data.id ≠ i) ∧ s.getById label i = .ok none) := by
  rcases h.getEnds_id i with ⟨x, hx, rfl, hends⟩ | ⟨hno, hends⟩
  · rcases h.getData_out (h.clean x hx) with ⟨e, he, hslot, hget⟩ | ⟨hfree, hget⟩
    · refine Or.inl ⟨x, hx, e, he, rfl, hslot, ?_⟩
      simp only [EdgeStore.getById, hschema, hends, hget, StoredEdge.toEdge, hslot.1, hslot.2.1]
    · refine Or.inr ⟨fun e he hid => ?_, ?_⟩
      · have hname := h.id_unique (h.named e he) hx hid
        exact hfree e he ⟨congrArg IdEntry.src hname, congrArg IdEntry.dst hname, fun _ => hid⟩
      · simp only [EdgeStore.getById, hschema, hends, hget]
  · refine Or.inr ⟨fun e he hid => hno _ (h.named e he) hid, ?_⟩
    simp only [EdgeStore.getById, hschema, hends]

omit [External] [Numerics] in
/-- The edges of a label, each in the orientation in which it is stored. -/
theorem held_normalized (h : Shape schema (s.keyspaces label) E I) {e : Edge} :
    e ∈ s.held schema label ∧ normalize schema e.src e.dst = (e.src, e.dst) ↔
      ∃ x ∈ E, e = x.toEdge label := by
  rw [mem_held h]
  constructor
  · rintro ⟨⟨x, hx, rfl | ⟨hund, rfl⟩⟩, hnorm⟩
    · exact ⟨x, hx, rfl⟩
    · -- both orientations are stored in this order for a loop only
      have hloop : x.src = x.dst := eq_of_normalize_both hund (h.clean_of_mem hx).2.2.2 hnorm
      exact ⟨x, hx, (Edge.reversed_of_loop hloop).symm⟩
  · rintro ⟨x, hx, rfl⟩
    exact ⟨⟨x, hx, Or.inl rfl⟩, (h.clean_of_mem hx).2.2.2⟩

/-- Where the index holds what it should, a query is exact. -/
theorem FieldIndexed.query (h : FieldIndexed schema (s.keyspaces label) E I)
    (hschema : s.getSchema label = some schema) (hapart : FieldsApart schema) {field : String}
    (hfield : field ∈ schema.indexedFields) {v : Value} (hv : v.IsScalar) :
    ∃ edges, s.queryByField label field v = .ok edges ∧ edges.Nodup ∧
      ∀ e, e ∈ edges ↔ (e ∈ s.held schema label ∧ normalize schema e.src e.dst = (e.src, e.dst)) ∧
        ∃ w, e.fields.lookup field = some w ∧ valuesEqual w v = true := by
  set front := encodeEdgeFieldIndexValuePrefix field v with hfront
  set range := (s.keyspaces label).range front (fieldIndexPrefixEnd front) with hrange
  set edgeOf : Bytes × EdgeEntry → Option Edge := fun en =>
    ((extractEdgeIdFromIndexKey (en.1.drop 1)).bind fun i =>
      (s.getById label i).toOption.join) with hedgeOf
  -- an entry in the range leads to the edge with its id and value, or to none
  have hentry : ∀ en ∈ range, ∃ w i, NulFree i ∧ EncodesAsEqual w ∧
      encodeValueOrdered w = encodeValueOrdered v ∧ en.1 = encodeEdgeFieldIndexKey field w i ∧
      s.getById label i = .ok (edgeOf en) ∧
      ∀ e, edgeOf en = some e → ∃ x ∈ E, e = x.toEdge label ∧ x.data.id = i ∧
        x.data.fields.lookup field = some w := by
    intro en hen
    obtain ⟨hget, hin⟩ := mem_range.mp hen
    have hhead : en.1.head? = some edgePrefixIdx := by
      rw [hfront, (fieldIndexPrefixEnd_eq field v).2, (fieldIndexPrefixEnd_eq field v).1,
        inRange_sep_iff] at hin
      obtain ⟨rest, hrest⟩ := hin
      rw [← hrest]
      rfl
    obtain ⟨f, hf, w, i, hi, henc, hkey, hleads⟩ := h.entries en.1 en.2 hhead hget
    rw [hkey, inRange_fieldIndex hapart hfield hf hv] at hin
    obtain ⟨rfl, hw⟩ := hin
    have hextract : extractEdgeIdFromIndexKey (en.1.drop 1) = some i := by
      rw [hkey]
      exact extractEdgeId_key f w hi
    have hof : edgeOf en = (s.getById label i).toOption.join := by
      rw [hedgeOf]
      simp only [hextract, Option.bind_some]
    refine ⟨w, i, hi, henc, hw, hkey, ?_⟩
    rcases getById_shape hschema h.shape i with ⟨x, hx, e, he, hxi, hslot, hfound⟩ | ⟨-, hfound⟩
    · rw [hof, hfound]
      refine ⟨rfl, fun e' he' => ⟨e, he, ?_, hleads x hx hxi e he hslot⟩⟩
      exact (Option.some.inj he').symm
    · rw [hof, hfound]
      exact ⟨rfl, fun e' he' => nomatch he'⟩
  have hquery : s.queryByField label field v = .ok (range.filterMap edgeOf) := by
    have hany : (schema.indexes.any fun index => index.contains field) = true := by
      obtain ⟨index, hindex, hmem⟩ := List.mem_flatten.mp hfield
      exact List.any_eq_true.mpr ⟨index, hindex, List.contains_iff_mem.mpr hmem⟩
    unfold EdgeStore.queryByField
    rw [hschema]
    show (if (!(schema.indexes.any fun index => index.contains field)) = true then _ else _) = _
    rw [hany, if_neg (by decide)]
    refine edgesOfEntries_eq fun en hen => ?_
    obtain ⟨w, i, hi, -, -, hkey, hget, -⟩ := hentry en hen
    refine ⟨i, ?_, hget⟩
    rw [hkey]
    exact extractEdgeId_key field w hi
  refine ⟨range.filterMap edgeOf, hquery, ?_, fun e => ?_⟩
  · refine List.pairwise_filterMap.mpr ((List.pairwise_map.mp (range_keys_nodup _ front
      (fieldIndexPrefixEnd front))).imp_of_mem ?_)
    intro en en' hen hen' hne e he e' he' heq
    obtain ⟨w, i, -, -, -, hkey, -, hedge⟩ := hentry en hen
    obtain ⟨w', i', -, -, -, hkey', -, hedge'⟩ := hentry en' hen'
    obtain ⟨x, hx, hxe, hxi, hxw⟩ := hedge e he
    obtain ⟨x', hx', hxe', hxi', hxw'⟩ := hedge' e' he'
    -- the edge has one id and one value, so the entries have one key
    have hid : i = i' := by
      have hnanoid := congrArg Edge.nanoid (hxe.symm.trans (heq.trans hxe'))
      rwa [StoredEdge.toEdge, StoredEdge.toEdge, nanoid_toEdge, nanoid_toEdge, hxi, hxi'] at hnanoid
    have hfields : x.data.fields = x'.data.fields :=
      congrArg Edge.fields (hxe.symm.trans (heq.trans hxe'))
    rw [hfields, hxw'] at hxw
    exact hne (by rw [hkey, hkey', hid, Option.some.inj hxw])
  · rw [List.mem_filterMap, held_normalized h.shape]
    constructor
    · rintro ⟨en, hen, he⟩
      obtain ⟨w, i, -, henc, hw, -, -, hedge⟩ := hentry en hen
      obtain ⟨x, hx, rfl, -, hxw⟩ := hedge e he
      exact ⟨⟨x, hx, rfl⟩, w, hxw, (encodes_iff hv henc).mp hw⟩
    · rintro ⟨⟨x, hx, rfl⟩, w, hw, heq⟩
      obtain ⟨henc, hsome⟩ := h.complete x hx field hfield w hw ⟨v, hv, heq⟩
      obtain ⟨value, hvalue⟩ := Option.isSome_iff_exists.mp hsome
      have hen : (encodeEdgeFieldIndexKey field w x.data.id, value) ∈ range :=
        mem_range.mpr ⟨hvalue, (inRange_fieldIndex hapart hfield hfield hv _).mpr
          ⟨rfl, (encodes_iff hv henc).mpr heq⟩⟩
      refine ⟨_, hen, ?_⟩
      obtain ⟨w', i, hi, -, -, hkey, hget, -⟩ := hentry _ hen
      have hid : x.data.id = i := encodeEdgeFieldIndexKey_id (h.shape.clean_of_mem hx).2.2.1 hi hkey
      rw [← hid] at hget
      rcases getById_shape hschema h.shape x.data.id with
        ⟨y, hy, e, he, hyi, hslot, hfound⟩ | ⟨hno, -⟩
      · have hname := h.shape.id_unique (h.shape.named x hx) hy hyi.symm
        rw [← hname] at hslot
        rw [h.shape.slot_unique hx he hslot, hget] at hfound
        exact Except.ok.inj hfound
      · exact absurd rfl (hno x hx)

/-- In every run with fresh ids whose creates keep the index exact, every query for a scalar in an
indexed field answers with the stored edges whose field equals it, each once. -/
theorem queries_exact (hschema : s.getSchema label = some schema)
    (hempty : s.keyspaces label = ∅) (hapart : FieldsApart schema) {ops : List EdgeOp}
    (hv : EdgeOp.RunValid label s ops)
    (hfresh : Meets (fun s op => op.exec label s)
      (fun s op => op.FreshIds (s.keyspaces label)) s ops)
    (hsafe : Meets (fun s op => op.exec label s)
      (fun s op => op.IndexSafe schema (s.keyspaces label)) s ops) :
    ∀ done, done <+: ops → ∀ field ∈ schema.indexedFields, ∀ v : Value, v.IsScalar →
      ∃ edges, (EdgeOp.runOps label s done).queryByField label field v = .ok edges ∧
        edges.Nodup ∧ ∀ e, e ∈ edges ↔
          (e ∈ (EdgeOp.runOps label s done).held schema label ∧
            normalize schema e.src e.dst = (e.src, e.dst)) ∧
          ∃ w, e.fields.lookup field = some w ∧ valuesEqual w v = true := by
  have hrun := foldl_invariant (fun s => s.getSchema label = some schema ∧
    ∃ E I, FieldIndexed schema (s.keyspaces label) E I) ?_ ⟨hschema, ∅, ∅, ?_⟩
    ((hv.and hfresh).and hsafe)
  · intro done hdone field hfield v hscalar
    obtain ⟨hschema', E, I, hindexed⟩ := hrun done hdone
    exact hindexed.query hschema' hapart hfield hscalar
  · rintro s op ⟨hschema, E, I, hindexed⟩ ⟨⟨hvalid, hfresh⟩, hsafe⟩
    exact EdgeOp.exec_fieldIndexed hschema hindexed hvalid hfresh hsafe
  · rw [hempty]
    exact fieldIndexed_empty

end Queries

namespace Knows

local instance : External := .standIn

local instance : Numerics := .standIn

/-- An edge type indexed by `since`. -/
def schema : EdgeSchema := ⟨"knows", .directed, .single, .cascade, [["since"]]⟩

def fresh : EdgeStore := ⟨[("knows", schema)], fun _ => ∅⟩

/-- An edge with the field `since`. -/
def edge (id : String) (since : Int64) : Edge :=
  ⟨"knows:" ++ id, "users:a", "users:b", "knows", 1, none, [("since", .int since)]⟩

/-- An edge created directly and removed again. -/
def direct : List EdgeOp := [.create (edge "e1" 7), .deleteById "e1"]

theorem direct_valid : EdgeOp.RunValid "knows" fresh direct := by
  refine ⟨⟨rfl, ?_, ?_, ?_, ?_⟩, trivial, trivial⟩ <;> decide

theorem fieldsApart : FieldsApart schema := by
  intro f hf g hg
  obtain rfl : f = "since" := List.mem_singleton.mp hf
  obtain rfl : g = "since" := List.mem_singleton.mp hg
  decide

theorem direct_safe : EdgeOp.IndexSafe schema (fresh.keyspaces "knows") (.create (edge "e1" 7)) := by
  refine ⟨fun f hf w hw => ?_, fun _ i hi => ?_⟩
  · obtain rfl : f = "since" := List.mem_singleton.mp hf
    obtain rfl : w = .int 7 := (Option.some.inj hw).symm
    exact encodesAsEqual_of_kind nofun nofun
  · exact absurd hi (by simp [fresh])

/-- After the first step a query for the value finds the stored edges with this value. -/
theorem direct_exact :
    ∃ edges, (EdgeOp.runOps "knows" fresh [.create (edge "e1" 7)]).queryByField
        "knows" "since" (.int 7) = .ok edges ∧
      edges.Nodup ∧ ∀ e, e ∈ edges ↔
        (e ∈ (EdgeOp.runOps "knows" fresh [.create (edge "e1" 7)]).held schema "knows" ∧
          normalize schema e.src e.dst = (e.src, e.dst)) ∧
        ∃ w, e.fields.lookup "since" = some w ∧ valuesEqual w (.int 7) = true :=
  queries_exact rfl rfl fieldsApart direct_valid
    ⟨⟨by simp [fresh], by simp [fresh]⟩, trivial, trivial⟩ ⟨direct_safe, trivial, trivial⟩
    [.create (edge "e1" 7)] ⟨[.deleteById "e1"], rfl⟩ "since" (by decide) (.int 7) trivial

/-- An edge created in a transaction that is committed. -/
def committed : List EdgeOp := [.createInTx (edge "e1" 7)]

/-- The edge is stored and not found by its field. -/
theorem committed_not_found : EdgeOp.RunValid "knows" fresh committed ∧
    Meets (fun s (op : EdgeOp) => op.exec "knows" s)
      (fun s op => op.FreshIds (s.keyspaces "knows")) fresh committed ∧
    edge "e1" 7 ∈ (EdgeOp.runOps "knows" fresh committed).held schema "knows" ∧
    (EdgeOp.runOps "knows" fresh committed).queryByField "knows" "since" (.int 7) = .ok [] := by
  refine ⟨⟨⟨rfl, ?_, ?_, ?_, ?_⟩, trivial⟩, ⟨⟨by simp [fresh], by simp [fresh]⟩, trivial⟩, ?_, ?_⟩
  all_goals first
    | decide
    | rfl
    | exact ⟨⟨"e1", 1, 0, [("since", .int 7)]⟩, by rfl, by rfl⟩

end Knows

end StellarDb
