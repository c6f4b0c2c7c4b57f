import StellarDb.Encoding.Order
import StellarDb.Indexes.Scan

/-!
# StellarDb — index lookups against the evaluator

A scan of an exact index returns documents by the bytes of their indexed values; the evaluator
compares the values themselves. The two agree on values of one kind among `Bool`, `Int`,
`String` and `Reference` (`sameKind_order`): there the byte order is the evaluator's order and
no encoding is the front of another one.

What is left over is stated as a condition on the stored documents: `scanIndexEq_agrees_iff`
for equality (a document that the compound index at hand leaves out is missed), and
`rangeScan_agrees_iff` for ranges, whose byte interval also runs across the other kinds and
across the remaining fields of a compound key.
-/

namespace StellarDb

open Keyspaces

/-! ## Values of one kind -/

namespace Value

/-- Both `Bool`, both `Int`, both `String` or both `Reference`. -/
def sameKind : Value → Value → Bool
  | .bool _, .bool _ | .int _, .int _ | .string _, .string _ | .reference _, .reference _ => true
  | _, _ => false

end Value

theorem natAbs_lt_of_int64 (n : Int64) : n.toInt.natAbs < 10 ^ 20 := by
  have hlo := n.le_toInt
  have hhi := n.toInt_lt
  omega

/-- The encodings of equal text are equal; those of different text are ordered like the text,
whatever follows them. -/
theorem encoded_text_order (a b : String) :
    (compare (utf8 a) (utf8 b) = .eq → a = b) ∧
      (compare (utf8 a) (utf8 b) ≠ .eq → ∀ x y : Bytes,
        compare (tagString :: escapeNul (utf8 a) ++ x) (tagString :: escapeNul (utf8 b) ++ y) =
          compare (utf8 a) (utf8 b)) := by
  refine ⟨fun h => utf8_injective (Std.LawfulEqCmp.eq_of_compare h), fun hne x y => ?_⟩
  have hab : utf8 a ≠ utf8 b := by
    intro h
    rw [h] at hne
    exact hne (compare_bytes_self _)
  have htag : compare tagString tagString = .eq := by decide
  rw [List.cons_append, List.cons_append, List.compare_cons_cons, htag,
    compare_escapeNul hab x y]
  rfl

section Order

variable [External] [Numerics]

omit [External] in
/-- The evaluator compares integers through their decimals. -/
theorem valuesCompare_int (a b : Int64) :
    valuesCompare (.int a) (.int b) = some (compare a.toInt b.toInt) := by
  show some (compare (Decimal.ofInt64 a).toRat (Decimal.ofInt64 b).toRat) = _
  rw [Decimal.toRat_ofInt64, Decimal.toRat_ofInt64]
  refine congrArg some ?_
  rcases lt_trichotomy a.toInt b.toInt with h | h | h
  · rw [compare_lt_iff_lt.mpr h, compare_lt_iff_lt.mpr (Int.cast_lt.mpr h)]
  · rw [h]
    exact (compare_eq_iff_eq.mpr rfl).trans (compare_eq_iff_eq.mpr rfl).symm
  · rw [compare_gt_iff_gt.mpr h, compare_gt_iff_gt.mpr (Int.cast_lt.mpr h)]

/-- Values of one kind: the byte order is the evaluator's order, and settled within the
encodings. -/
theorem sameKind_order {u v : Value} (h : u.sameKind v = true) :
    ∃ o, valuesCompare u v = some o ∧
      (o = .eq → encodeValueOrdered u = encodeValueOrdered v) ∧
      (o ≠ .eq → ∀ x y, compare (encodeValueOrdered u ++ x) (encodeValueOrdered v ++ y) = o) := by
  cases u with
  | bool a =>
    cases v with
    | bool b =>
      refine ⟨compare a b, rfl, fun h => by rw [compare_eq_iff_eq.mp h], fun hne x y => ?_⟩
      revert hne
      cases a <;> cases b
      · exact fun hne => absurd rfl hne
      · exact fun _ => rfl
      · exact fun _ => rfl
      · exact fun hne => absurd rfl hne
    | _ => cases h
  | int a =>
    cases v with
    | int b =>
      have hcmp := compare_encodeI64FixedWidth (natAbs_lt_of_int64 a) (natAbs_lt_of_int64 b)
      refine ⟨_, valuesCompare_int a b, ?_, fun hne x y => ?_⟩
      · intro heq
        rw [encodeValueOrdered, encodeValueOrdered, compare_eq_iff_eq.mp heq]
      · have htag : compare tagNumber tagNumber = .eq := by decide
        have hlen : (encodeI64FixedWidth a.toInt).length = (encodeI64FixedWidth b.toInt).length := by
          rw [encodeI64FixedWidth_length (natAbs_lt_of_int64 a),
            encodeI64FixedWidth_length (natAbs_lt_of_int64 b)]
        rw [encodeValueOrdered, encodeValueOrdered, List.cons_append, List.cons_append,
          List.compare_cons_cons, htag]
        show compare (_ ++ _) (_ ++ _) = _
        rw [compare_append_of_length hlen (by rwa [hcmp]), hcmp]
    | _ => cases h
  | string a =>
    cases v with
    | string b =>
      refine ⟨_, rfl, fun h => by rw [(encoded_text_order a b).1 h], ?_⟩
      exact (encoded_text_order a b).2
    | _ => cases h
  | reference a =>
    cases v with
    | reference b =>
      refine ⟨_, rfl, fun h => by rw [(encoded_text_order a b).1 h], ?_⟩
      exact (encoded_text_order a b).2
    | _ => cases h
  | _ => cases h

end Order

/-! ## Stored documents and the evaluator -/

section Satisfying

variable {Ω : Type} [Numerics] (ctx : EvalContext Ω) (db : Database) (collection : String)

/-- The stored documents that pass all given filters. -/
def Database.satisfying (ps : List (Expr Ω)) : List Document :=
  ((db.docs collection).toList.map (·.2)).filter fun d =>
    ps.all fun p => decide (evalFilter ctx p (.fromDoc d) = .ok true)

variable {ctx db collection}

theorem mem_satisfying {ps : List (Expr Ω)} {d : Document} :
    d ∈ db.satisfying ctx collection ps ↔
      db.Stored collection d ∧ ∀ p ∈ ps, Satisfies ctx (.fromDoc d) p := by
  have hstored : d ∈ (db.docs collection).toList.map (·.2) ↔ db.Stored collection d := by
    rw [List.mem_map]
    refine ⟨?_, fun h => ⟨(d.keyBytes, d), ?_, rfl⟩⟩
    · rintro ⟨⟨k, d'⟩, hmem, rfl⟩
      exact Database.stored_of_docs (Std.ExtTreeMap.mem_toList_iff_getElem?_eq_some.mp hmem)
    · rw [Std.ExtTreeMap.mem_toList_iff_getElem?_eq_some, ← Database.getDocument_eq]
      exact h
  unfold Database.satisfying
  rw [List.mem_filter, hstored]
  simp [Satisfies]

theorem satisfying_keys_nodup (ps : List (Expr Ω)) :
    ((db.satisfying ctx collection ps).map (·.key)).Nodup := by
  unfold Database.satisfying
  refine List.pairwise_map.mpr (List.Pairwise.filter _ (List.pairwise_map.mpr ?_))
  refine (Std.ExtTreeMap.distinct_keys_toList (t := db.docs collection)).imp_of_mem ?_
  intro a b ha hb hab heq
  have hbytes : a.2.keyBytes = b.2.keyBytes := congrArg utf8 heq
  rw [db.keyed (Std.ExtTreeMap.mem_toList_iff_getElem?_eq_some.mp ha),
    db.keyed (Std.ExtTreeMap.mem_toList_iff_getElem?_eq_some.mp hb)] at hbytes
  exact hab (by rw [hbytes]; exact compare_bytes_self _)

/-- A scan with a limit that is not below the number of documents asked for returns these
documents exactly if the entries that pass its test are theirs. -/
theorem entries_perm_iff [External] {index : IndexDef} (hdb : db.IndexExact)
    (hindex : index ∈ db.indexes collection) (hbtree : index.indexType = .btree)
    (test : Bytes → Bool) (ps : List (Expr Ω)) {limit : Nat}
    (hlimit : (db.satisfying ctx collection ps).length ≤ limit) :
    ((db.entriesWhere collection index test).take (limit + 1)).Perm
        ((db.satisfying ctx collection ps).map (·.key)) ↔
      ∀ d, db.Stored collection d →
        (Database.EntryPasses index test d ↔ ∀ p ∈ ps, Satisfies ctx (.fromDoc d) p) := by
  have hnodup := Database.entriesWhere_nodup hdb hindex hbtree test
  have hkeys := @satisfying_keys_nodup Ω _ ctx db collection ps
  -- a limit that cuts leaves too many entries
  have hcut : ((db.entriesWhere collection index test).take (limit + 1)).Perm
        ((db.satisfying ctx collection ps).map (·.key)) ↔
      (db.entriesWhere collection index test).Perm
        ((db.satisfying ctx collection ps).map (·.key)) := by
    refine ⟨fun h => ?_, fun h => ?_⟩
    · have hlen := h.length_eq
      rw [List.length_take, List.length_map] at hlen
      rwa [List.take_of_length_le (by omega)] at h
    · have hlen := h.length_eq
      rw [List.length_map] at hlen
      rwa [List.take_of_length_le (by omega)]
  have hmem : ∀ d, db.Stored collection d →
      (d.key ∈ (db.satisfying ctx collection ps).map (·.key) ↔
        ∀ p ∈ ps, Satisfies ctx (.fromDoc d) p) := by
    intro d hd
    rw [List.mem_map]
    refine ⟨?_, fun h => ⟨d, mem_satisfying.mpr ⟨hd, h⟩, rfl⟩⟩
    rintro ⟨d', hd', hkey⟩
    obtain ⟨hstored, hsat⟩ := mem_satisfying.mp hd'
    rwa [hd.unique hstored hkey.symm]
  rw [hcut, List.perm_ext_iff_of_nodup hnodup hkeys]
  refine ⟨fun h d hd => ?_, fun h id => ?_⟩
  · rw [← Database.key_mem_entriesWhere hdb hindex hbtree hd, h d.key, hmem d hd]
  · rw [Database.mem_entriesWhere hdb hindex hbtree, List.mem_map]
    refine ⟨?_, ?_⟩
    · rintro ⟨d, hd, hpass, rfl⟩
      exact ⟨d, mem_satisfying.mpr ⟨hd, (h d hd).mp hpass⟩, rfl⟩
    · rintro ⟨d, hd, rfl⟩
      obtain ⟨hstored, hsat⟩ := mem_satisfying.mp hd
      exact ⟨d, hstored, (h d hstored).mpr hsat, rfl⟩

end Satisfying

/-! ## Equality lookups -/

namespace Value

/-- The kinds an equality lookup is faithful on. -/
def isPlain : Value → Bool
  | .null | .bool _ | .int _ | .string _ | .reference _ => true
  | _ => false

/-- The kinds of literal an equality lookup is asked with. -/
def isPlainLiteral : Value → Bool
  | .bool _ | .int _ | .string _ => true
  | _ => false

end Value

section Equality

variable [External] [Numerics]

/-- Among values of one kind an encoding is the front of another only if they are equal. -/
theorem sameKind_prefix_iff {u v : Value} (h : u.sameKind v = true) (x : Bytes) :
    encodeValueOrdered v <+: encodeValueOrdered u ++ x ↔ valuesCompare u v = some .eq := by
  obtain ⟨o, ho, heq, hne⟩ := sameKind_order h
  rw [ho, Option.some_inj]
  refine ⟨fun hpre => ?_, fun hoeq => by rw [heq hoeq]; exact List.prefix_append _ _⟩
  by_contra hoeq
  obtain ⟨y, hy⟩ := hpre
  have hcmp := hne hoeq x y
  rw [hy, compare_bytes_self] at hcmp
  exact hoeq hcmp.symm

omit [External] in
theorem sameKind_equal {u v : Value} (h : u.sameKind v = true) :
    valuesCompare u v = some .eq ↔ u.isNull = false ∧ v.isNull = false ∧ valuesEqual u v = true := by
  cases u with
  | bool a =>
    cases v with
    | bool b =>
      show some (compare a b) = some .eq ↔ _ ∧ _ ∧ (a == b) = true
      rw [Option.some_inj, compare_eq_iff_eq]
      simp [Value.isNull]
    | _ => cases h
  | int a =>
    cases v with
    | int b =>
      have hequal : valuesEqual (.int a) (.int b) = decide (a.toInt = b.toInt) := by
        show decide ((Decimal.ofInt64 a).toRat = (Decimal.ofInt64 b).toRat) = _
        rw [Decimal.toRat_ofInt64, Decimal.toRat_ofInt64]
        simp
      rw [valuesCompare_int, hequal, Option.some_inj, compare_eq_iff_eq]
      simp [Value.isNull]
    | _ => cases h
  | string a =>
    cases v with
    | string b =>
      show some (compare (utf8 a) (utf8 b)) = some .eq ↔ _ ∧ _ ∧ (a == b) = true
      rw [Option.some_inj, Std.LawfulEqCmp.compare_eq_iff_eq]
      simp [Value.isNull]
    | _ => cases h
  | reference a =>
    cases v with
    | reference b =>
      show some (compare (utf8 a) (utf8 b)) = some .eq ↔ _ ∧ _ ∧ (a == b) = true
      rw [Option.some_inj, Std.LawfulEqCmp.compare_eq_iff_eq]
      simp [Value.isNull]
    | _ => cases h
  | _ => cases h

/-- The encoded literal is the front of an encoded value exactly if the two are equal. -/
theorem encode_prefix_iff {u v : Value} (hu : u.isPlain = true) (hv : v.isPlainLiteral = true)
    (x : Bytes) :
    encodeValueOrdered v <+: encodeValueOrdered u ++ x ↔
      u.isNull = false ∧ v.isNull = false ∧ valuesEqual u v = true := by
  by_cases hkind : u.sameKind v = true
  · rw [sameKind_prefix_iff hkind, sameKind_equal hkind]
  · by_cases htext : ∃ a b, u = .reference a ∧ v = .string b
    · -- a reference is encoded and compared like the string of its id
      obtain ⟨a, b, rfl, rfl⟩ := htext
      have hstring := sameKind_prefix_iff (u := .string a) (v := .string b) rfl x
      rw [sameKind_equal rfl] at hstring
      exact hstring
    · -- all other pairs differ in their tags
      cases u <;> simp only [Value.isPlain, Bool.false_eq_true] at hu <;>
        cases v <;> simp only [Value.isPlainLiteral, Bool.false_eq_true] at hv <;> first
        | exact absurd rfl hkind
        | exact absurd ⟨_, _, rfl, rfl⟩ htext
        | simp [encodeValueOrdered, tagNull, tagBool, tagNumber, tagString, valuesEqual,
            Value.asDecimal, Value.isNull]

variable {Ω : Type} {ctx : EvalContext Ω} {db : Database} {collection field : String}

omit [External] [Numerics] in
theorem evalField_plain (hfield : '.' ∉ field.toList) (row : Row) :
    evalField ctx row field = .ok ((row.getField field).getD .null) := by
  have hsplit : splitChar '.' field = [field] := by
    unfold splitChar
    rw [List.splitOn_eq_singleton hfield]
    simp
  unfold evalField
  rw [hsplit]
  rfl

omit [Numerics] in
/-- Index and evaluator read a plain field alike, up to the kind of the id. -/
theorem encode_indexFieldValue (hfield : '.' ∉ field.toList) (d : Document) :
    (indexFieldValue d field).map encodeValueOrdered =
      ((Row.fromDoc d).getField field).map encodeValueOrdered := by
  unfold indexFieldValue Row.getField Row.fromDoc
  by_cases hid : field = "id"
  · simp only [hid, if_true]
    rfl
  · simp only [hid, if_false, hfield]

omit [Numerics] in
theorem buildIndexKey_cons {d : Document} {fields : List String} {key : Bytes} :
    buildIndexKey d (field :: fields) = some key ↔
      ∃ w ws, indexFieldValue d field = some w ∧ indexFieldValues d fields = some ws ∧
        key = encodeValueOrdered w ++ (ws.flatMap encodeValueOrdered ++ 0xFF :: utf8 d.key) := by
  unfold buildIndexKey
  rw [indexFieldValues]
  cases indexFieldValue d field with
  | none => simp
  | some w =>
    cases indexFieldValues d fields with
    | none => simp
    | some ws =>
      simp only [Option.map_some, Option.some_inj, encodeIndexKey, List.flatMap_cons,
        List.append_assoc]
      refine ⟨fun h => ⟨w, ws, rfl, rfl, h.symm⟩, ?_⟩
      rintro ⟨w', ws', rfl, rfl, h⟩
      exact h.symm

omit [External] [Numerics] in
theorem indexFieldValues_cons_isSome {d : Document} {fields : List String} :
    (indexFieldValues d (field :: fields)).isSome = true ↔
      ∃ w ws, indexFieldValue d field = some w ∧ indexFieldValues d fields = some ws := by
  rw [indexFieldValues]
  cases indexFieldValue d field <;> cases indexFieldValues d fields <;> simp

/-- An entry passes an equality lookup exactly if the evaluator finds the field equal; an entry
is there exactly if the document has all indexed fields. -/
theorem entryPasses_eq_iff {index : IndexDef} (hlead : [field] <+: index.fields)
    (hfield : '.' ∉ field.toList) {d : Document}
    (hkind : ∀ w, (Row.fromDoc d).getField field = some w → w.isPlain = true) {value : Value}
    (hvalue : value.isPlainLiteral = true) :
    Database.EntryPasses index (BTreeIndex.withPrefix (encodeIndexPrefix [value])) d ↔
      Compares ctx (.fromDoc d) field .eq value ∧
        (indexFieldValues d index.fields).isSome = true := by
  obtain ⟨fields, hfields⟩ := hlead
  rw [List.singleton_append] at hfields
  have henc := encode_indexFieldValue hfield d
  unfold Database.EntryPasses
  rw [← hfields, indexFieldValues_cons_isSome, compares_eq_iff, evalField_plain hfield]
  simp only [buildIndexKey_cons]
  -- the value the evaluator reads, with the encoding the index has
  have hread : ∀ w, indexFieldValue d field = some w → ∃ u, (Row.fromDoc d).getField field = some u ∧
      encodeValueOrdered u = encodeValueOrdered w := by
    intro w hw
    rw [hw, Option.map_some] at henc
    exact Option.map_eq_some_iff.mp henc.symm
  have hfront : encodeIndexPrefix [value] = encodeValueOrdered value := by
    simp [encodeIndexPrefix]
  refine ⟨?_, ?_⟩
  · rintro ⟨key, ⟨w, ws, hw, hws, rfl⟩, htest⟩
    obtain ⟨u, hu, huw⟩ := hread w hw
    have hpre := List.isPrefixOf_iff_prefix.mp htest
    rw [hfront, ← huw, encode_prefix_iff (hkind u hu) hvalue] at hpre
    exact ⟨⟨u, by rw [hu]; rfl, hpre⟩, w, ws, hw, hws⟩
  · rintro ⟨⟨u, hu, heq⟩, w, ws, hw, hws⟩
    obtain ⟨u', hu', huw⟩ := hread w hw
    obtain rfl : u' = u := by simpa [hu'] using hu
    refine ⟨_, ⟨w, ws, hw, hws, rfl⟩, List.isPrefixOf_iff_prefix.mpr ?_⟩
    rw [hfront, ← huw, encode_prefix_iff (hkind u' hu') hvalue]
    exact heq

/-- The keys an equality lookup returns are those of the documents the evaluator finds equal,
each once, exactly if each of these documents has all fields of the index that the lookup
walks: the first BTree index that starts with the field, compound or not. -/
theorem scanIndexEq_agrees_iff (hdb : db.IndexExact) (hfield : '.' ∉ field.toList)
    (hsingle : ∃ i ∈ db.indexes collection, i.indexType = .btree ∧ i.fields = [field])
    (hkinds : ∀ d, db.Stored collection d → ∀ w, (Row.fromDoc d).getField field = some w →
      w.isPlain = true)
    {value : Value} (hvalue : value.isPlainLiteral = true) {limit : Nat}
    (hlimit : (db.satisfying ctx collection
      [.binaryOp (.field field) .eq (.literal value)]).length < limit) :
    (∃ r, db.scanIndexEq collection field value limit = .ok r ∧
      r.docIds.Perm ((db.satisfying ctx collection
        [.binaryOp (.field field) .eq (.literal value)]).map (·.key))) ↔
      ∀ index, Database.btreeLeadBy (db.indexes collection) [field] = some index →
        ∀ d, db.Stored collection d → Compares ctx (.fromDoc d) field .eq value →
          (indexFieldValues d index.fields).isSome = true := by
  obtain ⟨index, hindex⟩ : ∃ index, Database.btreeLeadBy (db.indexes collection) [field] =
      some index := by
    obtain ⟨i, hi, hbtree, hfields⟩ := hsingle
    refine Option.isSome_iff_exists.mp (List.find?_isSome.mpr ⟨i, hi, ?_⟩)
    simp [hbtree, hfields]
  obtain ⟨hmem, hbtree, hlead⟩ := Database.of_btreeLeadBy hindex
  obtain ⟨r, hr, hids⟩ := Database.scanIndexEq_eq hindex limit value
  have hperm := @entries_perm_iff Ω _ ctx db collection _ _ hdb hmem hbtree
    (BTreeIndex.withPrefix (encodeIndexPrefix [value]))
    [.binaryOp (.field field) .eq (.literal value)] _ hlimit.le
  simp only [hr, hindex, Except.ok.injEq, Option.some_inj, exists_eq_left', forall_eq', hids, hperm,
    List.forall_mem_singleton]
  refine forall_congr' fun d => forall_congr' fun hd => ?_
  rw [@entryPasses_eq_iff _ _ Ω ctx _ _ hlead hfield _ (hkinds d hd) _ hvalue]
  exact and_iff_left_iff_imp

end Equality

/-! ## Range lookups -/

/-- A comparison with one or with two literals. -/
inductive RangeQuery where
  | range (op : RangeOp) (value : Value)
  | between (lower : Value) (lowerInclusive : Bool) (upper : Value) (upperInclusive : Bool)

namespace RangeQuery

def bounds : RangeQuery → List (RangeOp × Value)
  | range op value => [(op, value)]
  | between lower lowerInclusive upper upperInclusive =>
    [(if lowerInclusive then .gte else .gt, lower), (if upperInclusive then .lte else .lt, upper)]

/-- The comparisons, as filters on a field. -/
def filters {Ω : Type} (q : RangeQuery) (field : String) : List (Expr Ω) :=
  q.bounds.map fun b => .binaryOp (.field field) b.1.toBinaryOp (.literal b.2)

variable [External]

/-- The scan of the comparison. -/
def scan (db : Database) (collection field : String) (limit : Nat) :
    RangeQuery → Except IndexLookupFailed ScanResult
  | range op value => db.scanIndexRange collection field value op limit
  | between lower lowerInclusive upper upperInclusive =>
    db.scanIndexRangeBetween collection field lower lowerInclusive upper upperInclusive limit

/-- The test of the scan. -/
def test : RangeQuery → Bytes → Bool
  | range op value => BTreeIndex.rangeTest op value
  | between lower lowerInclusive upper upperInclusive =>
    BTreeIndex.betweenTest lower lowerInclusive upper upperInclusive

theorem test_iff (q : RangeQuery) (key : Bytes) :
    q.test key = true ↔ ∀ b ∈ q.bounds, BTreeIndex.rangeTest b.1 b.2 key = true := by
  cases q with
  | range op value => simp [test, bounds]
  | between lower lowerInclusive upper upperInclusive =>
    cases lowerInclusive <;> cases upperInclusive <;>
      simp [test, bounds, BTreeIndex.betweenTest, BTreeIndex.rangeTest, inRange, and_assoc,
        and_comm, and_left_comm]

end RangeQuery

namespace RangeOp

/-- The orderings an operator accepts. -/
def accepts : RangeOp → Ordering → Bool
  | .gt, o => o == .gt
  | .gte, o => o ≠ .lt
  | .lt, o => o == .lt
  | .lte, o => o ≠ .gt

end RangeOp

section Range

variable [External] [Numerics]

omit [Numerics] in
theorem encodeValueOrdered_ne_nil (v : Value) : encodeValueOrdered v ≠ [] := by
  cases v <;> simp [encodeValueOrdered]

omit [Numerics] in
/-- Only arrays and objects start with `0xFF`. -/
theorem sameKind_head {u v : Value} (h : u.sameKind v = true) :
    ∃ b bs, encodeValueOrdered v = b :: bs ∧ b ≠ 0xFF := by
  cases u <;> cases v <;> first
    | exact ⟨_, _, rfl, by decide⟩
    | simp [Value.sameKind] at h

/-- Where the entry of a value of the literal's kind lies: as the evaluator says, except that
an equal value with further fields behind it lies above the literal. -/
theorem rangeTest_sameKind {u v w : Value} {o : Ordering} (h : u.sameKind v = true)
    (ho : valuesCompare u v = some o) (huw : encodeValueOrdered u = encodeValueOrdered w)
    (op : RangeOp) (ws : List Value) (docKey : String) :
    BTreeIndex.rangeTest op v (encodeIndexKey (w :: ws) docKey) = true ↔
      op.accepts o = true ∨ (op = .gt ∧ o = .eq ∧ ws ≠ []) := by
  obtain ⟨o', ho', heq, hne⟩ := sameKind_order h
  obtain rfl : o = o' := Option.some.inj (ho.symm.trans ho')
  obtain ⟨b, bs, hv, hb⟩ := sameKind_head h
  set rest := ws.flatMap encodeValueOrdered ++ 0xFF :: utf8 docKey with hrest
  have hkey : encodeIndexKey (w :: ws) docKey = encodeValueOrdered u ++ rest := by
    rw [huw, hrest, encodeIndexKey, List.flatMap_cons, List.append_assoc]
  have hkv : keyValue (encodeIndexKey (w :: ws) docKey) =
      some (encodeValueOrdered u ++ ws.flatMap encodeValueOrdered) := by
    rw [keyValue_encodeIndexKey, List.flatMap_cons, huw]
  have hsucc := @compare_byteSuccessor b bs hb (encodeValueOrdered u ++ rest)
  rw [← hv] at hsucc
  have hrest_ne : rest ≠ [] := by simp [hrest]
  by_cases hoeq : o = .eq
  · -- equal: the literal is the front of the key
    subst hoeq
    rw [heq rfl] at hkey hkv hsucc
    have hlt := compare_self_append (encodeValueOrdered v) rest hrest_ne
    have hgt : compare (encodeValueOrdered v ++ rest) (encodeValueOrdered v) = .gt := by
      rw [compare_bytes_swap, hlt]
      rfl
    have hle := hsucc.mpr (.inr (List.prefix_append _ _))
    have hfront : (compare (encodeValueOrdered v)
        (encodeValueOrdered v ++ ws.flatMap encodeValueOrdered)).isLT = true ↔ ws ≠ [] := by
      cases ws with
      | nil => simp
      | cons w' ws =>
        have hne : (w' :: ws).flatMap encodeValueOrdered ≠ [] := by
          simp [encodeValueOrdered_ne_nil]
        rw [compare_self_append _ _ hne]
        simp
    cases op with
    | gt =>
      simp only [BTreeIndex.rangeTest, hkey] at hkv ⊢
      simp only [hkv, hlt, Option.any_some, Ordering.isLE, Bool.true_and, hfront]
      simp [RangeOp.accepts]
    | gte => simp [BTreeIndex.rangeTest, hkey, hlt, RangeOp.accepts]
    | lt => simp [BTreeIndex.rangeTest, hkey, hgt, RangeOp.accepts]
    | lte => simp [BTreeIndex.rangeTest, hkey, hle, RangeOp.accepts]
  · -- different: the bytes differ within the two encodings
    have hcmp : ∀ x, compare (encodeValueOrdered u ++ x) (encodeValueOrdered v) = o := by
      intro x
      simpa using hne hoeq x []
    have hswap : ∀ x, compare (encodeValueOrdered v) (encodeValueOrdered u ++ x) = o.swap := by
      intro x
      rw [compare_bytes_swap, hcmp]
    have hpre : ¬ encodeValueOrdered v <+: encodeValueOrdered u ++ rest := by
      rintro ⟨y, hy⟩
      have hself := hne hoeq rest y
      rw [hy, compare_bytes_self] at hself
      exact hoeq hself.symm
    have hle : compare (encodeValueOrdered u ++ rest) (byteSuccessor (encodeValueOrdered v)) = .lt ↔
        o = .lt := by
      rw [hsucc, hcmp]
      simp [hpre]
    have hisLT : ∀ o : Ordering, o.isLT = true ↔ o = .lt := by decide
    cases op with
    | gt =>
      simp only [BTreeIndex.rangeTest, hkey] at hkv ⊢
      simp only [hkv, hswap, Option.any_some]
      cases o <;> simp [RangeOp.accepts] at hoeq ⊢
    | gte =>
      simp only [BTreeIndex.rangeTest, hkey, hswap]
      cases o <;> simp [RangeOp.accepts] at hoeq ⊢
    | lt =>
      simp only [BTreeIndex.rangeTest, hkey, hcmp]
      cases o <;> simp [RangeOp.accepts] at hoeq ⊢
    | lte =>
      simp only [BTreeIndex.rangeTest, hkey, hisLT, hle]
      cases o <;> simp [RangeOp.accepts] at hoeq ⊢

variable {Ω : Type} (ctx : EvalContext Ω) (db : Database) (collection field : String)

omit [External] in
theorem compares_range_iff {ctx : EvalContext Ω} {row : Row} {field : String} {op : RangeOp}
    {value : Value} :
    Compares ctx row field op.toBinaryOp value ↔
      ∃ u o, evalField ctx row field = .ok u ∧ u.isNull = false ∧ value.isNull = false ∧
        valuesCompare u value = some o ∧ op.accepts o = true := by
  have heval : ∀ u : Value, u.isNull = false → value.isNull = false →
      (evalBinary ctx op.toBinaryOp u value).map Value.isTruthy =
        .ok ((valuesCompare u value).any op.accepts) := by
    intro u hu hv
    cases op <;> cases hcmp : valuesCompare u value <;>
      simp [evalBinary, hu, hv, hcmp, RangeOp.toBinaryOp, RangeOp.accepts, Except.map,
        Value.isTruthy]
  have hexpr : evalExpr ctx row (.binaryOp (.field field) op.toBinaryOp (.literal value)) =
      (evalField ctx row field).bind fun u => evalBinary ctx op.toBinaryOp u value := by
    cases op <;> simp only [RangeOp.toBinaryOp, evalExpr] <;> cases evalField ctx row field <;> rfl
  unfold Compares Satisfies evalFilter
  rw [hexpr]
  cases evalField ctx row field with
  | error err => simp [Except.bind, Except.map]
  | ok u =>
    simp only [Except.bind, Except.ok.injEq]
    by_cases hnull : u.isNull = false ∧ value.isNull = false
    · rw [heval u hnull.1 hnull.2]
      simp [hnull, Option.any_eq_true]
    · have hor : (u.isNull || value.isNull) = true := by
        cases hu : u.isNull <;> cases hv : value.isNull <;> simp [hu, hv] at hnull ⊢
      have hne : ¬ ∃ u' o, u = u' ∧ u'.isNull = false ∧ value.isNull = false ∧
          valuesCompare u' value = some o ∧ op.accepts o = true := by
        rintro ⟨u', o, rfl, hu, hv, -⟩
        exact hnull ⟨hu, hv⟩
      refine iff_of_false ?_ hne
      cases op <;> simp [evalBinary, hor, RangeOp.toBinaryOp, Except.map, Value.isTruthy]

/-- The evaluator reads the indexed value, and it is of the literal's kind. -/
def Alike (d : Document) (literal : Value) : Prop :=
  ∃ u w, evalField ctx (.fromDoc d) field = .ok u ∧ indexFieldValue d field = some w ∧
    encodeValueOrdered u = encodeValueOrdered w ∧ u.sameKind literal = true

/-- The entry of a document lies on the side of the literal that the operator asks for. For a
value of the literal's kind this is the evaluator's answer, up to `>` on a compound index; for
any other value it is a matter of the encoded bytes. -/
def Reaches (index : IndexDef) (d : Document) (key : Bytes) (b : RangeOp × Value) : Prop :=
  (Alike ctx field d b.2 ∧
    (Compares ctx (.fromDoc d) field b.1.toBinaryOp b.2 ∨
      (b.1 = .gt ∧ 2 ≤ index.fields.length ∧ Compares ctx (.fromDoc d) field .eq b.2))) ∨
  (¬ Alike ctx field d b.2 ∧ BTreeIndex.rangeTest b.1 b.2 key = true)

/-- The documents for which a range lookup on an index agrees with the evaluator. -/
structure RangeServed (index : IndexDef) (q : RangeQuery) : Prop where
  /-- A document that passes the comparison has all fields of the index. -/
  complete : ∀ d, db.Stored collection d →
    (∀ b ∈ q.bounds, Compares ctx (.fromDoc d) field b.1.toBinaryOp b.2) →
      (indexFieldValues d index.fields).isSome = true
  /-- The entry of a document lies within the bounds exactly if the comparison is true. -/
  agrees : ∀ d, db.Stored collection d → ∀ key, buildIndexKey d index.fields = some key →
    ((∀ b ∈ q.bounds, Reaches ctx field index d key b) ↔
      ∀ b ∈ q.bounds, Compares ctx (.fromDoc d) field b.1.toBinaryOp b.2)

variable {ctx db collection field} {index : IndexDef}

omit [External] [Numerics] in
theorem indexFieldValues_length {d : Document} {fields : List String} {ws : List Value}
    (h : indexFieldValues d fields = some ws) : ws.length = fields.length := by
  induction fields generalizing ws with
  | nil =>
    obtain rfl := Option.some.inj h
    rfl
  | cons f fields ih =>
    rw [indexFieldValues] at h
    cases hv : indexFieldValue d f with
    | none => rw [hv] at h; cases h
    | some v =>
      cases hvs : indexFieldValues d fields with
      | none => rw [hv, hvs] at h; cases h
      | some vs =>
        rw [hv, hvs] at h
        obtain rfl := Option.some.inj h
        rw [List.length_cons, List.length_cons, ih hvs]

theorem rangeTest_iff_reaches (hlead : [field] <+: index.fields) {d : Document} {key : Bytes}
    (hkey : buildIndexKey d index.fields = some key) (b : RangeOp × Value) :
    BTreeIndex.rangeTest b.1 b.2 key = true ↔ Reaches ctx field index d key b := by
  unfold Reaches
  by_cases halike : Alike ctx field d b.2
  · simp only [halike, true_and, not_true_eq_false, false_and, or_false]
    obtain ⟨u, w, hu, hw, huw, hkind⟩ := halike
    obtain ⟨o, ho, -, -⟩ := sameKind_order hkind
    obtain ⟨fields, hfields⟩ := hlead
    rw [List.singleton_append] at hfields
    rw [← hfields] at hkey ⊢
    obtain ⟨w', ws, hw', hws, rfl⟩ := buildIndexKey_cons.mp hkey
    obtain rfl : w = w' := Option.some.inj (hw.symm.trans hw')
    have hlen : 2 ≤ (field :: fields).length ↔ ws ≠ [] := by
      rw [List.length_cons, ← indexFieldValues_length hws, ← List.length_pos_iff]
      omega
    have hnull : u.isNull = false ∧ b.2.isNull = false := by
      cases hb : b.2 <;> cases u <;> simp [Value.sameKind, Value.isNull, hb] at hkind ⊢
    have hcmp : Compares ctx (.fromDoc d) field b.1.toBinaryOp b.2 ↔ b.1.accepts o = true := by
      rw [compares_range_iff, hu]
      simp [hnull, ho]
    have heq : Compares ctx (.fromDoc d) field .eq b.2 ↔ o = .eq := by
      rw [compares_eq_iff, hu]
      simp only [Except.ok.injEq, exists_eq_left']
      rw [← sameKind_equal hkind, ho, Option.some_inj]
    have hentry : encodeValueOrdered w ++ (ws.flatMap encodeValueOrdered ++ 0xFF :: utf8 d.key) =
        encodeIndexKey (w :: ws) d.key := by
      rw [encodeIndexKey, List.flatMap_cons, List.append_assoc]
    rw [hentry, rangeTest_sameKind hkind ho huw, hcmp, hlen, heq]
    exact or_congr_right (and_congr_right' and_comm)
  · simp [halike]

/-- A range lookup returns the documents for which the evaluator makes the comparison true
exactly if the stored documents are served by the index that the lookup walks. -/
theorem rangeScan_agrees_iff (hdb : db.IndexExact)
    (hindex : Database.btreeLeadBy (db.indexes collection) [field] = some index) (q : RangeQuery)
    {limit : Nat} (hlimit : (db.satisfying ctx collection (q.filters field)).length < limit) :
    (∃ r, q.scan db collection field limit = .ok r ∧
      ∀ id, id ∈ r.docIds ↔
        ∃ d ∈ db.satisfying ctx collection (q.filters field), d.key = id) ↔
      RangeServed ctx db collection field index q := by
  obtain ⟨hmem, hbtree, hlead⟩ := Database.of_btreeLeadBy hindex
  have hscan : ∃ r, q.scan db collection field limit = .ok r ∧
      r.docIds = (db.entriesWhere collection index q.test).take (limit + 1) := by
    cases q with
    | range op value => exact Database.scanIndexRange_eq hindex limit value op
    | between lower lowerInclusive upper upperInclusive =>
      exact Database.scanIndexRangeBetween_eq hindex limit lower lowerInclusive upper
        upperInclusive
  obtain ⟨r, hr, hids⟩ := hscan
  have hnodup : r.docIds.Nodup := by
    rw [hids]
    exact (Database.entriesWhere_nodup hdb hmem hbtree q.test).take
  have hset : (∀ id, id ∈ r.docIds ↔
      ∃ d ∈ db.satisfying ctx collection (q.filters field), d.key = id) ↔
      r.docIds.Perm ((db.satisfying ctx collection (q.filters field)).map (·.key)) := by
    rw [List.perm_ext_iff_of_nodup hnodup (satisfying_keys_nodup _)]
    simp only [List.mem_map]
  simp only [hr, Except.ok.injEq, exists_eq_left', hset]
  rw [hids, entries_perm_iff hdb hmem hbtree q.test _ hlimit.le]
  have hfilters : ∀ d, (∀ p ∈ q.filters field, Satisfies ctx (.fromDoc d) p) ↔
      ∀ b ∈ q.bounds, Compares ctx (.fromDoc d) field b.1.toBinaryOp b.2 := by
    intro d
    exact List.forall_mem_map
  have hpasses : ∀ d, Database.EntryPasses index q.test d ↔
      ∃ key, buildIndexKey d index.fields = some key ∧
        ∀ b ∈ q.bounds, Reaches ctx field index d key b := by
    intro d
    refine exists_congr fun key => and_congr_right fun hkey => ?_
    rw [q.test_iff]
    exact forall₂_congr fun b _ => rangeTest_iff_reaches hlead hkey b
  simp only [hfilters, hpasses]
  refine ⟨fun h => ⟨fun d hd hall => ?_, fun d hd key hkey => ?_⟩, fun h d hd => ?_⟩
  · obtain ⟨key, hkey, -⟩ := (h d hd).mpr hall
    obtain ⟨ws, hws, -⟩ := Option.map_eq_some_iff.mp hkey
    rw [hws]
    rfl
  · refine ⟨fun hreach => (h d hd).mp ⟨key, hkey, hreach⟩, fun hall => ?_⟩
    obtain ⟨key', hkey', hreach⟩ := (h d hd).mpr hall
    rwa [Option.some.inj (hkey.symm.trans hkey')]
  · refine ⟨?_, fun hall => ?_⟩
    · rintro ⟨key, hkey, hreach⟩
      exact (h.agrees d hd key hkey).mp hreach
    · obtain ⟨ws, hws⟩ := Option.isSome_iff_exists.mp (h.complete d hd hall)
      have hkey : buildIndexKey d index.fields = some (encodeIndexKey ws d.key) := by
        rw [buildIndexKey, hws]
        rfl
      exact ⟨_, hkey, (h.agrees d hd _ hkey).mpr hall⟩

/-- On a single-field index a range over values of one kind is always served. -/
theorem rangeServed_of_kind (hfields : index.fields = [field]) (hfield : '.' ∉ field.toList)
    {q : RangeQuery} (hkinds : ∀ d, db.Stored collection d → ∀ u,
      (Row.fromDoc d).getField field = some u → ∀ b ∈ q.bounds, u.sameKind b.2 = true) :
    RangeServed ctx db collection field index q := by
  have hsome : ∀ d, (indexFieldValue d field).isSome = ((Row.fromDoc d).getField field).isSome := by
    intro d
    have henc := congrArg Option.isSome (encode_indexFieldValue hfield d)
    rwa [Option.isSome_map, Option.isSome_map] at henc
  refine ⟨fun d hd hall => ?_, fun d hd key hkey => ?_⟩
  · obtain ⟨b, hb⟩ : ∃ b, b ∈ q.bounds := by
      cases q with
      | range op value => exact ⟨_, List.mem_cons_self⟩
      | between lower lowerInclusive upper upperInclusive => exact ⟨_, List.mem_cons_self⟩
    obtain ⟨u, o, hu, hnull, -⟩ := compares_range_iff.mp (hall b hb)
    rw [evalField_plain hfield] at hu
    -- a field that is read as something other than null is there
    have hget : ((Row.fromDoc d).getField field).isSome = true := by
      cases hget : (Row.fromDoc d).getField field with
      | some u' => rfl
      | none =>
        rw [hget] at hu
        obtain rfl := Except.ok.inj hu
        cases hnull
    rw [hfields, indexFieldValues_cons_isSome]
    obtain ⟨w, hw⟩ := Option.isSome_iff_exists.mp ((hsome d).trans hget)
    exact ⟨w, [], hw, rfl⟩
  · rw [hfields] at hkey
    obtain ⟨w, ws, hw, -, -⟩ := buildIndexKey_cons.mp hkey
    obtain ⟨u, hu⟩ := Option.isSome_iff_exists.mp ((hsome d).symm.trans (by rw [hw]; rfl))
    have henc := encode_indexFieldValue hfield d
    rw [hw, hu, Option.map_some, Option.map_some, Option.some_inj] at henc
    have halike : ∀ b ∈ q.bounds, Alike ctx field d b.2 := by
      intro b hb
      exact ⟨u, w, by rw [evalField_plain hfield, hu]; rfl, hw, henc.symm,
        hkinds d hd u hu b hb⟩
    refine forall₂_congr fun b hb => ?_
    simp [Reaches, halike b hb, hfields]

end Range

/-! ## Lookups in an items collection -/

namespace Stock

open Items

local instance : External := .standIn
local instance : Numerics := .standIn

/-- An item without a field `b`. -/
def lone : Document where
  id := "items:1"
  fields := [("a", .int 1)]
  wf := by decide

def single : IndexDef := ⟨"idx_items_btree_a", ["a"], false, .btree⟩

def pair : IndexDef := ⟨"idx_items_btree_a_b", ["a", "b"], false, .btree⟩

/-- An item with a text in `a`. -/
def text : Document where
  id := "items:2"
  fields := [("a", .string "x")]
  wf := by decide

/-- An item with both fields. -/
def full : Document where
  id := "items:3"
  fields := [("a", .int 5), ("b", .int 7)]
  wf := by decide

/-- The indexes in order of creation, and one item. -/
def stock (indexes : List IndexDef) (item : Document) : Database :=
  runWrites (fresh indexes) [.call .none (.create item)]

/-- `a = 1` -/
def aIsOne : Expr Empty := .binaryOp (.field "a") .eq (.literal (.int 1))

theorem stock_indexExact {indexes : List IndexDef}
    (h : ∀ i ∈ indexes, ∀ i' ∈ indexes,
      indexKeyspaceName "items" i.name = indexKeyspaceName "items" i'.name →
        i.fields = i'.fields) (item : Document) :
    (stock indexes item).IndexExact := by
  obtain ⟨hindex, hmarkers⟩ := fresh_indexExact indexes
  have hitems : ∀ c, ∀ i ∈ (fresh indexes).indexes c, c = "items" ∧ i ∈ indexes := by
    intro c i hi
    by_cases hc : c = "items"
    · exact ⟨hc, by simpa [fresh, hc] using hi⟩
    · simp [fresh, hc] at hi
  have hnames : Database.DistinctNames (fresh indexes).indexes := by
    intro c c' i hi i' hi' _ _ hname
    obtain ⟨rfl, hi⟩ := hitems c i hi
    obtain ⟨rfl, hi'⟩ := hitems c' i' hi'
    exact ⟨rfl, h i hi i' hi' hname⟩
  exact (runWrites_indexed ⟨hnames, hindex, hmarkers⟩ _).index

/-- With the compound index created first, the lookup walks it and misses the item. -/
theorem pair_first_misses_lone :
    (stock [pair, single] lone).IndexExact ∧
      ((stock [pair, single] lone).satisfying People.context "items" [aIsOne]).map (·.key) = ["1"] ∧
      ¬ ∃ r, (stock [pair, single] lone).scanIndexEq "items" "a" (.int 1) 10 = .ok r ∧
        r.docIds.Perm (((stock [pair, single] lone).satisfying People.context "items"
          [aIsOne]).map (·.key)) := by
  have hkeys : ((stock [pair, single] lone).satisfying People.context "items" [aIsOne]).map (·.key) =
      ["1"] := by decide +kernel
  refine ⟨stock_indexExact (by decide) lone, hkeys, ?_⟩
  rintro ⟨r, hr, hperm⟩
  have hscan : ((stock [pair, single] lone).scanIndexEq "items" "a" (.int 1) 10).map (·.docIds) =
      .ok [] := by decide +kernel
  rw [hr] at hscan
  have hids : r.docIds = [] := by simpa [Except.map] using hscan
  rw [hids, hkeys] at hperm
  exact absurd hperm.length_eq (by decide)

theorem stored_stock {d : Document} (h : (stock [single, pair] lone).Stored "items" d) :
    d = lone := by
  have hdocs : (stock [single, pair] lone).docs "items" =
      (∅ : Keyspace Document).insert lone.keyBytes lone := rfl
  unfold Database.Stored at h
  rw [Database.getDocument_eq, hdocs, getElem?_insert_eq] at h
  split at h
  · exact (Option.some.inj h).symm
  · simp at h

/-- With the single-field index first, the lookup finds it. -/
theorem single_first_finds_lone :
    (stock [single, pair] lone).IndexExact ∧
    ((∃ r, (stock [single, pair] lone).scanIndexEq "items" "a" (.int 1) 10 = .ok r ∧
      r.docIds.Perm (((stock [single, pair] lone).satisfying People.context "items"
        [aIsOne]).map (·.key))) ↔
      ∀ index, Database.btreeLeadBy ((stock [single, pair] lone).indexes "items") ["a"] =
          some index →
        ∀ d, (stock [single, pair] lone).Stored "items" d →
          Compares People.context (.fromDoc d) "a" .eq (.int 1) →
          (indexFieldValues d index.fields).isSome = true) := by
  have hexact : (stock [single, pair] lone).IndexExact := stock_indexExact (by decide) lone
  refine ⟨hexact, scanIndexEq_agrees_iff hexact (by decide) ⟨single, by decide, rfl, rfl⟩ ?_ rfl
    (by decide +kernel)⟩
  intro d hd w hw
  obtain rfl := stored_stock hd
  obtain rfl : w = .int 1 := (Option.some.inj hw).symm
  rfl

/-- `a > 5` also returns the text, which the evaluator does not compare with a number; and on
the compound index it returns the item with `a = 5`. -/
theorem range_returns_others :
    (stock [single] text).IndexExact ∧
      (stock [single] text).satisfying People.context "items"
        ((RangeQuery.range .gt (.int 5)).filters "a") = [] ∧
      ((RangeQuery.range .gt (.int 5)).scan (stock [single] text) "items" "a" 10).map (·.docIds) =
        .ok ["2"] ∧
    (stock [pair] full).IndexExact ∧
      (stock [pair] full).satisfying People.context "items"
        ((RangeQuery.range .gt (.int 5)).filters "a") = [] ∧
      ((RangeQuery.range .gt (.int 5)).scan (stock [pair] full) "items" "a" 10).map (·.docIds) =
        .ok ["3"] := by
  refine ⟨stock_indexExact (by decide) text, ?_, by decide +kernel,
    stock_indexExact (by decide) full, ?_, by decide +kernel⟩
  · exact List.length_eq_zero_iff.mp (by decide +kernel)
  · exact List.length_eq_zero_iff.mp (by decide +kernel)

/-- `a > 0` over numbers alone. -/
theorem range_finds_lone :
    RangeServed People.context (stock [single, pair] lone) "items" "a" single
      (.range .gt (.int 0)) ∧
    ∃ r, (RangeQuery.range .gt (.int 0)).scan (stock [single, pair] lone) "items" "a" 10 = .ok r ∧
      ∀ id, id ∈ r.docIds ↔ ∃ d ∈ (stock [single, pair] lone).satisfying People.context "items"
        ((RangeQuery.range .gt (.int 0)).filters "a"), d.key = id := by
  have hserved : RangeServed People.context (stock [single, pair] lone) "items" "a" single
      (.range .gt (.int 0)) := by
    refine rangeServed_of_kind rfl (by decide) fun d hd u hu b hb => ?_
    obtain rfl := stored_stock hd
    obtain rfl : u = .int 1 := (Option.some.inj hu).symm
    obtain rfl := List.mem_singleton.mp hb
    rfl
  exact ⟨hserved, (rangeScan_agrees_iff (stock_indexExact (by decide) lone) rfl _
    (by decide +kernel)).mpr hserved⟩

end Stock

end StellarDb
