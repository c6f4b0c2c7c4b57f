import StellarDb.Encoding.Tags
import StellarDb.Indexes.Scan
import StellarDb.Lib.PrefixFree

/-!
# StellarDb — index keys without separators (`storage/encoding.rs`)

`encode_index_key` puts the encodings of its values one after the other, then `0xFF` and the
document key. The encodings are a prefix-free code: fixed widths are told by the tag, text ends in
`00 00`, byte strings and ranges carry a length. So a key determines its values from the front and
its document from the end (`indexKeys_delimited`).

`byte_successor` bounds what begins with a prefix, unless the prefix has no byte that can be
incremented: a row of arrays and objects is encoded as `0xFF` bytes only
(`byteSuccessor_bounds_iff`).
-/

namespace StellarDb

open Keyspaces Codes

/-- The byte strings of a value are short enough for their lengths to be written. -/
def Value.bytesFit : Value → Bool
  | .bytes b => b.length < 2 ^ 32
  | .range start stop => start.bytesFit && stop.bytesFit
  | _ => true

section Encodings

variable [External] {v w : Value}

/-- What the tag says of the width, where it says it. -/
def tagWidth (tag : UInt8) : Nat :=
  if tag = tagNumber then 17
  else if tag = tagDatetime ∨ tag = tagDuration then 9
  else if tag = tagBool then 2
  else 1

theorem encodeValueOrdered_length (htext : tagByte v ≠ tagString) (hbytes : tagByte v ≠ tagBytes)
    (hrange : tagByte v ≠ tagRange) : (encodeValueOrdered v).length = tagWidth (tagByte v) := by
  have hwidth : tagWidth tagNumber = 17 := by decide
  cases v with
  | int n => rw [number_length rfl]; exact hwidth.symm
  | float f => rw [number_length rfl]; exact hwidth.symm
  | decimal d => rw [number_length rfl]; exact hwidth.symm
  | datetime ms =>
    rw [encodeValueOrdered, List.length_cons, List.length_reverse, leBytes_length]
    rfl
  | duration ns =>
    rw [encodeValueOrdered, List.length_cons, List.length_reverse, leBytes_length]
    rfl
  | string s => exact absurd rfl htext
  | reference s => exact absurd rfl htext
  | bytes b => exact absurd rfl hbytes
  | range start stop => exact absurd rfl hrange
  | _ => rfl

omit [External] in
/-- Lengths that are written alike are alike. -/
theorem u32Be_append_inj {m n : Nat} {x y : Bytes} (hm : m < 2 ^ 32) (hn : n < 2 ^ 32)
    (h : u32Be m ++ x = u32Be n ++ y) : m = n ∧ x = y := by
  have hlength : (u32Be m).length = (u32Be n).length := by
    unfold u32Be
    rw [List.length_reverse, List.length_reverse, leBytes_length, leBytes_length]
  obtain ⟨hword, hrest⟩ := List.append_inj h hlength
  have hread := congrArg ofLeBytes (List.reverse_inj.mp hword)
  rw [ofLeBytes_leBytes, ofLeBytes_leBytes, Nat.mod_eq_of_lt (by omega),
    Nat.mod_eq_of_lt (by omega)] at hread
  exact ⟨hread, hrest⟩

/-- Two encodings that begin one text are the same. -/
theorem encodeValueOrdered_front (hv : v.bytesFit = true) (hw : w.bytesFit = true) {x y : Bytes}
    (h : encodeValueOrdered v ++ x = encodeValueOrdered w ++ y) :
    encodeValueOrdered v = encodeValueOrdered w := by
  -- only ranges hold other encodings
  induction v generalizing w x y with
  | range start stop ihstart ihstop =>
    have htag := tagByte_eq_of_append_eq h
    cases w with
    | range start' stop' =>
      simp only [Value.bytesFit, Bool.and_eq_true] at hv hw
      simp only [encodeValueOrdered, List.cons_append, List.append_assoc, List.cons.injEq,
        true_and] at h ⊢
      have hlength : (u32Be (encodeValueOrdered start).length).length =
          (u32Be (encodeValueOrdered start').length).length := by
        unfold u32Be
        rw [List.length_reverse, List.length_reverse, leBytes_length, leBytes_length]
      obtain ⟨hword, hrest⟩ := List.append_inj h hlength
      have hstart := ihstart hv.1 hw.1 hrest
      rw [hstart] at hrest
      have hstop := ihstop hv.2 hw.2 (List.append_cancel_left hrest)
      rw [hstart, hstop]
    | _ => exact absurd htag (by simp only [tagByte]; decide)
  | bytes b =>
    have htag := tagByte_eq_of_append_eq h
    cases w with
    | bytes b' =>
      have hb : b.length < 2 ^ 32 := of_decide_eq_true hv
      have hb' : b'.length < 2 ^ 32 := of_decide_eq_true hw
      simp only [encodeValueOrdered, List.cons_append, List.append_assoc, List.cons.injEq,
        true_and] at h ⊢
      obtain ⟨hlength, hrest⟩ := u32Be_append_inj hb hb' h
      rw [List.append_inj_left hrest hlength]
    | _ => exact absurd htag (by simp only [tagByte]; decide)
  | string s => exact text_front rfl h
  | reference s => exact text_front rfl h
  | _ =>
    have htag := tagByte_eq_of_append_eq h
    refine List.append_inj_left h ?_
    rw [encodeValueOrdered_length (by simp only [tagByte]; decide) (by simp only [tagByte]; decide)
      (by simp only [tagByte]; decide), htag, encodeValueOrdered_length]
    all_goals
      rw [← htag]
      simp only [tagByte]
      decide

/-- The encodings of the values whose byte strings fit. -/
def orderedCode : Set Bytes :=
  {bs | ∃ v : Value, v.bytesFit = true ∧ encodeValueOrdered v = bs}

theorem orderedCode_prefixFree : PrefixFree orderedCode := by
  intro a ⟨v, hv, ha⟩ b ⟨w, hw, hb⟩ ⟨rest, hrest⟩
  subst ha hb
  apply encodeValueOrdered_front hv hw (x := rest) (y := [])
  rw [hrest, List.append_nil]

/-! ## Keys -/

theorem mem_orderedCode {vs : List Value} (hfit : ∀ v ∈ vs, v.bytesFit = true) :
    ∀ bs ∈ vs.map encodeValueOrdered, bs ∈ orderedCode := by
  intro bs hbs
  obtain ⟨v, hv, rfl⟩ := List.mem_map.mp hbs
  exact ⟨v, hfit v hv, rfl⟩

variable {vs ws : List Value}

theorem encodeIndexPrefix_eq (vs : List Value) :
    encodeIndexPrefix vs = (vs.map encodeValueOrdered).flatten := by
  rw [encodeIndexPrefix, List.flatMap_def]

theorem encodeIndexKey_eq (vs : List Value) (k : String) :
    encodeIndexKey vs k = (vs.map encodeValueOrdered).flatten ++ 0xFF :: utf8 k := by
  rw [encodeIndexKey, List.flatMap_def]

/-- The first values of a key are told from its front. -/
theorem encodeIndexPrefix_prefix_iff (hvs : ∀ v ∈ vs, v.bytesFit = true)
    (hws : ∀ w ∈ ws, w.bytesFit = true) (hlength : vs.length ≤ ws.length) (k : String) :
    encodeIndexPrefix vs <+: encodeIndexKey ws k ↔
      List.Forall₂ (fun v w => encodeValueOrdered v = encodeValueOrdered w) vs
        (ws.take vs.length) := by
  rw [encodeIndexPrefix_eq, encodeIndexKey_eq,
    orderedCode_prefixFree.flatten_prefix_iff (mem_orderedCode hvs) (mem_orderedCode hws)
      (by simpa using hlength),
    List.prefix_iff_eq_take, List.length_map, ← List.map_take, ← List.forall₂_eq_eq_eq,
    List.forall₂_map_left_iff, List.forall₂_map_right_iff]

/-- Keys with as many values are ordered by the encodings, and then by the documents. -/
theorem compare_encodeIndexKey (hvs : ∀ v ∈ vs, v.bytesFit = true)
    (hws : ∀ w ∈ ws, w.bytesFit = true) (hlength : vs.length = ws.length) (k l : String) :
    compare (encodeIndexKey vs k) (encodeIndexKey ws l) =
      (compare (vs.map encodeValueOrdered) (ws.map encodeValueOrdered)).then
        (compare (utf8 k) (utf8 l)) := by
  have hself : compare (0xFF : UInt8) 0xFF = .eq := by decide
  rw [encodeIndexKey_eq, encodeIndexKey_eq,
    orderedCode_prefixFree.compare_flatten (mem_orderedCode hvs) (mem_orderedCode hws)
      (by simpa using hlength),
    List.compare_cons_cons, hself]
  rfl

/-- Index keys are self-delimiting. -/
theorem indexKeys_delimited (hvs : ∀ v ∈ vs, v.bytesFit = true)
    (hws : ∀ w ∈ ws, w.bytesFit = true) (k l : String) :
    (∀ v w : Value, v.bytesFit = true → w.bytesFit = true →
      encodeValueOrdered v <+: encodeValueOrdered w →
        encodeValueOrdered v = encodeValueOrdered w) ∧
    (vs.length ≤ ws.length ∧ encodeIndexPrefix vs <+: encodeIndexKey ws k ↔
      List.Forall₂ (fun v w => encodeValueOrdered v = encodeValueOrdered w) vs
        (ws.take vs.length)) ∧
    (vs.length = ws.length →
      compare (encodeIndexKey vs k) (encodeIndexKey ws l) =
        (compare (vs.map encodeValueOrdered) (ws.map encodeValueOrdered)).then
          (compare (utf8 k) (utf8 l))) ∧
    extractDocKey (encodeIndexKey vs k) = some k := by
  refine ⟨?_, ?_, fun hlength => compare_encodeIndexKey hvs hws hlength k l,
    extractDocKey_encodeIndexKey vs k⟩
  · intro v w hv hw h
    exact orderedCode_prefixFree _ ⟨v, hv, rfl⟩ _ ⟨w, hw, rfl⟩ h
  · constructor
    · intro ⟨hlength, h⟩
      exact (encodeIndexPrefix_prefix_iff hvs hws hlength k).mp h
    · intro h
      have hlength : vs.length ≤ ws.length := by
        have := h.length_eq
        rw [List.length_take] at this
        omega
      exact ⟨hlength, (encodeIndexPrefix_prefix_iff hvs hws hlength k).mpr h⟩

end Encodings

namespace Drawers

local instance : External := .standIn

/-- The string with a zero byte at its end is found in front of a negative integer. -/
theorem labels_delimited :
    encodeIndexPrefix [.string "a\x00"] <+: encodeIndexKey [.string "a\x00", .int (-1)] "k" ∧
      extractDocKey (encodeIndexKey [.string "a\x00", .int (-1)] "k") = some "k" := by
  obtain ⟨-, hfront, -, -⟩ :=
    @indexKeys_delimited _ [.string "a\x00"] [.string "a\x00", .int (-1)] (by decide) (by decide)
      "k" "k"
  obtain ⟨-, -, -, hkey⟩ :=
    @indexKeys_delimited _ [.string "a\x00", .int (-1)] [] (by decide) (by decide) "k" "k"
  exact ⟨(hfront.mpr (.cons rfl .nil)).2, hkey⟩

end Drawers

/-! ## The successor of a prefix -/

/-- The half-open range from `b` to `s` holds what begins with `b`, and nothing else. -/
structure BoundsPrefix (b s : Bytes) : Prop where
  below : ∀ k, b <+: k → compare k s = .lt
  within : ∀ k, compare b k ≠ .gt → compare k s = .lt → b <+: k

theorem incrementLast_eq_none_iff {bs : Bytes} :
    incrementLast bs = none ↔ ∀ b ∈ bs, b = 0xFF := by
  induction bs with
  | nil => exact iff_of_true rfl fun _ h => by cases h
  | cons b bs ih =>
    rw [incrementLast, List.forall_mem_cons]
    cases hinc : incrementLast bs with
    | some bs' =>
      rw [hinc] at ih
      exact iff_of_false (fun h => by cases h) fun h => by cases ih.mpr h.2
    | none =>
      rw [hinc] at ih
      show (if b < 0xFF then some [b + 1] else none) = none ↔ _
      by_cases hb : b = 0xFF
      · subst hb
        exact iff_of_true rfl ⟨rfl, ih.mp rfl⟩
      · rw [if_pos (lt_ff_of_ne hb)]
        exact iff_of_false (fun h => by cases h) fun h => hb h.1

/-- A byte that can be incremented makes the bound. -/
theorem boundsPrefix_byteSuccessor_iff (bs : Bytes) :
    BoundsPrefix bs (byteSuccessor bs) ↔ ∃ b ∈ bs, b ≠ 0xFF := by
  unfold byteSuccessor
  cases hinc : incrementLast bs with
  | none =>
    -- with `0x00` behind it the bound is itself one of the extensions
    refine iff_of_false (fun h => ?_) ?_
    · have hself := h.below (bs ++ [0x00]) (List.prefix_append bs [0x00])
      rw [Option.getD_none, compare_bytes_self] at hself
      cases hself
    · intro ⟨b, hb, hne⟩
      exact hne (incrementLast_eq_none_iff.mp hinc b hb)
  | some s =>
    refine iff_of_true ⟨?_, ?_⟩ ?_
    · intro k hk
      exact (compare_incrementLast hinc k).mpr (.inr hk)
    · intro k hle hlt
      rcases (compare_incrementLast hinc k).mp hlt with hk | hk
      · rw [compare_bytes_swap, hk] at hle
        exact absurd rfl hle
      · exact hk
    · by_contra hall
      simp only [not_exists, not_and, not_not] at hall
      rw [incrementLast_eq_none_iff.mpr hall] at hinc
      cases hinc

def Value.isContainer : Value → Bool
  | .array _ | .object _ => true
  | _ => false

section Bounds

variable [External]

theorem exists_ne_ff_iff (v : Value) :
    (∃ b ∈ encodeValueOrdered v, b ≠ 0xFF) ↔ v.isContainer = false := by
  cases v with
  | array vs => exact iff_of_false (by simp [encodeValueOrdered]) fun h => by cases h
  | object es => exact iff_of_false (by simp [encodeValueOrdered]) fun h => by cases h
  | _ =>
    -- the tag is such a byte
    refine iff_of_true ⟨_, List.mem_of_mem_head? (head_encodeValueOrdered _), ?_⟩ rfl
    simp only [tagByte]
    decide

/-- `byte_successor` bounds the keys with a prefix exactly when not all values of the prefix are
arrays and objects. -/
theorem byteSuccessor_bounds_iff (vs : List Value) :
    BoundsPrefix (encodeIndexPrefix vs) (byteSuccessor (encodeIndexPrefix vs)) ↔
      ∃ v ∈ vs, v.isContainer = false := by
  rw [boundsPrefix_byteSuccessor_iff, encodeIndexPrefix]
  constructor
  · intro ⟨b, hb, hne⟩
    obtain ⟨v, hv, hbv⟩ := List.mem_flatMap.mp hb
    exact ⟨v, hv, (exists_ne_ff_iff v).mp ⟨b, hbv, hne⟩⟩
  · intro ⟨v, hv, hcontainer⟩
    obtain ⟨b, hb, hne⟩ := (exists_ne_ff_iff v).mpr hcontainer
    exact ⟨b, List.mem_flatMap.mpr ⟨v, hv, hb⟩, hne⟩

end Bounds

namespace Drawers

/-- The key of a document whose field is an empty array begins with the prefix and does not lie
below its successor. -/
theorem box_beyond :
    ¬ BoundsPrefix (@encodeIndexPrefix .standIn [.array []])
      (byteSuccessor (@encodeIndexPrefix .standIn [.array []])) := by
  intro h
  have hbelow := h.below (@encodeIndexKey .standIn [.array []] "a") (by decide)
  revert hbelow
  decide

end Drawers

end StellarDb
