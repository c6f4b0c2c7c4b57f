import StellarDb.Encoding.Tags
import StellarDb.Query.Comparison

/-!
# StellarDb — the byte order of values other than numbers (`storage/encoding.rs`)

Of the types that hold no number, all but byte strings are encoded so that the bytes are ordered
as `Value::partial_cmp` orders the values. A byte string has its length in front of it, so a
shorter one comes first (`encodedOrder_iff`).
-/

namespace StellarDb

open Keyspaces

/-! ## Words -/

/-- Two parts of one length settle the order, or leave it to what follows them. -/
theorem compare_append_then {a b : Bytes} (hlength : a.length = b.length) (x y : Bytes) :
    compare (a ++ x) (b ++ y) = (compare a b).then (compare x y) := by
  cases hab : compare a b with
  | eq =>
    obtain rfl := Std.LawfulEqCmp.eq_of_compare hab
    rw [compare_append_self]
    rfl
  | lt =>
    rw [compare_append_of_length hlength (by rw [hab]; decide), hab]
    rfl
  | gt =>
    rw [compare_append_of_length hlength (by rw [hab]; decide), hab]
    rfl

/-- Words with the high byte first are ordered as the numbers they hold. -/
theorem compare_bigEndian (n x y : Nat) :
    compare (leBytes n x).reverse (leBytes n y).reverse =
      compare (x % 256 ^ n) (y % 256 ^ n) := by
  induction n generalizing x y with
  | zero =>
    rw [pow_zero, Nat.mod_one, Nat.mod_one]
    rfl
  | succ n ih =>
    have hlength : (leBytes n (x / 256)).reverse.length = (leBytes n (y / 256)).reverse.length := by
      rw [List.length_reverse, List.length_reverse, leBytes_length, leBytes_length]
    have hlow : ∀ x y : Nat, compare [UInt8.ofNat x] [UInt8.ofNat y] =
        compare (x % 256) (y % 256) := by
      intro x y
      have hmod : ∀ x : Nat, UInt8.ofNat x = UInt8.ofNat (x % 256) := by
        intro x
        apply UInt8.toNat_inj.mp
        rw [UInt8.toNat_ofNat', UInt8.toNat_ofNat']
        omega
      rw [List.compare_cons_cons, hmod x, hmod y, compare_ofNat (by omega) (by omega)]
      cases compare (x % 256) (y % 256) <;> rfl
    rw [leBytes, leBytes, List.reverse_cons, List.reverse_cons, compare_append_then hlength, ih,
      hlow, pow_succ', Nat.mod_mul, Nat.mod_mul,
      compare_add_mul (Nat.mod_lt _ (by decide)) (Nat.mod_lt _ (by decide))]

theorem compare_bigEndian_of_lt {n x y : Nat} (hx : x < 256 ^ n) (hy : y < 256 ^ n) :
    compare (leBytes n x).reverse (leBytes n y).reverse = compare x y := by
  rw [compare_bigEndian, Nat.mod_eq_of_lt hx, Nat.mod_eq_of_lt hy]

/-! ## Types without numbers -/

inductive PlainType where
  | bool
  | string
  | reference
  | datetime
  | duration
  | bytes
deriving DecidableEq, Repr

def Value.plainType : Value → Option PlainType
  | .bool _ => some .bool
  | .string _ => some .string
  | .reference _ => some .reference
  | .datetime _ => some .datetime
  | .duration _ => some .duration
  | .bytes _ => some .bytes
  | _ => none

/-- The length that stands in front of a byte string, as `as u32` leaves it. -/
def writtenLength (b : Bytes) : Nat := b.length % 2 ^ 32

/-- Two byte strings have the same length in front of them, or lengths in their own order. -/
def OrderedByLength : Value → Value → Prop
  | .bytes a, .bytes b => writtenLength a = writtenLength b ∨
      compare (writtenLength a) (writtenLength b) = compare a b
  | _, _ => True

instance (v w : Value) : Decidable (OrderedByLength v w) := by
  unfold OrderedByLength
  split <;> infer_instance

section Encodings

variable [External]

theorem compare_bytes_encoding (a b : Bytes) :
    compare (encodeValueOrdered (.bytes a)) (encodeValueOrdered (.bytes b)) =
      (compare (writtenLength a) (writtenLength b)).then (compare a b) := by
  have hself : compare tagBytes tagBytes = .eq := by decide
  have hlength : (u32Be a.length).length = (u32Be b.length).length := by
    unfold u32Be
    rw [List.length_reverse, List.length_reverse, leBytes_length, leBytes_length]
  have hword : compare (u32Be a.length) (u32Be b.length) =
      compare (writtenLength a) (writtenLength b) := compare_bigEndian 4 _ _
  show compare (tagBytes :: (u32Be a.length ++ a)) (tagBytes :: (u32Be b.length ++ b)) = _
  rw [List.compare_cons_cons, hself, compare_append_then hlength, hword]
  rfl

omit [External] in
theorem compare_text_encoding (a b : String) :
    compare (tagString :: escapeNul (utf8 a)) (tagString :: escapeNul (utf8 b)) =
      compare (utf8 a) (utf8 b) := by
  have hself : compare tagString tagString = .eq := by decide
  rw [List.compare_cons_cons, hself]
  by_cases hab : utf8 a = utf8 b
  · rw [hab, compare_bytes_self, compare_bytes_self]
    rfl
  · have hcmp := compare_escapeNul hab [] []
    rw [List.append_nil, List.append_nil] at hcmp
    rw [hcmp]
    rfl

omit [External] in
/-- Behind a tag, words are ordered as their numbers. -/
theorem compare_word_encoding (tag : UInt8) {x y : Nat} (hx : x < 2 ^ 64) (hy : y < 2 ^ 64) :
    compare (tag :: (leBytes 8 x).reverse) (tag :: (leBytes 8 y).reverse) = compare x y := by
  have hself : compare tag tag = .eq := Std.ReflCmp.compare_self
  rw [List.compare_cons_cons, hself, compare_bigEndian_of_lt (by omega) (by omega)]
  rfl

theorem compare_datetime_encoding (a b : Int64) :
    compare (encodeValueOrdered (.datetime a)) (encodeValueOrdered (.datetime b)) =
      compare a.toInt b.toInt := by
  have hrange : ∀ n : Int64, -2 ^ 63 ≤ n.toInt ∧ n.toInt < 2 ^ 63 :=
    fun n => ⟨n.le_toInt, n.toInt_lt⟩
  have ha := hrange a
  have hb := hrange b
  rw [encodeValueOrdered, encodeValueOrdered, compare_word_encoding _ (by omega) (by omega)]
  rcases lt_trichotomy a.toInt b.toInt with h | h | h
  · rw [compare_lt_iff_lt.mpr h, Nat.compare_eq_lt.mpr (by omega)]
  · rw [h, compare_eq_iff_eq.mpr rfl, compare_eq_iff_eq.mpr rfl]
  · rw [compare_gt_iff_gt.mpr h, Nat.compare_eq_gt.mpr (by omega)]

/-- The bytes are in the order of the values exactly when the values are no byte strings, or the
lengths in front of these do not put them in another order. -/
theorem encodedOrder_iff [Numerics] {v w : Value} {type : PlainType}
    (hv : v.plainType = some type) (hw : w.plainType = some type) :
    v.partialCmp w = some (compare (encodeValueOrdered v) (encodeValueOrdered w)) ↔
      OrderedByLength v w := by
  cases v with
  | bool a =>
    cases w with
    | bool b =>
      refine iff_of_true ?_ trivial
      cases a <;> cases b <;> rfl
    | _ => cases hv; cases hw
  | string a =>
    cases w with
    | string b => exact iff_of_true (congrArg some (compare_text_encoding a b).symm) trivial
    | _ => cases hv; cases hw
  | reference a =>
    cases w with
    | reference b => exact iff_of_true (congrArg some (compare_text_encoding a b).symm) trivial
    | _ => cases hv; cases hw
  | datetime a =>
    cases w with
    | datetime b => exact iff_of_true (congrArg some (compare_datetime_encoding a b).symm) trivial
    | _ => cases hv; cases hw
  | duration a =>
    cases w with
    | duration b =>
      refine iff_of_true (congrArg some ?_) trivial
      exact (compare_word_encoding tagDuration a.toNat_lt b.toNat_lt).symm
    | _ => cases hv; cases hw
  | bytes a =>
    cases w with
    | bytes b =>
      rw [compare_bytes_encoding]
      show some (compare a b) = some _ ↔ writtenLength a = writtenLength b ∨ _
      rw [Option.some_inj]
      cases hlength : compare (writtenLength a) (writtenLength b) with
      | eq => exact iff_of_true rfl (.inl (Nat.compare_eq_eq.mp hlength))
      | lt =>
        have hne := (Nat.compare_eq_lt.mp hlength).ne
        exact ⟨fun h => .inr h.symm, fun h => (h.resolve_left hne).symm⟩
      | gt =>
        have hne := (Nat.compare_eq_gt.mp hlength).ne'
        exact ⟨fun h => .inr h.symm, fun h => (h.resolve_left hne).symm⟩
    | _ => cases hv; cases hw
  | _ => cases hv

end Encodings

namespace Crates

local instance : External := .standIn

local instance : Numerics := .standIn

/-- A string is encoded behind its own prefix, zero byte or not. -/
theorem labels_ordered :
    (Value.string "a").partialCmp (.string "a\x00") =
      some (compare (encodeValueOrdered (.string "a")) (encodeValueOrdered (.string "a\x00"))) :=
  (encodedOrder_iff (v := .string "a") (w := .string "a\x00") rfl rfl).mpr trivial

/-- The longer byte string is the smaller one, and comes behind the shorter one. -/
theorem bytes_misordered :
    ¬ ((Value.bytes [2]).partialCmp (.bytes [1, 1]) =
      some (compare (encodeValueOrdered (.bytes [2])) (encodeValueOrdered (.bytes [1, 1])))) := by
  decide

end Crates

end StellarDb
