import Mathlib.Data.List.Sort
import StellarDb.Lib.Window
import StellarDb.Query.Comparison
import StellarDb.Query.Operators

/-!
# StellarDb — the order of `ORDER BY` (`operators/accumulator.rs`, `operators/sort.rs`)

`compare_value_inner` goes by the kind first, then by the value; everything its match does not
name is equal to everything of its kind. What is asked of it on a set of values is a total
preorder, the answer of `Value::partial_cmp` wherever that has one, and a stable sort
(`OrdersValues`, `FollowsPartialCmp`, `SortsRows`).

Two things stand in the way. References, datetimes, durations and byte strings have an order in
`Value::partial_cmp` and fall through the match here. And a double is compared with a double by
its bits, with any other number by its decimal, which keeps fewer digits or is not there at all.
`ToldApart` says when neither happens (`value_order_iff`).
-/

namespace StellarDb

open Keyspaces Pulling

namespace Value

/-! ## Kinds of values -/

/-- The value of an `Int` or a `Decimal`. -/
def decimalNumber : Value → Option ℚ
  | .int n => some n.toInt
  | .decimal d => some d.toRat
  | _ => none

def isNan : Value → Bool
  | .float f => f.isNan
  | _ => false

/-- Ordered by `Value::partial_cmp`, but not named in the match of `compare_value_inner`. -/
def fallsThrough : Value → Bool
  | .reference _ | .datetime _ | .duration _ | .bytes _ => true
  | _ => false

theorem eq_bool_of_typePriority {v : Value} (h : v.typePriority = 1) : ∃ b, v = .bool b := by
  cases v with
  | bool b => exact ⟨b, rfl⟩
  | _ => cases h

theorem eq_string_of_typePriority {v : Value} (h : v.typePriority = 3) : ∃ s, v = .string s := by
  cases v with
  | string s => exact ⟨s, rfl⟩
  | _ => cases h

/-- A number is an exact one or a double. -/
theorem number_of_typePriority {v : Value} (h : v.typePriority = 2) :
    (∃ x, v.decimalNumber = some x) ∨ ∃ f, v = .float f := by
  cases v with
  | int n => exact Or.inl ⟨_, rfl⟩
  | decimal d => exact Or.inl ⟨_, rfl⟩
  | float f => exact Or.inr ⟨f, rfl⟩
  | _ => cases h

theorem typePriority_of_decimalNumber {v : Value} {x : ℚ} (h : v.decimalNumber = some x) :
    v.typePriority = 2 := by
  cases v with
  | int n => rfl
  | decimal d => rfl
  | _ => cases h

/-! ## What `compare_value_inner` answers -/

section Compare

variable [Numerics]

/-- How a double compares with an exact number: by its decimal, and equal without one. -/
def sideOf (f : F64) (x : ℚ) : Ordering :=
  match Numerics.decimalOfF64 f with
  | some d => compare d.toRat x
  | none => .eq

theorem compareInner_of_ne {a b : Value} (h : a.typePriority ≠ b.typePriority) :
    a.compareInner b = compare a.typePriority b.typePriority := if_pos h

theorem compareInner_bool (a b : Bool) :
    (Value.bool a).compareInner (.bool b) = compare a b := rfl

theorem compareInner_string (a b : String) :
    (Value.string a).compareInner (.string b) = compare (utf8 a) (utf8 b) := rfl

theorem compareInner_exact {a b : Value} {x y : ℚ} (ha : a.decimalNumber = some x)
    (hb : b.decimalNumber = some y) : a.compareInner b = compare x y := by
  cases a <;> cases ha <;> cases b <;> cases hb
  · exact (compare_intCast _ _).symm
  · show compare (Decimal.ofInt64 _).toRat (Decimal.toRat _) = _
    rw [Decimal.toRat_ofInt64]
  · show compare (Decimal.toRat _) (Decimal.ofInt64 _).toRat = _
    rw [Decimal.toRat_ofInt64]
  · rfl

theorem compareInner_float {f g : F64} (hf : f.isNan = false) (hg : g.isNan = false) :
    (Value.float f).compareInner (.float g) = compare f.rank g.rank := by
  show (F64.partialCmp f g).getD .eq = _
  unfold F64.partialCmp
  rw [hf, hg]
  rfl

theorem compareInner_float_exact {f : F64} {b : Value} {x : ℚ} (hb : b.decimalNumber = some x) :
    (Value.float f).compareInner b = sideOf f x := by
  unfold sideOf
  cases b with
  | int n =>
    cases hb
    show (numericCmp (.float f) (.int n)).getD .eq = _
    unfold numericCmp asDecimal
    dsimp only
    cases Numerics.decimalOfF64 f with
    | none => rfl
    | some d =>
      show compare d.toRat (Decimal.ofInt64 n).toRat = _
      rw [Decimal.toRat_ofInt64]
  | decimal e =>
    cases hb
    show (numericCmp (.float f) (.decimal e)).getD .eq = _
    unfold numericCmp asDecimal
    dsimp only
    cases Numerics.decimalOfF64 f <;> rfl
  | _ => cases hb

theorem compareInner_exact_float {f : F64} {a : Value} {x : ℚ} (ha : a.decimalNumber = some x) :
    a.compareInner (.float f) = (sideOf f x).swap := by
  unfold sideOf
  cases a with
  | int n =>
    cases ha
    show (numericCmp (.int n) (.float f)).getD .eq = _
    unfold numericCmp asDecimal
    dsimp only
    cases Numerics.decimalOfF64 f with
    | none => rfl
    | some d =>
      show compare (Decimal.ofInt64 n).toRat d.toRat = (compare d.toRat (n.toInt : ℚ)).swap
      rw [Decimal.toRat_ofInt64]
      exact Std.OrientedCmp.eq_swap
  | decimal e =>
    cases ha
    show (numericCmp (.decimal e) (.float f)).getD .eq = _
    unfold numericCmp asDecimal
    dsimp only
    cases Numerics.decimalOfF64 f with
    | none => rfl
    | some d =>
      show compare e.toRat d.toRat = (compare d.toRat e.toRat).swap
      exact Std.OrientedCmp.eq_swap
  | _ => cases ha

/-- Whatever the match does not name is equal to the others of its kind. -/
theorem compareInner_other {a b : Value} (h : a.typePriority = b.typePriority)
    (h1 : a.typePriority ≠ 1) (h2 : a.typePriority ≠ 2) (h3 : a.typePriority ≠ 3) :
    a.compareInner b = .eq := by
  cases a with
  | bool x => exact absurd rfl h1
  | int n => exact absurd rfl h2
  | float f => exact absurd rfl h2
  | decimal d => exact absurd rfl h2
  | string s => exact absurd rfl h3
  | _ => cases b <;> first | rfl | cases h

theorem compareInner_swap {a b : Value} (ha : a.isNan = false) (hb : b.isNan = false) :
    b.compareInner a = (a.compareInner b).swap := by
  by_cases hkind : a.typePriority = b.typePriority
  · by_cases h1 : a.typePriority = 1
    · obtain ⟨x, rfl⟩ := eq_bool_of_typePriority h1
      obtain ⟨y, rfl⟩ := eq_bool_of_typePriority (hkind.symm.trans h1)
      show compare y x = (compare x y).swap
      exact Std.OrientedCmp.eq_swap
    by_cases h3 : a.typePriority = 3
    · obtain ⟨s, rfl⟩ := eq_string_of_typePriority h3
      obtain ⟨t, rfl⟩ := eq_string_of_typePriority (hkind.symm.trans h3)
      show compare (utf8 t) (utf8 s) = (compare (utf8 s) (utf8 t)).swap
      exact Std.OrientedCmp.eq_swap
    by_cases h2 : a.typePriority = 2
    · rcases number_of_typePriority h2 with ⟨x, hx⟩ | ⟨f, rfl⟩ <;>
        rcases number_of_typePriority (hkind.symm.trans h2) with ⟨y, hy⟩ | ⟨g, rfl⟩
      · rw [compareInner_exact hy hx, compareInner_exact hx hy]
        exact Std.OrientedCmp.eq_swap
      · rw [compareInner_float_exact hx, compareInner_exact_float hx, Ordering.swap_swap]
      · rw [compareInner_float_exact hy, compareInner_exact_float hy]
      · rw [compareInner_float ha hb, compareInner_float hb ha]
        exact Std.OrientedCmp.eq_swap
    · rw [compareInner_other hkind h1 h2 h3, compareInner_other hkind.symm
        (hkind ▸ h1) (hkind ▸ h2) (hkind ▸ h3)]
      rfl
  · rw [compareInner_of_ne hkind, compareInner_of_ne (Ne.symm hkind)]
    exact Std.OrientedCmp.eq_swap

end Compare

/-! ## Where the doubles stand among the exact numbers -/

variable [Numerics]

/-- Doubles and exact numbers do not get in each other's way: the decimals of two doubles lie on
different sides of an exact number, or on the same strict side, as the doubles do. -/
structure DoublesApart (S : Set Value) : Prop where
  /-- A double without a decimal is equal to every exact number. -/
  converted : ∀ f, .float f ∈ S → Numerics.decimalOfF64 f = none →
    ∀ a ∈ S, ∀ b ∈ S, ∀ x y, a.decimalNumber = some x → b.decimalNumber = some y → x = y
  between : ∀ f g, .float f ∈ S → .float g ∈ S → f.rank < g.rank →
    ∀ a ∈ S, ∀ x, a.decimalNumber = some x → sideOf f x = .lt ∨ sideOf g x = .gt
  /-- The two zeros. -/
  same : ∀ f g, .float f ∈ S → .float g ∈ S → f.rank = g.rank →
    ∀ a ∈ S, ∀ x, a.decimalNumber = some x → sideOf f x = sideOf g x

/-- `compare_value_inner` is a total preorder on these values. -/
def OrdersValues (S : Set Value) : Prop :=
  Std.TransCmp fun a b : S => a.1.compareInner b.1

variable {S : Set Value}

theorem sideOf_eq {f : F64} {x : ℚ} : sideOf f x =
    match Numerics.decimalOfF64 f with
    | some d => compare d.toRat x
    | none => .eq := rfl

/-- The further up the number, the further down the double. -/
theorem sideOf_lt_of_le {f : F64} {x y : ℚ} (hle : x ≤ y) (h : sideOf f x = .lt) :
    sideOf f y = .lt := by
  rw [sideOf_eq] at h ⊢
  cases hd : Numerics.decimalOfF64 f with
  | none =>
    rw [hd] at h
    cases h
  | some d =>
    rw [hd] at h
    exact compare_lt_iff_lt.mpr ((compare_lt_iff_lt.mp h).trans_le hle)

theorem sideOf_gt_of_le {f : F64} {x y : ℚ} (hle : x ≤ y) (h : sideOf f y = .gt) :
    sideOf f x = .gt := by
  rw [sideOf_eq] at h ⊢
  cases hd : Numerics.decimalOfF64 f with
  | none =>
    rw [hd] at h
    cases h
  | some d =>
    rw [hd] at h
    exact compare_gt_iff_gt.mpr (hle.trans_lt (compare_gt_iff_gt.mp h))

/-- Three numbers are ordered. -/
theorem compareInner_trans_numbers (hnan : ∀ v ∈ S, v.isNan = false) (h : DoublesApart S)
    {a b c : Value} (ha : a ∈ S) (hb : b ∈ S) (hc : c ∈ S) (hpa : a.typePriority = 2)
    (hpb : b.typePriority = 2) (hpc : c.typePriority = 2)
    (hab : a.compareInner b ≠ .gt) (hbc : b.compareInner c ≠ .gt) : a.compareInner c ≠ .gt := by
  rcases number_of_typePriority hpa with ⟨x, hx⟩ | ⟨f, rfl⟩ <;>
    rcases number_of_typePriority hpb with ⟨y, hy⟩ | ⟨g, rfl⟩ <;>
    rcases number_of_typePriority hpc with ⟨z, hz⟩ | ⟨k, rfl⟩
  · rw [compareInner_exact hx hy, compare_le_iff_le] at hab
    rw [compareInner_exact hy hz, compare_le_iff_le] at hbc
    rw [compareInner_exact hx hz, compare_le_iff_le]
    exact hab.trans hbc
  · rw [compareInner_exact hx hy, compare_le_iff_le] at hab
    rw [compareInner_exact_float hy, Ne, Ordering.swap_eq_gt] at hbc
    rw [compareInner_exact_float hx, Ne, Ordering.swap_eq_gt]
    exact fun hlt => hbc (sideOf_lt_of_le hab hlt)
  · rw [compareInner_exact_float hx, Ne, Ordering.swap_eq_gt, sideOf_eq] at hab
    rw [compareInner_float_exact hz, sideOf_eq] at hbc
    rw [compareInner_exact hx hz, compare_le_iff_le]
    cases hd : Numerics.decimalOfF64 g with
    | none => exact (h.converted g hb hd a ha c hc x z hx hz).le
    | some d =>
      rw [hd] at hab hbc
      exact (compare_ge_iff_ge.mp hab).trans (compare_le_iff_le.mp hbc)
  · rw [compareInner_exact_float hx, Ne, Ordering.swap_eq_gt] at hab ⊢
    rw [compareInner_float (hnan _ hb) (hnan _ hc), compare_le_iff_le] at hbc
    rcases hbc.lt_or_eq with hlt | heq
    · rcases h.between g k hb hc hlt a ha x hx with hside | hside
      · exact absurd hside hab
      · rw [hside]
        exact nofun
    · rwa [← h.same g k hb hc heq a ha x hx]
  · rw [compareInner_float_exact hy] at hab
    rw [compareInner_exact hy hz, compare_le_iff_le] at hbc
    rw [compareInner_float_exact hz]
    exact fun hgt => hab (sideOf_gt_of_le hbc hgt)
  · rw [compareInner_float_exact hy] at hab
    rw [compareInner_exact_float hy, Ne, Ordering.swap_eq_gt] at hbc
    rw [compareInner_float (hnan _ ha) (hnan _ hc), compare_le_iff_le]
    by_contra hgt
    rcases h.between k f hc ha (not_le.mp hgt) b hb y hy with hside | hside
    · exact hbc hside
    · exact hab hside
  · rw [compareInner_float (hnan _ ha) (hnan _ hb), compare_le_iff_le] at hab
    rw [compareInner_float_exact hz] at hbc ⊢
    rcases hab.lt_or_eq with hlt | heq
    · rcases h.between f g ha hb hlt c hc z hz with hside | hside
      · rw [hside]
        exact nofun
      · exact absurd hside hbc
    · rwa [h.same f g ha hb heq c hc z hz]
  · rw [compareInner_float (hnan _ ha) (hnan _ hb), compare_le_iff_le] at hab
    rw [compareInner_float (hnan _ hb) (hnan _ hc), compare_le_iff_le] at hbc
    rw [compareInner_float (hnan _ ha) (hnan _ hc), compare_le_iff_le]
    exact hab.trans hbc

theorem compareInner_trans (hnan : ∀ v ∈ S, v.isNan = false) (h : DoublesApart S) {a b c : Value}
    (ha : a ∈ S) (hb : b ∈ S) (hc : c ∈ S) (hab : a.compareInner b ≠ .gt)
    (hbc : b.compareInner c ≠ .gt) : a.compareInner c ≠ .gt := by
  have hkind : ∀ {v w : Value}, v.compareInner w ≠ .gt → v.typePriority ≤ w.typePriority := by
    intro v w hvw
    by_cases heq : v.typePriority = w.typePriority
    · exact heq.le
    · rwa [compareInner_of_ne heq, compare_le_iff_le] at hvw
  by_cases hac : a.typePriority = c.typePriority
  · -- then `b` is of the same kind
    have hpb : b.typePriority = a.typePriority := by
      have := hkind hab
      have := hkind hbc
      omega
    by_cases h1 : a.typePriority = 1
    · obtain ⟨x, rfl⟩ := eq_bool_of_typePriority h1
      obtain ⟨y, rfl⟩ := eq_bool_of_typePriority (hpb.trans h1)
      obtain ⟨z, rfl⟩ := eq_bool_of_typePriority (hac.symm.trans h1)
      rw [compareInner_bool, compare_le_iff_le] at *
      exact hab.trans hbc
    by_cases h3 : a.typePriority = 3
    · obtain ⟨s, rfl⟩ := eq_string_of_typePriority h3
      obtain ⟨t, rfl⟩ := eq_string_of_typePriority (hpb.trans h3)
      obtain ⟨u, rfl⟩ := eq_string_of_typePriority (hac.symm.trans h3)
      rw [compareInner_string] at *
      exact Ordering.ne_gt_iff_isLE.mpr (Std.TransCmp.isLE_trans
        (Ordering.ne_gt_iff_isLE.mp hab) (Ordering.ne_gt_iff_isLE.mp hbc))
    by_cases h2 : a.typePriority = 2
    · exact compareInner_trans_numbers hnan h ha hb hc h2 (hpb.trans h2) (hac.symm.trans h2) hab hbc
    · rw [compareInner_other hac h1 h2 h3]
      exact nofun
  · rw [compareInner_of_ne hac, compare_le_iff_le]
    exact (hkind hab).trans (hkind hbc)

/-- All values are ordered as soon as the numbers are. -/
theorem ordersValues_iff (hnan : ∀ v ∈ S, v.isNan = false) : OrdersValues S ↔ DoublesApart S := by
  constructor
  · intro h
    have hle : ∀ a ∈ S, ∀ b ∈ S, ∀ c ∈ S, a.compareInner b ≠ .gt → b.compareInner c ≠ .gt →
        a.compareInner c ≠ .gt := by
      intro a ha b hb c hc hab hbc
      exact Ordering.ne_gt_iff_isLE.mpr (h.isLE_trans (a := ⟨a, ha⟩) (b := ⟨b, hb⟩)
        (c := ⟨c, hc⟩) (Ordering.ne_gt_iff_isLE.mp hab) (Ordering.ne_gt_iff_isLE.mp hbc))
    refine ⟨fun f hf hnone a ha b hb x y hx hy => ?_, fun f g hf hg hlt a ha x hx => ?_,
      fun f g hf hg heq a ha x hx => ?_⟩
    · -- the double is equal to both
      have hside : ∀ z, sideOf f z = .eq := fun z => by rw [sideOf_eq, hnone]
      have hmid : ∀ u ∈ S, ∀ v ∈ S, ∀ p q, u.decimalNumber = some p → v.decimalNumber = some q →
          p ≤ q := by
        intro u hu v hv p q hp hq
        have := hle u hu _ hf v hv (by rw [compareInner_exact_float hp, hside]; exact nofun)
          (by rw [compareInner_float_exact hq, hside]; exact nofun)
        rwa [compareInner_exact hp hq, compare_le_iff_le] at this
      exact le_antisymm (hmid a ha b hb x y hx hy) (hmid b hb a ha y x hy hx)
    · by_contra hside
      rw [not_or] at hside
      have hgf := hle _ hg a ha _ hf (by rw [compareInner_float_exact hx]; exact hside.2)
        (by rw [compareInner_exact_float hx, Ne, Ordering.swap_eq_gt]; exact hside.1)
      rw [compareInner_float (hnan _ hg) (hnan _ hf), compare_le_iff_le] at hgf
      omega
    · have hfg : (Value.float f).compareInner (.float g) = .eq := by
        rw [compareInner_float (hnan _ hf) (hnan _ hg), heq]
        exact Std.ReflCmp.compare_self
      have hcongr := h.congr_left (a := ⟨_, hf⟩) (b := ⟨_, hg⟩) (c := ⟨a, ha⟩) hfg
      rwa [compareInner_float_exact hx, compareInner_float_exact hx] at hcongr
  · intro h
    refine @Std.TransCmp.mk _ _ ⟨fun {a b} => ?_⟩ fun {a b c} hab hbc => ?_
    · exact compareInner_swap (hnan b.1 b.2) (hnan a.1 a.2)
    · exact Ordering.ne_gt_iff_isLE.mp (compareInner_trans hnan h a.2 b.2 c.2
        (Ordering.ne_gt_iff_isLE.mpr hab) (Ordering.ne_gt_iff_isLE.mpr hbc))

/-! ## Agreement with `Value::partial_cmp` -/

/-- The order has the answer of `Value::partial_cmp` wherever that has one. -/
def FollowsPartialCmp (S : Set Value) : Prop :=
  ∀ a ∈ S, ∀ b ∈ S, ∀ o, a.partialCmp b = some o → a.compareInner b = o

/-- Of each kind that falls through the match there is one value at most. -/
def SingleKinds (S : Set Value) : Prop :=
  ∀ a ∈ S, ∀ b ∈ S, a.fallsThrough = true → a.typePriority = b.typePriority → a = b

/-- On a kind that falls through, equality in `Value::partial_cmp` is equality. -/
theorem partialCmp_fallsThrough {a b : Value} (h : a.fallsThrough = true)
    (hkind : a.typePriority = b.typePriority) :
    ∃ o, a.partialCmp b = some o ∧ (o = .eq ↔ a = b) := by
  cases a with
  | reference x =>
    cases b with
    | reference y =>
      refine ⟨_, rfl, fun heq => ?_, fun heq => ?_⟩
      · rw [utf8_injective (Std.LawfulEqCmp.eq_of_compare heq)]
      · cases heq
        exact Std.ReflCmp.compare_self
    | _ => cases hkind
  | datetime x =>
    cases b with
    | datetime y =>
      refine ⟨_, rfl, fun heq => ?_, fun heq => ?_⟩
      · rw [Int64.toInt_inj.mp (Std.LawfulEqCmp.eq_of_compare heq)]
      · cases heq
        exact Std.ReflCmp.compare_self
    | _ => cases hkind
  | duration x =>
    cases b with
    | duration y =>
      refine ⟨_, rfl, fun heq => ?_, fun heq => ?_⟩
      · rw [UInt64.toNat_inj.mp (Std.LawfulEqCmp.eq_of_compare heq)]
      · cases heq
        exact Std.ReflCmp.compare_self
    | _ => cases hkind
  | bytes x =>
    cases b with
    | bytes y =>
      refine ⟨_, rfl, fun heq => ?_, fun heq => ?_⟩
      · rw [Std.LawfulEqCmp.eq_of_compare heq]
      · cases heq
        exact Std.ReflCmp.compare_self
    | _ => cases hkind
  | _ => cases h

/-- Apart from these kinds the two comparisons are one. -/
theorem compareInner_of_partialCmp {a b : Value} {o : Ordering} (h : a.partialCmp b = some o)
    (hnamed : a.fallsThrough = false) : a.compareInner b = o := by
  cases a with
  | null =>
    cases b with
    | null => exact Option.some.inj h
    | _ => cases h
  | bool x =>
    cases b with
    | bool y => exact Option.some.inj h
    | _ => cases h
  | string x =>
    cases b with
    | string y => exact Option.some.inj h
    | _ => cases h
  | int n =>
    cases b with
    | int m => exact Option.some.inj h
    | float g => exact congrArg (·.getD .eq) h
    | decimal d => exact Option.some.inj h
    | _ => cases h
  | float f =>
    cases b with
    | int m => exact congrArg (·.getD .eq) h
    | float g => exact congrArg (·.getD .eq) h
    | decimal d => exact congrArg (·.getD .eq) h
    | _ => cases h
  | decimal d =>
    cases b with
    | int m => exact Option.some.inj h
    | float g => exact congrArg (·.getD .eq) h
    | decimal e => exact Option.some.inj h
    | _ => cases h
  | reference x => cases hnamed
  | datetime x => cases hnamed
  | duration x => cases hnamed
  | bytes x => cases hnamed
  | _ => cases b <;> cases h

theorem typePriority_of_partialCmp {a b : Value} {o : Ordering} (h : a.partialCmp b = some o)
    (hthrough : a.fallsThrough = true) : a.typePriority = b.typePriority := by
  cases a with
  | reference x => cases b <;> first | rfl | cases h
  | datetime x => cases b <;> first | rfl | cases h
  | duration x => cases b <;> first | rfl | cases h
  | bytes x => cases b <;> first | rfl | cases h
  | _ => cases hthrough

theorem compareInner_fallsThrough {a b : Value} (h : a.fallsThrough = true)
    (hkind : a.typePriority = b.typePriority) : a.compareInner b = .eq := by
  have hlate : 5 < a.typePriority := by
    cases a <;> first | exact Nat.le_of_ble_eq_true rfl | cases h
  apply compareInner_other hkind <;> omega

theorem followsPartialCmp_iff : FollowsPartialCmp S ↔ SingleKinds S := by
  constructor
  · intro h a ha b hb hthrough hkind
    obtain ⟨o, hcmp, heq⟩ := partialCmp_fallsThrough hthrough hkind
    have hsame := h a ha b hb o hcmp
    rw [compareInner_fallsThrough hthrough hkind] at hsame
    exact heq.mp hsame.symm
  · intro h a ha b hb o hcmp
    cases hthrough : a.fallsThrough with
    | false => exact compareInner_of_partialCmp hcmp hthrough
    | true =>
      have hkind := typePriority_of_partialCmp hcmp hthrough
      obtain ⟨o', hcmp', heq⟩ := partialCmp_fallsThrough hthrough hkind
      cases hcmp.symm.trans hcmp'
      rw [compareInner_fallsThrough hthrough hkind]
      exact (heq.mpr (h a ha b hb hthrough hkind)).symm

end Value

/-! ## Sorting -/

section Sorting

variable [Numerics]

/-- How two rows compare in one of their keys, in its direction. -/
def keyOrder (dirs : List OrderDirection) (as bs : List Value) (i : Nat) : Ordering :=
  match dirs[i]?, as[i]?, bs[i]? with
  | some .asc, some a, some b => a.compareInner b
  | some .desc, some a, some b => (a.compareInner b).swap
  | _, _, _ => .eq

/-- The first key in which they differ decides. -/
def Lexicographic (dirs : List OrderDirection) (as bs : List Value) : Prop :=
  ∀ i, (∀ j < i, keyOrder dirs as bs j = .eq) → keyOrder dirs as bs i ≠ .gt

/-- Equal in all keys. -/
def KeysTied (dirs : List OrderDirection) (as bs : List Value) : Prop :=
  ∀ i, keyOrder dirs as bs i = .eq

/-- The rows in order, those tied as they came. -/
structure StableSort {α : Type} (dirs : List OrderDirection) (rows out : List (α × List Value)) :
    Prop where
  perm : out.Perm rows
  ordered : out.Pairwise fun a b => Lexicographic dirs a.2 b.2
  stable : ∀ a b, KeysTied dirs a.2 b.2 → [a, b].Sublist rows → [a, b].Sublist out

theorem keyOrder_nil (as bs : List Value) (i : Nat) : keyOrder [] as bs i = .eq := rfl

/-- `compare_keys`: the first key, and where it ties the others. -/
theorem compareKeys_cons (dir : OrderDirection) (dirs : List OrderDirection) (a b : Value)
    (as bs : List Value) : compareKeys (dir :: dirs) (a :: as) (b :: bs) =
      (keyOrder (dir :: dirs) (a :: as) (b :: bs) 0).then (compareKeys dirs as bs) := by
  cases dir with
  | asc =>
    show (if a.compareInner b ≠ .eq then a.compareInner b else compareKeys dirs as bs) =
      (a.compareInner b).then _
    cases a.compareInner b <;> rfl
  | desc =>
    show (if (a.compareInner b).swap ≠ .eq then (a.compareInner b).swap
      else compareKeys dirs as bs) = (a.compareInner b).swap.then _
    cases a.compareInner b <;> rfl

/-- `compare_keys` decides lexicographically. -/
theorem compareKeys_ne_gt_iff (dirs : List OrderDirection) {as bs : List Value}
    (ha : as.length = dirs.length) (hb : bs.length = dirs.length) :
    compareKeys dirs as bs ≠ .gt ↔ Lexicographic dirs as bs := by
  induction dirs generalizing as bs with
  | nil => exact ⟨fun _ i _ => by rw [keyOrder_nil]; exact nofun, fun _ => nofun⟩
  | cons dir dirs ih =>
    cases as with
    | nil => cases ha
    | cons a as =>
      cases bs with
      | nil => cases hb
      | cons b bs =>
        have hrest := ih (Nat.succ.inj ha) (Nat.succ.inj hb)
        rw [compareKeys_cons]
        constructor
        · intro h i hbefore
          cases i with
          | zero =>
            intro hgt
            rw [hgt] at h
            exact h rfl
          | succ i =>
            have htie := hbefore 0 (Nat.succ_pos i)
            rw [htie] at h
            exact hrest.mp h i fun j hj => hbefore (j + 1) (Nat.succ_lt_succ hj)
        · intro h hgt
          cases hhead : keyOrder (dir :: dirs) (a :: as) (b :: bs) 0 with
          | lt =>
            rw [hhead] at hgt
            cases hgt
          | gt => exact h 0 nofun hhead
          | eq =>
            rw [hhead] at hgt
            refine hrest.mpr (fun i hbefore => ?_) hgt
            apply h (i + 1)
            intro j hj
            cases j with
            | zero => exact hhead
            | succ j => exact hbefore j (Nat.lt_of_succ_lt_succ hj)

/-- Where all keys tie, neither row comes first. -/
theorem compareKeys_of_tied (dirs : List OrderDirection) {as bs : List Value}
    (ha : as.length = dirs.length) (hb : bs.length = dirs.length) (h : KeysTied dirs as bs) :
    compareKeys dirs as bs ≠ .gt := by
  rw [compareKeys_ne_gt_iff dirs ha hb]
  intro i _
  rw [h i]
  exact nofun

/-- The order of values in a direction. -/
def directed (dir : OrderDirection) (a b : Value) : Ordering :=
  match dir with
  | .asc => a.compareInner b
  | .desc => (a.compareInner b).swap

theorem keyOrder_zero (dir : OrderDirection) (dirs : List OrderDirection) (a b : Value)
    (as bs : List Value) : keyOrder (dir :: dirs) (a :: as) (b :: bs) 0 = directed dir a b := by
  cases dir <;> rfl

variable {S : Set Value}

theorem transCmp_directed (h : Value.OrdersValues S) (dir : OrderDirection) :
    Std.TransCmp fun a b : S => directed dir a.1 b.1 := by
  cases dir with
  | asc => exact h
  | desc =>
    have hswap : (fun a b : S => directed .desc a.1 b.1) = fun a b : S => b.1.compareInner a.1 := by
      funext a b
      exact (h.eq_swap (a := b) (b := a)).symm
    rw [hswap]
    exact @Std.TransCmp.opposite _ _ h

section Keys

variable (h : Value.OrdersValues S)
include h

theorem compareKeys_swap (dirs : List OrderDirection) {as bs : List Value}
    (ha : ∀ v ∈ as, v ∈ S) (hb : ∀ v ∈ bs, v ∈ S) :
    compareKeys dirs bs as = (compareKeys dirs as bs).swap := by
  induction dirs generalizing as bs with
  | nil => rfl
  | cons dir dirs ih =>
    cases as with
    | nil => cases bs <;> rfl
    | cons a as =>
      cases bs with
      | nil => rfl
      | cons b bs =>
        rw [List.forall_mem_cons] at ha hb
        have hhead := (transCmp_directed h dir).eq_swap (a := ⟨b, hb.1⟩) (b := ⟨a, ha.1⟩)
        rw [compareKeys_cons, compareKeys_cons, keyOrder_zero, keyOrder_zero, ih ha.2 hb.2,
          Ordering.swap_then]
        exact congrArg (Ordering.then · _) hhead

theorem compareKeys_trans (dirs : List OrderDirection) {as bs cs : List Value}
    (hla : as.length = dirs.length) (hlb : bs.length = dirs.length)
    (hlc : cs.length = dirs.length) (ha : ∀ v ∈ as, v ∈ S) (hb : ∀ v ∈ bs, v ∈ S)
    (hc : ∀ v ∈ cs, v ∈ S) (hab : (compareKeys dirs as bs).isLE = true)
    (hbc : (compareKeys dirs bs cs).isLE = true) : (compareKeys dirs as cs).isLE = true := by
  induction dirs generalizing as bs cs with
  | nil => rfl
  | cons dir dirs ih =>
    match as, bs, cs with
    | [], _, _ => cases hla
    | _ :: _, [], _ => cases hlb
    | _ :: _, _ :: _, [] => cases hlc
    | a :: as, b :: bs, c :: cs =>
      rw [List.forall_mem_cons] at ha hb hc
      have hdir := transCmp_directed h dir
      rw [compareKeys_cons, keyOrder_zero, Ordering.isLE_then_iff_or] at hab hbc ⊢
      rcases hab with hab | ⟨hab, hrest⟩
      · refine Or.inl (hdir.lt_of_lt_of_isLE (a := ⟨a, ha.1⟩) (b := ⟨b, hb.1⟩) (c := ⟨c, hc.1⟩)
          hab ?_)
        rcases hbc with hbc | ⟨hbc, -⟩
        · exact Ordering.isLE_of_eq_lt hbc
        · exact Ordering.isLE_of_eq_eq hbc
      · rcases hbc with hbc | ⟨hbc, hrest'⟩
        · exact Or.inl (hdir.lt_of_eq_of_lt (a := ⟨a, ha.1⟩) (b := ⟨b, hb.1⟩) (c := ⟨c, hc.1⟩)
            hab hbc)
        · exact Or.inr ⟨hdir.eq_trans (a := ⟨a, ha.1⟩) (b := ⟨b, hb.1⟩) (c := ⟨c, hc.1⟩) hab hbc,
            ih (Nat.succ.inj hla) (Nat.succ.inj hlb) (Nat.succ.inj hlc) ha.2 hb.2 hc.2 hrest hrest'⟩

/-- Rows are ordered by their keys. -/
theorem orders_compareKeys {α : Type} (dirs : List OrderDirection) {rows : List (α × List Value)}
    (hlen : ∀ row ∈ rows, row.2.length = dirs.length) (hmem : ∀ row ∈ rows, ∀ v ∈ row.2, v ∈ S) :
    Windows.Orders (fun a b : α × List Value => compareKeys dirs a.2 b.2 ≠ .gt) rows where
  total a ha b hb := by
    rw [compareKeys_swap h dirs (hmem a ha) (hmem b hb)]
    cases compareKeys dirs a.2 b.2 with
    | gt => exact Or.inr nofun
    | _ => exact Or.inl nofun
  trans a ha b hb c hc hab hbc :=
    Ordering.ne_gt_iff_isLE.mpr (compareKeys_trans h dirs (hlen a ha) (hlen b hb) (hlen c hc)
      (hmem a ha) (hmem b hb) (hmem c hc) (Ordering.ne_gt_iff_isLE.mp hab)
      (Ordering.ne_gt_iff_isLE.mp hbc))

theorem stableSort_sortByKeys {α : Type} (dirs : List OrderDirection)
    {rows : List (α × List Value)} (hlen : ∀ row ∈ rows, row.2.length = dirs.length)
    (hmem : ∀ row ∈ rows, ∀ v ∈ row.2, v ∈ S) :
    StableSort dirs rows (sortByKeys dirs rows) := by
  have hperm : (sortByKeys dirs rows).Perm rows := List.perm_insertionSort _ rows
  refine ⟨hperm, ?_, fun a b htied hsub => ?_⟩
  · have hsorted := Windows.pairwise_insertionSort (orders_compareKeys h dirs hlen hmem)
    refine hsorted.imp_of_mem fun {a b} ha hb hle => ?_
    exact (compareKeys_ne_gt_iff dirs (hlen a (hperm.mem_iff.mp ha))
      (hlen b (hperm.mem_iff.mp hb))).mp hle
  · have ha := hsub.subset (List.mem_cons_self ..)
    have hb := hsub.subset (List.mem_cons_of_mem _ (List.mem_cons_self ..))
    exact List.pair_sublist_insertionSort
      (compareKeys_of_tied dirs (hlen a ha) (hlen b hb) htied) hsub

end Keys

/-- `SortOp` sorts every list of rows whose keys are among these values. -/
def SortsRows (S : Set Value) : Prop :=
  ∀ (Ω : Type) (ctx : OperatorContext Ω) (items : List (OrderItem Ω)) (rows : List Row)
    (keyed : List (Row × List Value)), rows.mapM (keyedRow ctx.eval items) = .ok keyed →
    (∀ row ∈ keyed, ∀ v ∈ row.2, v ∈ S) →
    ∃ out : List (Row × List Value),
      sortOp ctx items (.ofList rows) = .ok (.ofList (out.map Prod.fst)) ∧
      (out.map Prod.fst).Perm rows ∧ StableSort (items.map (·.direction)) keyed out

theorem keyedRow_ok {Ω : Type} {ctx : EvalContext Ω} {items : List (OrderItem Ω)} {row : Row}
    {keyed : Row × List Value} (h : keyedRow ctx items row = .ok keyed) :
    keyed.1 = row ∧ keyed.2.length = items.length := by
  unfold keyedRow at h
  cases hkeys : items.mapM fun item => evalExpr ctx row item.expr with
  | error e =>
    rw [hkeys] at h
    cases h
  | ok keys =>
    rw [hkeys] at h
    cases h
    exact ⟨rfl, (Pull.mapM_eq_ok_iff.mp hkeys).length_eq.symm⟩

theorem keyedRows_ok {Ω : Type} {ctx : EvalContext Ω} {items : List (OrderItem Ω)}
    {rows : List Row} {keyed : List (Row × List Value)}
    (h : List.Forall₂ (fun row k => keyedRow ctx items row = .ok k) rows keyed) :
    keyed.map Prod.fst = rows ∧ ∀ k ∈ keyed, k.2.length = items.length := by
  induction h with
  | nil => exact ⟨rfl, nofun⟩
  | cons hrow _ ih =>
    obtain ⟨hfst, hlen⟩ := keyedRow_ok hrow
    rw [List.map_cons, hfst, ih.1, List.forall_mem_cons]
    exact ⟨rfl, hlen, ih.2⟩

theorem sortsRows (h : Value.OrdersValues S) : SortsRows S := by
  intro Ω ctx items rows keyed hkeyed hmem
  obtain ⟨hfst, hlength⟩ := keyedRows_ok (Pull.mapM_eq_ok_iff.mp hkeyed)
  have hlen : ∀ row ∈ keyed, row.2.length = (items.map (·.direction)).length := by
    rw [List.length_map]
    exact hlength
  have hsort := stableSort_sortByKeys h (items.map (·.direction)) hlen hmem
  refine ⟨_, ?_, ?_, hsort⟩
  · unfold sortOp
    rw [Pull.collect_mapM_ofList, hkeyed]
    rfl
  · rw [← hfst]
    exact hsort.perm.map Prod.fst

/-- Values the order can tell apart. -/
structure ToldApart (S : Set Value) : Prop where
  singleKinds : Value.SingleKinds S
  doublesApart : Value.DoublesApart S

/-- `compare_value_inner` is a total preorder on values without NaN that agrees with
`Value::partial_cmp`, and `ORDER BY` sorts by it, exactly when it can tell the values apart. -/
theorem value_order_iff (S : Set Value) (hnan : ∀ v ∈ S, v.isNan = false) :
    (Value.OrdersValues S ∧ Value.FollowsPartialCmp S ∧ SortsRows S) ↔ ToldApart S := by
  constructor
  · rintro ⟨horders, hfollows, -⟩
    exact ⟨Value.followsPartialCmp_iff.mp hfollows, (Value.ordersValues_iff hnan).mp horders⟩
  · intro h
    have horders := (Value.ordersValues_iff hnan).mpr h.doublesApart
    exact ⟨horders, Value.followsPartialCmp_iff.mpr h.singleKinds, sortsRows horders⟩

end Sorting

namespace Pointers

local instance : Numerics := .standIn

/-- A number, a text and a reference are told apart. -/
theorem mixed_ordered : Value.OrdersValues {.int 2, .string "b", .reference "towns:a"} ∧
    Value.FollowsPartialCmp {.int 2, .string "b", .reference "towns:a"} ∧
    SortsRows {.int 2, .string "b", .reference "towns:a"} := by
  have hfloat : ∀ f, .float f ∉ ({.int 2, .string "b", .reference "towns:a"} : Set Value) := by
    rintro f (h | h | h) <;> cases h
  refine (value_order_iff _ ?_).mpr ⟨?_, fun f hf => absurd hf (hfloat f),
    fun f _ hf => absurd hf (hfloat f), fun f _ hf => absurd hf (hfloat f)⟩
  · rintro v (rfl | rfl | rfl) <;> rfl
  · rintro a (rfl | rfl | rfl) b (rfl | rfl | rfl) - hkind <;> first | rfl | cases hkind

/-- Two references: `Value::partial_cmp` puts one before the other, the sort does not. -/
theorem references_unordered :
    ¬ (Value.OrdersValues {.reference "towns:a", .reference "towns:b"} ∧
      Value.FollowsPartialCmp {.reference "towns:a", .reference "towns:b"} ∧
      SortsRows {.reference "towns:a", .reference "towns:b"}) := by
  rintro ⟨-, hfollows, -⟩
  have h := hfollows (.reference "towns:a") (Or.inl rfl) (.reference "towns:b") (Or.inr rfl) .lt
    (by decide +kernel)
  cases h

end Pointers

end StellarDb
