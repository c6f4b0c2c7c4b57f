import StellarDb.Query.Operators

/-!
# StellarDb — comparison operators (`eval/compare.rs`, `eval/binary.rs`, `document.rs`)

`values_equal` and `values_compare` are two tables over pairs of values. What they agree on is
said by `Value.scalar`: a value they can compare stands for a truth value, a number or a text, and
both tables compare those (`valuesEqual_iff`, `valuesCompare_scalar`). Dates, durations and bytes
have no row in either table, although `Value::partial_cmp` orders them, and neither do arrays,
objects and ranges; on these no comparison operator but `!=` is ever true.
-/

namespace StellarDb

open Keyspaces

/-! ## Scalars -/

/-- What the comparison operators see of a value they can compare. -/
inductive Scalar where
  | bool (b : Bool)
  | number (q : ℚ)
  | text (s : String)
  deriving DecidableEq

namespace Scalar

/-- Truth values before numbers before texts, each kind in its own order. -/
def cmp : Scalar → Scalar → Ordering
  | .bool a, .bool b => compare a b
  | .number a, .number b => compare a b
  | .text a, .text b => compare (utf8 a) (utf8 b)
  | .bool _, _ => .lt
  | _, .bool _ => .gt
  | .number _, _ => .lt
  | _, .number _ => .gt

instance : Std.OrientedCmp cmp where
  eq_swap {a b} := by
    cases a <;> cases b <;> simp only [cmp]
    case bool.bool => exact Std.OrientedCmp.eq_swap
    case number.number => exact Std.OrientedCmp.eq_swap
    case text.text => exact Std.OrientedCmp.eq_swap
    all_goals rfl

instance : Std.TransCmp cmp where
  isLE_trans {a b c} hab hbc := by
    cases a <;> cases b <;> cases c <;> simp only [cmp] at *
    case bool.bool.bool => exact Std.TransCmp.isLE_trans hab hbc
    case number.number.number => exact Std.TransCmp.isLE_trans hab hbc
    case text.text.text => exact Std.TransCmp.isLE_trans hab hbc
    all_goals first | rfl | contradiction

instance : Std.LawfulEqCmp cmp where
  compare_self {a} := by
    cases a <;> exact Std.ReflCmp.compare_self
  eq_of_compare {a b} h := by
    cases a <;> cases b <;> simp only [cmp] at h
    case bool.bool => rw [Std.LawfulEqCmp.eq_of_compare h]
    case number.number => rw [Std.LawfulEqCmp.eq_of_compare h]
    case text.text => rw [utf8_injective (Std.LawfulEqCmp.eq_of_compare h)]
    all_goals contradiction

theorem cmp_eq_iff {a b : Scalar} : a.cmp b = .eq ↔ a = b :=
  Std.LawfulEqCmp.compare_eq_iff_eq

end Scalar

/-! ## Types of values -/

/-- The types whose values are compared with each other. -/
inductive ComparedType where
  | bool | number | string | reference | datetime | duration | bytes
  deriving DecidableEq, Repr

namespace Value

def comparedType : Value → Option ComparedType
  | .bool _ => some .bool
  | .int _ | .float _ | .decimal _ => some .number
  | .string _ => some .string
  | .reference _ => some .reference
  | .datetime _ => some .datetime
  | .duration _ => some .duration
  | .bytes _ => some .bytes
  | _ => none

/-- `Bool`, `Int`, `Decimal`, `String` and `Reference`. -/
def scalar : Value → Option Scalar
  | .bool b => some (.bool b)
  | .int n => some (.number n.toInt)
  | .decimal d => some (.number d.toRat)
  | .string s => some (.text s)
  | .reference id => some (.text id)
  | _ => none

def isFloat : Value → Bool
  | .float _ => true
  | _ => false

mutual

/-- No double inside the value. -/
def withoutFloat : Value → Bool
  | .float _ => false
  | .array elems => withoutFloatElems elems
  | .object entries => withoutFloatEntries entries
  | .range start stop => start.withoutFloat && stop.withoutFloat
  | _ => true

def withoutFloatElems : List Value → Bool
  | [] => true
  | v :: vs => v.withoutFloat && withoutFloatElems vs

def withoutFloatEntries : List (String × Value) → Bool
  | [] => true
  | (_, v) :: es => v.withoutFloat && withoutFloatEntries es

end

theorem isFloat_of_withoutFloat {v : Value} (h : v.withoutFloat = true) : v.isFloat = false := by
  cases v with
  | float f => cases h
  | _ => rfl

theorem isNull_of_scalar {v : Value} {s : Scalar} (h : v.scalar = some s) : v.isNull = false := by
  cases v with
  | null => cases h
  | _ => rfl

theorem isFloat_of_scalar {v : Value} {s : Scalar} (h : v.scalar = some s) :
    v.isFloat = false := by
  cases v with
  | float f => cases h
  | _ => rfl

/-- `Value::partial_cmp` -/
def partialCmp [Numerics] : Value → Value → Option Ordering
  | .null, .null => some .eq
  | .bool a, .bool b => some (compare a b)
  | .int a, .int b => some (compare a.toInt b.toInt)
  | .float a, .float b => a.partialCmp b
  | .decimal a, .decimal b => some (compare a.toRat b.toRat)
  | .string a, .string b => some (compare (utf8 a) (utf8 b))
  | .reference a, .reference b => some (compare (utf8 a) (utf8 b))
  | .datetime a, .datetime b => some (compare a.toInt b.toInt)
  | .duration a, .duration b => some (compare a.toNat b.toNat)
  | .bytes a, .bytes b => some (compare a b)
  | a, b =>
    if a.isNumeric && b.isNumeric then
      match a.asDecimal, b.asDecimal with
      | some a, some b => some (compare a.toRat b.toRat)
      | _, _ => none
    else none

end Value

/-! ## The two tables -/

section Tables

theorem compare_intCast (n m : Int) : compare (n : ℚ) (m : ℚ) = compare n m := by
  rw [← cmp_eq_compare, ← cmp_eq_compare]
  exact Int.cast_strictMono.cmp_map_eq n m

variable [Numerics] {a b : Value}

/-- Two values are equal when they stand for one scalar. -/
theorem valuesEqual_iff (hnull : a.isNull = false) (ha : a.isFloat = false)
    (hb : b.isFloat = false) :
    valuesEqual a b = true ↔ ∃ s, a.scalar = some s ∧ b.scalar = some s := by
  cases a with
  | null => cases hnull
  | float f => cases ha
  | bool x => cases b <;> simp [valuesEqual, Value.asDecimal, Value.scalar, @eq_comm _ x]
  | string x => cases b <;> simp [valuesEqual, Value.asDecimal, Value.scalar, @eq_comm _ x]
  | reference x => cases b <;> simp [valuesEqual, Value.asDecimal, Value.scalar, @eq_comm _ x]
  | int n =>
    cases b with
    | float f => cases hb
    | int m =>
      simp [valuesEqual, Value.asDecimal, Value.scalar, Decimal.toRat_ofInt64, @eq_comm _ m.toInt]
    | decimal d =>
      simp [valuesEqual, Value.asDecimal, Value.scalar, Decimal.toRat_ofInt64, @eq_comm _ d.toRat]
    | _ => simp [valuesEqual, Value.asDecimal, Value.scalar]
  | decimal d =>
    cases b with
    | float f => cases hb
    | int m =>
      simp [valuesEqual, Value.asDecimal, Value.scalar, Decimal.toRat_ofInt64, @eq_comm _ d.toRat]
    | decimal d' => simp [valuesEqual, Value.asDecimal, Value.scalar, @eq_comm _ d.toRat]
    | _ => simp [valuesEqual, Value.asDecimal, Value.scalar]
  | _ => cases b <;> simp [valuesEqual, Value.asDecimal, Value.scalar]

/-- Scalars of one type are compared as scalars, those of two types not at all. -/
theorem valuesCompare_scalar {s t : Scalar} (ha : a.scalar = some s) (hb : b.scalar = some t) :
    valuesCompare a b = if a.comparedType = b.comparedType then some (s.cmp t) else none := by
  cases a <;> cases ha <;> cases b <;> cases hb <;>
    simp only [valuesCompare, Value.asDecimal, Value.comparedType, Scalar.cmp,
      Decimal.toRat_ofInt64] <;> rfl

/-- A value without a scalar is not ordered by `values_compare`. -/
theorem valuesCompare_none (ha : a.isFloat = false) (hb : b.isFloat = false)
    (h : a.scalar = none ∨ b.scalar = none) : valuesCompare a b = none := by
  cases a with
  | float f => cases ha
  | int n =>
    cases b with
    | float f => cases hb
    | int m => rcases h with h | h <;> cases h
    | decimal d => rcases h with h | h <;> cases h
    | _ => rfl
  | decimal d =>
    cases b with
    | float f => cases hb
    | int m => rcases h with h | h <;> cases h
    | decimal d => rcases h with h | h <;> cases h
    | _ => rfl
  | bool x =>
    cases b with
    | bool y => rcases h with h | h <;> cases h
    | _ => rfl
  | string s =>
    cases b with
    | string t => rcases h with h | h <;> cases h
    | _ => rfl
  | reference s =>
    cases b with
    | reference t => rcases h with h | h <;> cases h
    | _ => rfl
  | _ => cases b <;> rfl

/-- On scalars `Value::partial_cmp` and `values_compare` are one function. -/
theorem partialCmp_eq {s : Scalar} (ha : a.scalar = some s) (hb : b.isFloat = false) :
    a.partialCmp b = valuesCompare a b := by
  cases a <;> cases ha <;> cases b
  case int.refl.float f => cases hb
  case decimal.refl.float f => cases hb
  case int.refl.int n m =>
    show some (compare n.toInt m.toInt) =
      some (compare (Decimal.ofInt64 n).toRat (Decimal.ofInt64 m).toRat)
    rw [Decimal.toRat_ofInt64, Decimal.toRat_ofInt64, compare_intCast]
  all_goals rfl

end Tables

/-! ## The laws -/

section Laws

variable {Ω : Type} [Numerics] (ctx : EvalContext Ω)

/-- `l op r` evaluates to true. -/
def OpTrue (op : BinaryOp) (l r : Value) : Prop := evalBinary ctx op l r = .ok (.bool true)

/-- Both values are of the same one of the compared types. -/
def SameType (v w : Value) : Prop := v.comparedType ≠ none ∧ v.comparedType = w.comparedType

/-- The laws that the comparison operators are to obey on the values of `S`. -/
structure Coherent (S : Set Value) : Prop where
  eq_refl : ∀ v ∈ S, OpTrue ctx .eq v v
  eq_symm : ∀ v ∈ S, ∀ w ∈ S, OpTrue ctx .eq v w → OpTrue ctx .eq w v
  eq_trans : ∀ u ∈ S, ∀ v ∈ S, ∀ w ∈ S, OpTrue ctx .eq u v → OpTrue ctx .eq v w → OpTrue ctx .eq u w
  ne_iff : ∀ v ∈ S, ∀ w ∈ S, ∃ b, evalBinary ctx .eq v w = .ok (.bool b) ∧
    evalBinary ctx .ne v w = .ok (.bool !b)
  trichotomy : ∀ v ∈ S, ∀ w ∈ S, SameType v w →
    (OpTrue ctx .lt v w ∧ ¬OpTrue ctx .eq v w ∧ ¬OpTrue ctx .gt v w) ∨
      (¬OpTrue ctx .lt v w ∧ OpTrue ctx .eq v w ∧ ¬OpTrue ctx .gt v w) ∨
        (¬OpTrue ctx .lt v w ∧ ¬OpTrue ctx .eq v w ∧ OpTrue ctx .gt v w)
  lte_iff : ∀ v ∈ S, ∀ w ∈ S, SameType v w →
    (OpTrue ctx .lte v w ↔ OpTrue ctx .lt v w ∨ OpTrue ctx .eq v w)
  gte_iff : ∀ v ∈ S, ∀ w ∈ S, SameType v w →
    (OpTrue ctx .gte v w ↔ OpTrue ctx .gt v w ∨ OpTrue ctx .eq v w)
  lt_trans : ∀ u ∈ S, ∀ v ∈ S, ∀ w ∈ S, SameType u v → SameType v w →
    OpTrue ctx .lt u v → OpTrue ctx .lt v w → OpTrue ctx .lt u w
  agrees : ∀ v ∈ S, ∀ w ∈ S, ∀ ord, v.partialCmp w = some ord →
    (OpTrue ctx .lt v w ↔ ord = .lt) ∧ (OpTrue ctx .eq v w ↔ ord = .eq) ∧
      (OpTrue ctx .gt v w ↔ ord = .gt)

variable {ctx} {u v w : Value}

/-- What `evalBinary` makes of a comparison: the answer of its table. -/
theorem evalBinary_eq (hv : v.isNull = false) (hw : w.isNull = false) :
    evalBinary ctx .eq v w = .ok (.bool (valuesEqual v w)) := by
  show (if v.isNull || w.isNull then _ else _) = _
  rw [hv, hw]
  rfl

theorem evalBinary_ne (hv : v.isNull = false) (hw : w.isNull = false) :
    evalBinary ctx .ne v w = .ok (.bool !(valuesEqual v w)) := by
  show (if v.isNull || w.isNull then _ else _) = _
  rw [hv, hw]
  rfl

theorem opTrue_eq (hv : v.isNull = false) (hw : w.isNull = false) :
    OpTrue ctx .eq v w ↔ valuesEqual v w = true := by
  rw [OpTrue, evalBinary_eq hv hw, Except.ok.injEq, Value.bool.injEq]

theorem opTrue_lt (hv : v.isNull = false) (hw : w.isNull = false) :
    OpTrue ctx .lt v w ↔ valuesCompare v w = some .lt := by
  show (if v.isNull || w.isNull then _ else _) = _ ↔ _
  rw [hv, hw]
  show Except.ok (Value.bool _) = _ ↔ _
  rw [Except.ok.injEq, Value.bool.injEq, beq_iff_eq]

theorem opTrue_gt (hv : v.isNull = false) (hw : w.isNull = false) :
    OpTrue ctx .gt v w ↔ valuesCompare v w = some .gt := by
  show (if v.isNull || w.isNull then _ else _) = _ ↔ _
  rw [hv, hw]
  show Except.ok (Value.bool _) = _ ↔ _
  rw [Except.ok.injEq, Value.bool.injEq, beq_iff_eq]

theorem opTrue_lte (hv : v.isNull = false) (hw : w.isNull = false) :
    OpTrue ctx .lte v w ↔ valuesCompare v w = some .lt ∨ valuesCompare v w = some .eq := by
  show (if v.isNull || w.isNull then _ else _) = _ ↔ _
  rw [hv, hw]
  show Except.ok (Value.bool _) = _ ↔ _
  rw [Except.ok.injEq, Value.bool.injEq]
  cases valuesCompare v w with
  | none => decide
  | some ord => cases ord <;> decide

theorem opTrue_gte (hv : v.isNull = false) (hw : w.isNull = false) :
    OpTrue ctx .gte v w ↔ valuesCompare v w = some .gt ∨ valuesCompare v w = some .eq := by
  show (if v.isNull || w.isNull then _ else _) = _ ↔ _
  rw [hv, hw]
  show Except.ok (Value.bool _) = _ ↔ _
  rw [Except.ok.injEq, Value.bool.injEq]
  cases valuesCompare v w with
  | none => decide
  | some ord => cases ord <;> decide

/-- On scalars `=` is equality of the scalars. -/
theorem opTrue_eq_scalar {s t : Scalar} (hv : v.scalar = some s) (hw : w.scalar = some t) :
    OpTrue ctx .eq v w ↔ s = t := by
  rw [opTrue_eq (Value.isNull_of_scalar hv) (Value.isNull_of_scalar hw),
    valuesEqual_iff (Value.isNull_of_scalar hv) (Value.isFloat_of_scalar hv) (Value.isFloat_of_scalar hw), hv, hw]
  simp [eq_comm]

/-- On scalars of one type the table of orders is the order of the scalars. -/
theorem valuesCompare_sameType {s t : Scalar} (hv : v.scalar = some s) (hw : w.scalar = some t)
    (h : SameType v w) : valuesCompare v w = some (s.cmp t) := by
  rw [valuesCompare_scalar hv hw, if_pos h.2]

/-- Scalars of one type and one value are ordered as the scalars are. -/
theorem agrees_scalar {s : Scalar} {ord : Ordering} (hv : v.scalar = some s)
    (hnull : w.isNull = false) (hw : w.isFloat = false) (h : v.partialCmp w = some ord) :
    (OpTrue ctx .lt v w ↔ ord = .lt) ∧ (OpTrue ctx .eq v w ↔ ord = .eq) ∧
      (OpTrue ctx .gt v w ↔ ord = .gt) := by
  have hcmp : valuesCompare v w = some ord := by rw [← partialCmp_eq hv hw, h]
  rw [opTrue_lt (Value.isNull_of_scalar hv) hnull, opTrue_gt (Value.isNull_of_scalar hv) hnull, hcmp]
  refine ⟨Option.some_inj, ?_, Option.some_inj⟩
  cases ht : w.scalar with
  | none =>
    rw [valuesCompare_none (Value.isFloat_of_scalar hv) hw (Or.inr ht)] at hcmp
    cases hcmp
  | some t =>
    rw [valuesCompare_scalar hv ht] at hcmp
    split at hcmp
    · rw [opTrue_eq_scalar hv ht, ← Option.some_inj.mp hcmp, Scalar.cmp_eq_iff]
    · cases hcmp

/-- Values with a scalar obey the laws. -/
theorem coherent_of_scalar {S : Set Value} (hS : ∀ v ∈ S, v.scalar ≠ none) : Coherent ctx S := by
  have hscalar : ∀ v ∈ S, ∃ s, v.scalar = some s := fun v hv =>
    Option.ne_none_iff_exists'.mp (hS v hv)
  constructor
  case eq_refl =>
    intro v hv
    obtain ⟨s, hs⟩ := hscalar v hv
    exact (opTrue_eq_scalar hs hs).mpr rfl
  case eq_symm =>
    intro v hv w hw h
    obtain ⟨s, hs⟩ := hscalar v hv
    obtain ⟨t, ht⟩ := hscalar w hw
    exact (opTrue_eq_scalar ht hs).mpr ((opTrue_eq_scalar hs ht).mp h).symm
  case eq_trans =>
    intro u hu v hv w hw huv hvw
    obtain ⟨r, hr⟩ := hscalar u hu
    obtain ⟨s, hs⟩ := hscalar v hv
    obtain ⟨t, ht⟩ := hscalar w hw
    have hrs : r = s := (opTrue_eq_scalar hr hs).mp huv
    have hst : s = t := (opTrue_eq_scalar hs ht).mp hvw
    exact (opTrue_eq_scalar hr ht).mpr (hrs.trans hst)
  case ne_iff =>
    intro v hv w hw
    obtain ⟨s, hs⟩ := hscalar v hv
    obtain ⟨t, ht⟩ := hscalar w hw
    exact ⟨_, evalBinary_eq (Value.isNull_of_scalar hs) (Value.isNull_of_scalar ht),
      evalBinary_ne (Value.isNull_of_scalar hs) (Value.isNull_of_scalar ht)⟩
  case trichotomy =>
    intro v hv w hw hsame
    obtain ⟨s, hs⟩ := hscalar v hv
    obtain ⟨t, ht⟩ := hscalar w hw
    rw [opTrue_lt (Value.isNull_of_scalar hs) (Value.isNull_of_scalar ht),
      opTrue_gt (Value.isNull_of_scalar hs) (Value.isNull_of_scalar ht), opTrue_eq_scalar hs ht,
      valuesCompare_sameType hs ht hsame, ← Scalar.cmp_eq_iff]
    cases s.cmp t <;> decide
  case lte_iff =>
    intro v hv w hw hsame
    obtain ⟨s, hs⟩ := hscalar v hv
    obtain ⟨t, ht⟩ := hscalar w hw
    rw [opTrue_lte (Value.isNull_of_scalar hs) (Value.isNull_of_scalar ht),
      opTrue_lt (Value.isNull_of_scalar hs) (Value.isNull_of_scalar ht), opTrue_eq_scalar hs ht,
      valuesCompare_sameType hs ht hsame, ← Scalar.cmp_eq_iff]
    cases s.cmp t <;> decide
  case gte_iff =>
    intro v hv w hw hsame
    obtain ⟨s, hs⟩ := hscalar v hv
    obtain ⟨t, ht⟩ := hscalar w hw
    rw [opTrue_gte (Value.isNull_of_scalar hs) (Value.isNull_of_scalar ht),
      opTrue_gt (Value.isNull_of_scalar hs) (Value.isNull_of_scalar ht), opTrue_eq_scalar hs ht,
      valuesCompare_sameType hs ht hsame, ← Scalar.cmp_eq_iff]
    cases s.cmp t <;> decide
  case lt_trans =>
    intro u hu v hv w hw hsame hsame' huv hvw
    obtain ⟨r, hr⟩ := hscalar u hu
    obtain ⟨s, hs⟩ := hscalar v hv
    obtain ⟨t, ht⟩ := hscalar w hw
    have hsame'' : SameType u w := ⟨hsame.1, hsame.2.trans hsame'.2⟩
    rw [opTrue_lt (Value.isNull_of_scalar hr) (Value.isNull_of_scalar hs), valuesCompare_sameType hr hs hsame,
      Option.some_inj] at huv
    rw [opTrue_lt (Value.isNull_of_scalar hs) (Value.isNull_of_scalar ht), valuesCompare_sameType hs ht hsame',
      Option.some_inj] at hvw
    rw [opTrue_lt (Value.isNull_of_scalar hr) (Value.isNull_of_scalar ht), valuesCompare_sameType hr ht hsame'']
    exact congrArg some (Std.TransCmp.lt_trans huv hvw)
  case agrees =>
    intro v hv w hw ord h
    obtain ⟨s, hs⟩ := hscalar v hv
    obtain ⟨t, ht⟩ := hscalar w hw
    exact agrees_scalar hs (Value.isNull_of_scalar ht) (Value.isFloat_of_scalar ht) h

/-- The comparison operators obey their laws on a set of values exactly when the set has no dates,
durations, bytes, arrays, objects and ranges: such a value is not even equal to itself. -/
theorem operators_coherent_iff (S : Set Value)
    (hS : ∀ v ∈ S, v.isNull = false ∧ v.withoutFloat = true) :
    Coherent ctx S ↔ ∀ v ∈ S, v.scalar ≠ none := by
  constructor
  · intro h v hv hnone
    obtain ⟨hnull, hfloat⟩ := hS v hv
    have hplain := Value.isFloat_of_withoutFloat hfloat
    have hself := (opTrue_eq hnull hnull).mp (h.eq_refl v hv)
    obtain ⟨s, hs, -⟩ := (valuesEqual_iff hnull hplain hplain).mp hself
    rw [hnone] at hs
    cases hs
  · exact coherent_of_scalar

end Laws

namespace Clocks

local instance : Numerics := .standIn

def ctx : EvalContext Empty where
  getDocument _ _ := .ok none
  arith _ _ _ := .ok .null
  valueRepr _ := ""
  valueTypeName _ := ""
  other e _ := nomatch e

/-- A price written as `3.0`, its number and its texts. -/
def priced : List Value :=
  [.bool true, .int 3, .decimal ⟨false, 1, 30⟩, .string "plans:p", .reference "plans:p"]

theorem priced_coherent : Coherent ctx {v | v ∈ priced} :=
  (operators_coherent_iff {v | v ∈ priced}
    (List.forall_iff_forall_mem.mp (by decide))).mpr (List.forall_iff_forall_mem.mp (by decide))

/-- The epoch is ordered equal to itself, and is not equal to itself. -/
theorem epoch_incoherent : ¬Coherent ctx {v | v.isNull = false ∧ v.withoutFloat = true} := by
  intro h
  have hself := (h.agrees (.datetime 0) ⟨rfl, rfl⟩ (.datetime 0) ⟨rfl, rfl⟩ .eq rfl).2.1.mpr rfl
  cases hself

end Clocks

end StellarDb
