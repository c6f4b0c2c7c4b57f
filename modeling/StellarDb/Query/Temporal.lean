import StellarDb.Lib.Words
import StellarDb.Query.Eval

/-!
# StellarDb — durations and datetimes (`function/definitions.rs`, `eval/binary.rs`, `parse/expr.rs`)

A datetime is a signed count of milliseconds, a duration an unsigned count of nanoseconds, and
`std::time::Duration` lies between them with 128-bit arithmetic. Four places convert one into
another: the `duration::` functions cast (`as u64`, `as i64`), `Value::from_duration` truncates,
`+` and `-` saturate, and the literal parser checks.

Only the parser never gives a wrong value (`parseDurationNanos_segments`). A cast is exact as
long as the nanoseconds fit 64 bits, about 584 years, and so is a difference of two datetimes.
-/

namespace StellarDb

open Words

/-! ## Durations of the standard library -/

/-- `std::time::Duration` -/
structure StdDuration where
  secs : UInt64
  nanos : Nat
  nanos_lt : nanos < 1000000000

namespace StdDuration

def fromSecs (secs : UInt64) : StdDuration := ⟨secs, 0, by decide⟩

def fromMillis (millis : UInt64) : StdDuration where
  secs := millis / 1000
  nanos := (millis % 1000).toNat * 1000000
  nanos_lt := by
    have : (millis % 1000).toNat = millis.toNat % 1000 := UInt64.toNat_mod millis 1000
    omega

/-- The `u128` count of nanoseconds. -/
def asNanos (d : StdDuration) : Nat := d.secs.toNat * 1000000000 + d.nanos

theorem asNanos_fromSecs (secs : UInt64) :
    (fromSecs secs).asNanos = secs.toNat * 1000000000 :=
  Nat.add_zero _

theorem asNanos_fromMillis (millis : UInt64) :
    (fromMillis millis).asNanos = millis.toNat * 1000000 := by
  have hdiv : (millis / 1000).toNat = millis.toNat / 1000 := UInt64.toNat_div millis 1000
  have hmod : (millis % 1000).toNat = millis.toNat % 1000 := UInt64.toNat_mod millis 1000
  show (millis / 1000).toNat * 1000000000 + (millis % 1000).toNat * 1000000 = _
  omega

end StdDuration

/-- `Value::from_duration`: the nanoseconds `as u64`. -/
def Value.fromDuration (d : StdDuration) : Value := .duration (.ofNat d.asNanos)

/-- `value_type_name` -/
def valueTypeName : Value → String
  | .null => "Null"
  | .bool _ => "Bool"
  | .int _ => "Int"
  | .float _ => "Float"
  | .string _ => "String"
  | .array _ => "Array"
  | .object _ => "Object"
  | .reference _ => "Reference"
  | .decimal _ => "Decimal"
  | .datetime _ => "Datetime"
  | .duration _ => "Duration"
  | .bytes _ => "Bytes"
  | .range _ _ => "Range"

/-! ## The `duration::` functions -/

namespace DurationFunctions

/-- Make a duration of an integer. -/
def fromInt (make : UInt64 → StdDuration) (op : String) : Value → Except ExecuteError Value
  | .int n => .ok (.fromDuration (make n.toUInt64))
  | .null => .ok .null
  | other => .error (.typeError "int" (valueTypeName other) op)

/-- Count the whole units of so many nanoseconds in a duration. -/
def toInt (unit : UInt64) (op : String) : Value → Except ExecuteError Value
  | .duration ns => .ok (.int (ns / unit).toInt64)
  | .null => .ok .null
  | other => .error (.typeError "duration" (valueTypeName other) op)

def fromSecs : Value → Except ExecuteError Value :=
  fromInt .fromSecs "duration::from_secs"

def fromMillis : Value → Except ExecuteError Value :=
  fromInt .fromMillis "duration::from_millis"

def secs : Value → Except ExecuteError Value := toInt 1000000000 "duration::secs"

def millis : Value → Except ExecuteError Value := toInt 1000000 "duration::millis"

/-- An integer comes back from a duration exactly when its nanoseconds fit 64 bits. -/
theorem fromInt_exact_iff {make : UInt64 → StdDuration} {unit : UInt64} {op op' : String}
    (hunit : 1 < unit.toNat) (hmake : ∀ m, (make m).asNanos = m.toNat * unit.toNat) (n : Int64) :
    (∀ d, fromInt make op (.int n) = .ok d → toInt unit op' d = .ok (.int n)) ↔
      0 ≤ n.toInt ∧ n.toInt ≤ ((2 ^ 64 - 1) / unit.toNat : Nat) := by
  have hcast := toNat_toUInt64 n
  have hlo := n.le_toInt
  have hhi := n.toInt_lt
  -- the whole units that are left after the truncation to 64 bits
  let back := UInt64.ofNat (make n.toUInt64).asNanos / unit
  have hback : back.toNat = n.toUInt64.toNat * unit.toNat % 2 ^ 64 / unit.toNat := by
    show (UInt64.ofNat (make n.toUInt64).asNanos / unit).toNat = _
    rw [UInt64.toNat_div, toNat_ofNat, hmake]
  have hmax : back.toNat ≤ (2 ^ 64 - 1) / unit.toNat := by
    rw [hback]
    exact Nat.div_le_div_right (Nat.le_sub_one_of_lt (Nat.mod_lt _ (by decide)))
  have hsigned : back.toInt64.toInt = back.toNat := by
    apply toInt_toInt64
    have : (2 ^ 64 - 1) / unit.toNat ≤ (2 ^ 64 - 1) / 2 := Nat.div_le_div_left hunit (by decide)
    omega
  have hlaw : (∀ d, fromInt make op (.int n) = .ok d → toInt unit op' d = .ok (.int n)) ↔
      back.toInt64 = n := by
    constructor
    · intro h
      have := h _ rfl
      simpa [Value.fromDuration, toInt] using this
    · intro h d hd
      cases hd
      show Except.ok (Value.int back.toInt64) = _
      rw [h]
  rw [hlaw, ← Int64.toInt_inj, hsigned]
  constructor
  · intro h
    omega
  · rintro ⟨hnonneg, hle⟩
    have hnat : n.toUInt64.toNat = n.toInt.toNat := by omega
    have hfits : n.toUInt64.toNat * unit.toNat ≤ 2 ^ 64 - 1 :=
      (Nat.le_div_iff_mul_le (by omega)).mp (by omega)
    rw [hback, Nat.mod_eq_of_lt (by omega), Nat.mul_div_cancel _ (by omega)]
    omega

theorem fromSecs_exact_iff (n : Int64) :
    (∀ d, fromSecs (.int n) = .ok d → secs d = .ok (.int n)) ↔
      0 ≤ n.toInt ∧ n.toInt ≤ 18446744073 :=
  fromInt_exact_iff (by decide) StdDuration.asNanos_fromSecs n

theorem fromMillis_exact_iff (n : Int64) :
    (∀ d, fromMillis (.int n) = .ok d → millis d = .ok (.int n)) ↔
      0 ≤ n.toInt ∧ n.toInt ≤ 18446744073709 :=
  fromInt_exact_iff (by decide) StdDuration.asNanos_fromMillis n

end DurationFunctions

/-! ## Addition and subtraction -/

/-- Addition and subtraction of `f64` and of `rust_decimal`. -/
class NumberOps where
  addF64 : F64 → F64 → F64
  subF64 : F64 → F64 → F64
  checkedAdd : Decimal → Decimal → Option Decimal
  checkedSub : Decimal → Decimal → Option Decimal

/-- A stand-in for runs without doubles and decimals. -/
@[reducible] def NumberOps.standIn : NumberOps where
  addF64 a _ := a
  subF64 a _ := a
  checkedAdd _ _ := none
  checkedSub _ _ := none

/-- What `eval_arithmetic` is given for one operator. -/
structure ArithmeticOp where
  intOp : Int64 → Int64 → Option Int64
  floatOp : F64 → F64 → F64
  decimalOp : Decimal → Decimal → Option Decimal
  opName : String

namespace ArithmeticOp

variable [Numerics] (op : ArithmeticOp) (valueRepr : Value → String)

def decimalResult (a b : Decimal) : Except ExecuteError Value :=
  match op.decimalOp a b with
  | some d => .ok (.decimal d)
  | none => .error (.overflow op.opName)

def f64ToDecimal (f : F64) : Except ExecuteError Decimal :=
  match Numerics.decimalOfF64 f with
  | some d => .ok d
  | none => .error (.overflow op.opName)

/-- Arithmetic with type coercion: a double makes the other operand a double, a decimal makes it
a decimal. -/
def evalArithmetic (l r : Value) : Except ExecuteError Value :=
  match l, r with
  | .int a, .int b =>
    match op.intOp a b with
    | some n => .ok (.int n)
    | none => .error (.overflow op.opName)
  | .float a, .float b => .ok (.float (op.floatOp a b))
  | .int a, .float b => .ok (.float (op.floatOp (.ofInt a.toInt) b))
  | .float a, .int b => .ok (.float (op.floatOp a (.ofInt b.toInt)))
  | .decimal a, .decimal b => op.decimalResult a b
  | .decimal a, .int b => op.decimalResult a (.ofInt64 b)
  | .int a, .decimal b => op.decimalResult (.ofInt64 a) b
  | .decimal a, .float b => (op.f64ToDecimal b).bind fun db => op.decimalResult a db
  | .float a, .decimal b => (op.f64ToDecimal a).bind fun da => op.decimalResult da b
  | l, r =>
    let got := match l with
      | .int _ | .float _ | .decimal _ => valueRepr r
      | _ => valueRepr l
    .error (.typeError "numeric (Int, Float, or Decimal)" got op.opName)

end ArithmeticOp

section Arithmetic

variable [Numerics] [NumberOps] (valueRepr : Value → String)

/-- `(*ns / 1_000_000) as i64` -/
def durationMs (ns : UInt64) : Int64 := (ns / 1000000).toInt64

/-- Strings and arrays are joined, a duration moves a datetime, the rest is arithmetic. -/
def evalAdd (l r : Value) : Except ExecuteError Value :=
  match l, r with
  | .string a, .string b => .ok (.string (a ++ b))
  | .array a, .array b => .ok (.array (a ++ b))
  | .datetime ms, .duration ns => .ok (.datetime (saturatingAddI64 ms (durationMs ns)))
  | .duration ns, .datetime ms => .ok (.datetime (saturatingAddI64 ms (durationMs ns)))
  | .duration a, .duration b => .ok (.duration (saturatingAddU64 a b))
  | l, r =>
    ArithmeticOp.evalArithmetic
      ⟨checkedAddI64, NumberOps.addF64, NumberOps.checkedAdd, "addition"⟩ valueRepr l r

/-- A difference of datetimes is a duration, whichever is the later one. -/
def evalSub (l r : Value) : Except ExecuteError Value :=
  match l, r with
  | .datetime ms, .duration ns => .ok (.datetime (saturatingSubI64 ms (durationMs ns)))
  | .datetime a, .datetime b =>
    .ok (.duration (saturatingMulU64 (unsignedAbs (saturatingSubI64 a b)) 1000000))
  | .duration a, .duration b => .ok (.duration (saturatingSubU64 a b))
  | l, r =>
    ArithmeticOp.evalArithmetic
      ⟨checkedSubI64, NumberOps.subF64, NumberOps.checkedSub, "subtraction"⟩ valueRepr l r

omit [Numerics] [NumberOps] in
theorem durationMs_toInt (ns : UInt64) : (durationMs ns).toInt = ns.toNat / 1000000 := by
  have hlt := ns.toNat_lt
  have hdiv : (ns / 1000000).toNat = ns.toNat / 1000000 := UInt64.toNat_div ns 1000000
  show (ns / 1000000).toInt64.toInt = _
  rw [toInt_toInt64 (by omega), hdiv]
  omega

omit [Numerics] [NumberOps] in
/-- The milliseconds of a difference survive up to the largest duration. -/
theorem durationMs_sub {a b : Int64} (h : b.toInt ≤ a.toInt) :
    (durationMs (saturatingMulU64 (unsignedAbs (saturatingSubI64 a b)) 1000000)).toInt
      = min (a.toInt - b.toInt) 18446744073709 := by
  have hsub := saturatingSubI64_toInt a b
  have habs := unsignedAbs_toNat (saturatingSubI64 a b)
  have hmul : (saturatingMulU64 (unsignedAbs (saturatingSubI64 a b)) 1000000).toNat
      = min ((unsignedAbs (saturatingSubI64 a b)).toNat * 1000000) (2 ^ 64 - 1) :=
    saturatingMulU64_toNat _ _
  rw [durationMs_toInt]
  omega

/-- `b + (a - b) = a`, or an error. -/
theorem add_sub_exact_iff {a b : Int64} (h : b.toInt ≤ a.toInt) :
    (∀ d v, evalSub valueRepr (.datetime a) (.datetime b) = .ok d →
        evalAdd valueRepr (.datetime b) d = .ok v → v = .datetime a) ↔
      a.toInt - b.toInt ≤ 18446744073709 := by
  let ns := saturatingMulU64 (unsignedAbs (saturatingSubI64 a b)) 1000000
  have hms : (durationMs ns).toInt = min (a.toInt - b.toInt) 18446744073709 := durationMs_sub h
  have hadd := saturatingAddI64_toInt b (durationMs ns)
  have hlo := b.le_toInt
  have hhi := a.toInt_lt
  have hlaw : (∀ d v, evalSub valueRepr (.datetime a) (.datetime b) = .ok d →
      evalAdd valueRepr (.datetime b) d = .ok v → v = .datetime a) ↔
      saturatingAddI64 b (durationMs ns) = a := by
    constructor
    · intro hexact
      exact Value.datetime.inj (hexact (.duration ns) _ rfl rfl)
    · intro heq d v hd hv
      cases hd
      cases hv
      show Value.datetime (saturatingAddI64 b (durationMs ns)) = _
      rw [heq]
  rw [hlaw, ← Int64.toInt_inj, hadd, hms]
  omega

/-- `(a + d) - d = a` while the sum stays in range. -/
theorem sub_add_exact {a : Int64} {ns : UInt64} (h : a.toInt + ns.toNat / 1000000 < 2 ^ 63) :
    (evalAdd valueRepr (.datetime a) (.duration ns)).bind
        (evalSub valueRepr · (.duration ns)) = .ok (.datetime a) := by
  have hms := durationMs_toInt ns
  have hadd := saturatingAddI64_toInt a (durationMs ns)
  have hsub := saturatingSubI64_toInt (saturatingAddI64 a (durationMs ns)) (durationMs ns)
  have hlo := a.le_toInt
  have hhi := a.toInt_lt
  have heq : saturatingSubI64 (saturatingAddI64 a (durationMs ns)) (durationMs ns) = a := by
    apply Int64.toInt_inj.mp
    rw [hsub, hadd]
    omega
  show Except.ok (Value.datetime
    (saturatingSubI64 (saturatingAddI64 a (durationMs ns)) (durationMs ns))) = _
  rw [heq]

end Arithmetic

/-! ## Duration literals -/

inductive ParseError where
  | pest (message : String)
  | invalidNumber (text : String)
  | emptyInput
  | invalidType (text : String)
  | unexpectedToken (text : String)
  | missingExpression
  | invalidDatetime (text : String)
  | invalidDuration (text : String)
  | invalidBytes (text : String)
  | invalidStringEscape (text : String)
  deriving DecidableEq, Repr

/-- `char::is_alphabetic`, of which only the rows of ASCII matter here. -/
class Alphabetic where
  isAlphabetic : Char → Bool
  isAlphabetic_ascii : ∀ c : Char, c.toNat < 128 → isAlphabetic c = c.isAlpha

/-- The letters of ASCII alone. -/
@[reducible] def Alphabetic.standIn : Alphabetic where
  isAlphabetic := Char.isAlpha
  isAlphabetic_ascii _ _ := rfl

/-- The number a run of digits is written for. -/
def digitsValue (ds : List Char) : Nat := ds.foldl (fun acc d => acc * 10 + (d.toNat - 48)) 0

/-- `str::parse::<u64>` behind an optional plus sign. -/
def parseDigits (ds : List Char) : Option UInt64 :=
  if ds.all Char.isDigit then exactU64 (digitsValue ds) else none

/-- `str::parse::<u64>` -/
def parseU64 : List Char → Option UInt64
  | [] => none
  | '+' :: d :: ds => parseDigits (d :: ds)
  | ds => parseDigits ds

/-- The nanoseconds of so many units: `none` for an unknown unit, `some none` on overflow. -/
def unitNanos (num : UInt64) (unit : String) : Option (Option UInt64) :=
  match unit with
  | "ns" => some (some num)
  | "us" => some (checkedMulU64 num 1000)
  | "ms" => some (checkedMulU64 num 1000000)
  | "s" => some (checkedMulU64 num 1000000000)
  | "m" => some (checkedMulU64 num (60 * 1000000000))
  | "h" => some (checkedMulU64 num (3600 * 1000000000))
  | "d" => some (checkedMulU64 num (86400 * 1000000000))
  | "w" => some (checkedMulU64 num (604800 * 1000000000))
  | "y" => some (checkedMulU64 num (31536000 * 1000000000))
  | _ => none

section Literals

variable [Alphabetic]

open Alphabetic (isAlphabetic)

/-- The loop of `parse_duration_nanos`: `number` is what stands since `num_start`. -/
def parseSegments (text : String) (number chars : List Char) (totalNanos : UInt64) :
    Except ParseError UInt64 :=
  match chars with
  | [] => .ok totalNanos
  | c :: rest =>
    if isAlphabetic c then
      match parseU64 number with
      | none => .error (.invalidDuration text)
      | some num =>
        match unitNanos num (.ofList (c :: rest.takeWhile isAlphabetic)) with
        | none => .error (.invalidDuration text)
        | some nanos =>
          match nanos.bind (checkedAddU64 totalNanos) with
          | none => .error (.invalidDuration text)
          | some total => parseSegments text [] (rest.dropWhile isAlphabetic) total
    else parseSegments text (number ++ [c]) rest totalNanos
termination_by chars.length
decreasing_by
  · exact Nat.lt_succ_of_le (List.length_dropWhile_le _ _)
  · exact Nat.lt_succ_self _

/-- Parse a duration string such as `1h30m` into nanoseconds. -/
def parseDurationNanos (text : String) : Except ParseError UInt64 :=
  parseSegments text [] text.toList 0

end Literals

/-! ### What a literal is written for -/

/-- `duration_unit` -/
inductive DurationUnit where
  | ns | us | ms | s | m | h | d | w | y
  deriving DecidableEq, Repr

namespace DurationUnit

def text : DurationUnit → List Char
  | .ns => ['n', 's']
  | .us => ['u', 's']
  | .ms => ['m', 's']
  | .s => ['s']
  | .m => ['m']
  | .h => ['h']
  | .d => ['d']
  | .w => ['w']
  | .y => ['y']

def nanos : DurationUnit → Nat
  | .ns => 1
  | .us => 10 ^ 3
  | .ms => 10 ^ 6
  | .s => 10 ^ 9
  | .m => 60 * 10 ^ 9
  | .h => 60 * 60 * 10 ^ 9
  | .d => 24 * 60 * 60 * 10 ^ 9
  | .w => 7 * 24 * 60 * 60 * 10 ^ 9
  | .y => 365 * 24 * 60 * 60 * 10 ^ 9

theorem unitNanos_text (unit : DurationUnit) (num : UInt64) :
    unitNanos num (.ofList unit.text) = some (exactU64 (num.toNat * unit.nanos)) := by
  cases unit with
  | ns =>
    show some (some num) = some (exactU64 (num.toNat * 1))
    rw [Nat.mul_one, exactU64_toNat]
  | us => exact congrArg some (checkedMulU64_eq num 1000)
  | ms => exact congrArg some (checkedMulU64_eq num 1000000)
  | s => exact congrArg some (checkedMulU64_eq num 1000000000)
  | m => exact congrArg some (checkedMulU64_eq num (60 * 1000000000))
  | h => exact congrArg some (checkedMulU64_eq num (3600 * 1000000000))
  | d => exact congrArg some (checkedMulU64_eq num (86400 * 1000000000))
  | w => exact congrArg some (checkedMulU64_eq num (604800 * 1000000000))
  | y => exact congrArg some (checkedMulU64_eq num (31536000 * 1000000000))

theorem text_letters (unit : DurationUnit) :
    unit.text.all (fun c => decide (c.toNat < 128) && c.isAlpha) = true := by
  cases unit <;> decide

end DurationUnit

/-- `duration_segment` -/
structure DurationSegment where
  digits : List Char
  unit : DurationUnit
  digits_ne : digits ≠ []
  digits_isDigit : ∀ c ∈ digits, c.isDigit = true

namespace DurationSegment

def text (seg : DurationSegment) : List Char := seg.digits ++ seg.unit.text

/-- The exact nanoseconds. -/
def nanos (seg : DurationSegment) : Nat := digitsValue seg.digits * seg.unit.nanos

end DurationSegment

/-- The literal `1h30m` of two segments. -/
def literalText (segs : List DurationSegment) : String :=
  .ofList (segs.flatMap DurationSegment.text)

section Literals

variable [Alphabetic]

open Alphabetic (isAlphabetic isAlphabetic_ascii)

omit [Alphabetic] in
theorem parseU64_digits {ds : List Char} (hne : ds ≠ []) (hdigits : ∀ c ∈ ds, c.isDigit = true) :
    parseU64 ds = exactU64 (digitsValue ds) := by
  have hparse : parseU64 ds = parseDigits ds := by
    match ds, hne with
    | c :: cs, _ =>
      have hplus : c ≠ '+' := fun heq => by
        have hc := hdigits c List.mem_cons_self
        rw [heq] at hc
        exact absurd hc (by decide)
      unfold parseU64
      split
      · next heq => cases heq
      · next heq => exact absurd (List.cons.inj heq).1 hplus
      · rfl
  rw [hparse, parseDigits, if_pos (List.all_eq_true.mpr hdigits)]

theorem isAlphabetic_digit {c : Char} (h : c.isDigit = true) : isAlphabetic c = false := by
  have hrange : 48 ≤ c.toNat ∧ c.toNat ≤ 57 := by
    simpa [Char.isDigit, UInt32.le_iff_toNat_le] using h
  rw [isAlphabetic_ascii c (by omega), Bool.eq_false_iff]
  intro halpha
  simp [Char.isAlpha, Char.isUpper, Char.isLower, UInt32.le_iff_toNat_le] at halpha
  have hnat : c.val.toNat = c.toNat := rfl
  omega

/-- Digits are collected. -/
theorem parseSegments_digits (text : String) (rest : List Char) (total : UInt64) (ds : List Char) :
    ∀ number, (∀ c ∈ ds, c.isDigit = true) →
      parseSegments text number (ds ++ rest) total
        = parseSegments text (number ++ ds) rest total := by
  induction ds with
  | nil =>
    intro number _
    rw [List.nil_append, List.append_nil]
  | cons d ds ih =>
    intro number hdigits
    have hd := isAlphabetic_digit (hdigits d List.mem_cons_self)
    rw [List.cons_append, parseSegments, if_neg (by rw [hd]; decide),
      ih _ fun c hc => hdigits c (List.mem_cons_of_mem _ hc), List.append_assoc]
    rfl

/-- What does not begin with a letter: the end, or the next segment. -/
def EndsUnit (rest : List Char) : Prop := rest.takeWhile isAlphabetic = []

theorem endsUnit_flatMap (segs : List DurationSegment) :
    EndsUnit (segs.flatMap DurationSegment.text) := by
  match segs with
  | [] => rfl
  | seg :: segs =>
    obtain ⟨d, ds, hds⟩ := List.exists_cons_of_ne_nil seg.digits_ne
    have hd := isAlphabetic_digit (seg.digits_isDigit d (by rw [hds]; exact List.mem_cons_self))
    show ((seg.digits ++ _) ++ _).takeWhile isAlphabetic = []
    rw [hds, List.cons_append, List.cons_append, List.takeWhile_cons, if_neg (by rw [hd]; decide)]

/-- One segment adds its exact nanoseconds, or the text is refused. -/
theorem parseSegments_segment (text : String) (seg : DurationSegment) {rest : List Char}
    (hrest : EndsUnit rest) (total : UInt64) :
    parseSegments text [] (seg.text ++ rest) total =
      match exactU64 (total.toNat + seg.nanos) with
      | none => .error (.invalidDuration text)
      | some sum => parseSegments text [] rest sum := by
  obtain ⟨u, us, hunit⟩ : ∃ u us, seg.unit.text = u :: us := by
    cases seg.unit <;> exact ⟨_, _, rfl⟩
  have halpha : ∀ c ∈ u :: us, isAlphabetic c = true := fun c hc => by
    have hletter := List.all_eq_true.mp seg.unit.text_letters c (by rw [hunit]; exact hc)
    rw [Bool.and_eq_true, decide_eq_true_iff] at hletter
    rw [isAlphabetic_ascii c hletter.1]
    exact hletter.2
  have hus : ∀ c ∈ us, isAlphabetic c = true := fun c hc => halpha c (List.mem_cons_of_mem _ hc)
  have htake : (us ++ rest).takeWhile isAlphabetic = us := by
    rw [List.takeWhile_append_of_pos hus, hrest, List.append_nil]
  have hdrop : (us ++ rest).dropWhile isAlphabetic = rest := by
    have hsplit := List.takeWhile_append_dropWhile (p := isAlphabetic) (l := us ++ rest)
    rw [htake] at hsplit
    exact List.append_cancel_left hsplit
  have hpos : 1 ≤ seg.unit.nanos := by
    cases seg.unit <;> decide
  show parseSegments text [] ((seg.digits ++ seg.unit.text) ++ rest) total = _
  rw [List.append_assoc, parseSegments_digits text _ total _ _ seg.digits_isDigit, hunit,
    List.nil_append, List.cons_append, parseSegments, if_pos (halpha u List.mem_cons_self), htake,
    hdrop, ← hunit, parseU64_digits seg.digits_ne seg.digits_isDigit]
  by_cases hnum : digitsValue seg.digits < 2 ^ 64
  · have hunits := seg.unit.unitNanos_text (.ofNat (digitsValue seg.digits))
    rw [toNat_ofNat, Nat.mod_eq_of_lt hnum] at hunits
    simp only [exactU64, if_pos hnum, hunits]
    by_cases hseg : seg.nanos < 2 ^ 64
    · rw [if_pos (show digitsValue seg.digits * seg.unit.nanos < 2 ^ 64 from hseg)]
      simp only [Option.bind_some, checkedAddU64_eq]
      rw [toNat_ofNat, 
        Nat.mod_eq_of_lt (show digitsValue seg.digits * seg.unit.nanos < 2 ^ 64 from hseg)]
      rfl
    · have hbig : ¬total.toNat + seg.nanos < 2 ^ 64 := by omega
      rw [if_neg (show ¬digitsValue seg.digits * seg.unit.nanos < 2 ^ 64 from hseg), if_neg hbig]
      rfl
  · have hbig : ¬total.toNat + seg.nanos < 2 ^ 64 := by
      have := Nat.le_mul_of_pos_right (digitsValue seg.digits) hpos
      show ¬total.toNat + digitsValue seg.digits * seg.unit.nanos < 2 ^ 64
      omega
    rw [exactU64, if_neg hnum, exactU64, if_neg hbig]

theorem parseSegments_literal (text : String) (segs : List DurationSegment) :
    ∀ total : UInt64, parseSegments text [] (segs.flatMap DurationSegment.text) total =
      match exactU64 (total.toNat + (segs.map DurationSegment.nanos).sum) with
      | none => .error (.invalidDuration text)
      | some sum => .ok sum := by
  induction segs with
  | nil =>
    intro total
    show parseSegments text [] [] total = match exactU64 total.toNat with
      | none => _
      | some sum => _
    rw [exactU64_toNat, parseSegments]
  | cons seg segs ih =>
    intro total
    rw [List.flatMap_cons, parseSegments_segment text seg (endsUnit_flatMap segs), List.map_cons,
      List.sum_cons, ← Nat.add_assoc]
    by_cases hfits : total.toNat + seg.nanos < 2 ^ 64
    · simp only [exactU64, if_pos hfits]
      have hrun := ih (.ofNat (total.toNat + seg.nanos))
      rw [toNat_ofNat, Nat.mod_eq_of_lt hfits] at hrun
      exact hrun
    · have hbig : ¬total.toNat + seg.nanos + (segs.map DurationSegment.nanos).sum < 2 ^ 64 := by
        omega
      rw [exactU64, if_neg hfits, exactU64, if_neg hbig]

/-- A duration literal is read exactly, and refused only when its value does not fit. -/
theorem parseDurationNanos_segments (segs : List DurationSegment) :
    parseDurationNanos (literalText segs) =
      match exactU64 (segs.map DurationSegment.nanos).sum with
      | none => .error (.invalidDuration (literalText segs))
      | some sum => .ok sum := by
  have hrun := parseSegments_literal (literalText segs) segs 0
  rw [show (0 : UInt64).toNat = 0 from rfl, Nat.zero_add] at hrun
  show parseSegments (literalText segs) [] (literalText segs).toList 0 = _
  rw [show (literalText segs).toList = segs.flatMap DurationSegment.text from
    String.toList_ofList, hrun]

end Literals

/-! ## The laws -/

section Laws

variable [Numerics] [NumberOps] [Alphabetic] (valueRepr : Value → String)

omit [Numerics] [NumberOps] in
/-- A literal has a value exactly when the sum of its segments is one. -/
theorem parseDurationNanos_eq_ok_iff (segs : List DurationSegment) (ns : UInt64) :
    parseDurationNanos (literalText segs) = .ok ns ↔
      ns.toNat = (segs.map DurationSegment.nanos).sum := by
  rw [parseDurationNanos_segments]
  constructor
  · intro h
    by_cases hfits : (segs.map DurationSegment.nanos).sum < 2 ^ 64
    · rw [exactU64, if_pos hfits] at h
      cases h
      rw [toNat_ofNat, Nat.mod_eq_of_lt hfits]
    · rw [exactU64, if_neg hfits] at h
      cases h
  · intro h
    rw [← h, exactU64_toNat]

/-- Where temporal arithmetic is exact or an error: literals and moved datetimes always, a number
of seconds or milliseconds when its nanoseconds fit 64 bits and it is not negative, and a
difference of datetimes when its nanoseconds fit. -/
theorem temporal_exact_iff :
    (∀ n : Int64,
      (∀ d, DurationFunctions.fromSecs (.int n) = .ok d →
        DurationFunctions.secs d = .ok (.int n)) ↔ 0 ≤ n.toInt ∧ n.toInt ≤ 18446744073) ∧
    (∀ n : Int64,
      (∀ d, DurationFunctions.fromMillis (.int n) = .ok d →
        DurationFunctions.millis d = .ok (.int n)) ↔ 0 ≤ n.toInt ∧ n.toInt ≤ 18446744073709) ∧
    (∀ (segs : List DurationSegment) (ns : UInt64),
      parseDurationNanos (literalText segs) = .ok ns ↔
        ns.toNat = (segs.map DurationSegment.nanos).sum) ∧
    (∀ a b : Int64, b.toInt ≤ a.toInt →
      ((∀ d v, evalSub valueRepr (.datetime a) (.datetime b) = .ok d →
        evalAdd valueRepr (.datetime b) d = .ok v → v = .datetime a) ↔
          a.toInt - b.toInt ≤ 18446744073709)) ∧
    ∀ (a : Int64) (ns : UInt64), a.toInt + ns.toNat / 1000000 < 2 ^ 63 →
      (evalAdd valueRepr (.datetime a) (.duration ns)).bind
        (evalSub valueRepr · (.duration ns)) = .ok (.datetime a) :=
  ⟨DurationFunctions.fromSecs_exact_iff, DurationFunctions.fromMillis_exact_iff,
    parseDurationNanos_eq_ok_iff, fun _ _ h => add_sub_exact_iff valueRepr h,
    fun _ _ h => sub_add_exact valueRepr h⟩

end Laws

section Clockwork

local instance : Numerics := .standIn
local instance : NumberOps := .standIn
local instance : Alphabetic := .standIn

/-- Two days apart, and an hour later and back. -/
theorem temporal_exact_example :
    (∀ d v, evalSub (fun _ => "") (.datetime 172800000) (.datetime 0) = .ok d →
      evalAdd (fun _ => "") (.datetime 0) d = .ok v → v = .datetime 172800000) ∧
    (evalAdd (fun _ => "") (.datetime 0) (.duration 3600000000000)).bind
      (evalSub (fun _ => "") · (.duration 3600000000000)) = .ok (.datetime 0) :=
  ⟨((temporal_exact_iff fun _ => "").2.2.2.1 172800000 0 (by decide)).mpr (by decide),
    (temporal_exact_iff fun _ => "").2.2.2.2 0 3600000000000 (by decide)⟩

/-- Minus one second becomes some 584 years. -/
theorem fromSecs_negative :
    ∃ d m, DurationFunctions.fromSecs (.int (-1)) = .ok d ∧
      DurationFunctions.secs d = .ok (.int m) ∧ m ≠ -1 :=
  ⟨_, 18446744072, rfl, rfl, by decide⟩

end Clockwork

end StellarDb
