import StellarDb.Lib.Distinct
import StellarDb.Query.Ast
import StellarDb.Query.KeyTexts

/-!
# StellarDb — membership tests (`eval/mod.rs`, `function/definitions.rs`)

`IN` compares with the equality of `=`. `array::contains` has an equality of its own, without rows
for decimals and references but with one for arrays, and `array::distinct` tells its items apart
by their texts. On values without doubles the equality of `array::contains` is plain identity
(`valuesEqual_iff_eq`), so it misses the values that `=` identifies and finds arrays that `=` never
finds.
-/

namespace StellarDb

open Distincts

/-- Texts of the payloads of compound values, from their `Debug` instances. -/
class PayloadText where
  elems : List Value → String
  entries : List (String × Value) → String

/-- A stand-in, for runs on scalars. -/
@[reducible] def PayloadText.standIn : PayloadText where
  elems _ := ""
  entries _ := ""

/-! ## Functions on arrays (`function/definitions.rs`) -/

namespace ArrayFunctions

mutual

/-- `values_equal`, the helper of `array::contains`. -/
def valuesEqual : Value → Value → Bool
  | .null, .null => true
  | .bool x, .bool y => x == y
  | .int x, .int y => x == y
  | .float x, .float y => x.within y
  | .int x, .float y => (F64.ofInt x.toInt).within y
  | .float y, .int x => (F64.ofInt x.toInt).within y
  | .string x, .string y => x == y
  | .array x, .array y => x.length == y.length && valuesEqualAll x y
  | _, _ => false

/-- `x.iter().zip(y.iter()).all(..)` -/
def valuesEqualAll : List Value → List Value → Bool
  | x :: xs, y :: ys => valuesEqual x y && valuesEqualAll xs ys
  | _, _ => true

end

variable (ctx : AstContext)

/-- `array::contains` -/
def contains (arr needle : Value) : Except ExecuteError Value :=
  match arr with
  | .null => .ok .null
  | .array arr => .ok (.bool (arr.any fun item => valuesEqual item needle))
  | other => .error (.typeError "Array" (ctx.base.valueTypeName other) "array::contains")

/-- `serialize_val`; but for arrays and objects its texts are those of `serialize_value`. -/
def serializeVal [External] [ValueText] [PayloadText] : Value → String
  | .array a => PayloadText.elems a
  | .object o => PayloadText.entries o
  | v => serializeValue v

/-- `array::distinct` -/
def distinct [External] [ValueText] [PayloadText] (arr : Value) : Except ExecuteError Value :=
  match arr with
  | .null => .ok .null
  | .array arr => .ok (.array (distinctOn serializeVal [] arr))
  | other => .error (.typeError "Array" (ctx.base.valueTypeName other) "array::distinct")

/-- `FunctionDef::call`: the arity is checked first. -/
def call (function : String) (arity : Nat) (eval : List Value → Except ExecuteError Value)
    (args : List Value) : Except ExecuteError Value :=
  if args.length = arity then eval args
  else
    .error (.other ("Function " ++ function ++ " expects " ++ toString arity ++
      " argument(s), got " ++ toString args.length))

/-- The registry with the two functions, found by name whatever the case. -/
def registry [External] [ValueText] [PayloadText] (ns : Option String) (name : String)
    (args : List Value) : Except ExecuteError Value :=
  if ns.map String.toLower = some "array" ∧ name.toLower = "contains" then
    call "array::contains" 2
      (fun args => contains ctx (args.headD .null) ((args.drop 1).headD .null)) args
  else if ns.map String.toLower = some "array" ∧ name.toLower = "distinct" then
    call "array::distinct" 1 (fun args => distinct ctx (args.headD .null)) args
  else ctx.callFunction ns name args

end ArrayFunctions

/-- Evaluation with the functions on arrays in the registry. -/
def AstContext.withArrayFunctions [External] [ValueText] [PayloadText] (ctx : AstContext) :
    AstContext := { ctx with callFunction := ArrayFunctions.registry ctx }

/-! ## The equality of `array::contains` -/

namespace Value

mutual

/-- Nulls, truth values, integers, strings and arrays of these. -/
def plain : Value → Bool
  | .null | .bool _ | .int _ | .string _ => true
  | .array elems => plainElems elems
  | _ => false

def plainElems : List Value → Bool
  | [] => true
  | v :: vs => v.plain && plainElems vs

end

end Value

namespace ArrayFunctions

theorem valuesEqualAll_iff {xs ys : List Value}
    (ih : ∀ x ∈ xs, ∀ y, x.withoutFloat = true → y.withoutFloat = true →
      (valuesEqual x y = true ↔ x = y ∧ x.plain = true))
    (hxs : Value.withoutFloatElems xs = true) (hys : Value.withoutFloatElems ys = true) :
    (xs.length == ys.length && valuesEqualAll xs ys) = true ↔
      xs = ys ∧ Value.plainElems xs = true := by
  induction xs generalizing ys with
  | nil =>
    cases ys with
    | nil => simp [valuesEqualAll, Value.plainElems]
    | cons y ys => simp
  | cons x xs ihs =>
    cases ys with
    | nil => simp
    | cons y ys =>
      rw [Value.withoutFloatElems, Bool.and_eq_true] at hxs hys
      rw [List.forall_mem_cons] at ih
      have hhead := ih.1 y hxs.1 hys.1
      have htail := ihs ih.2 hxs.2 hys.2
      rw [Bool.and_eq_true, beq_iff_eq] at htail
      simp only [valuesEqualAll, Value.plainElems, Bool.and_eq_true, beq_iff_eq,
        List.length_cons, Nat.add_right_cancel_iff, List.cons.injEq, hhead]
      tauto

/-- Without doubles it is identity, on the kinds of value it has a row for. -/
theorem valuesEqual_iff_eq (a : Value) : ∀ b, a.withoutFloat = true → b.withoutFloat = true →
    (valuesEqual a b = true ↔ a = b ∧ a.plain = true) := by
  induction a with
  | array elems ih =>
    intro b ha hb
    cases b with
    | array elems' =>
      rw [valuesEqual, valuesEqualAll_iff ih ha hb]
      simp [Value.plain]
    | _ => simp [valuesEqual]
  | float f =>
    intro b ha hb
    cases ha
  | int n =>
    intro b ha hb
    cases b with
    | float f => cases hb
    | _ => simp [valuesEqual, Value.plain]
  | _ =>
    intro b ha hb
    cases b <;> simp [valuesEqual, Value.plain]

end ArrayFunctions

/-! ## The tests -/

section Tests

variable [Numerics] [External] [ValueText] [PayloadText]

section Statements

variable (ctx : AstContext) (row : Row)

/-- The expression evaluates to true. -/
def IsTrue (e : AstExpr) : Prop := evalAst ctx.withArrayFunctions row e = .ok (.bool true)

/-- Some item of the array is equal to `x`. -/
def HasEqual (elems : List Value) (x : Value) : Prop :=
  ∃ e ∈ elems, IsTrue ctx row (.binaryOp (.literal e) .eq (.literal x))

/-- The three membership tests find `x` exactly when some item is equal to it. -/
structure OneEquality (elems : List Value) (x : Value) : Prop where
  inList : IsTrue ctx row (.inList (.literal x) (elems.map .literal) false) ↔
    HasEqual ctx row elems x
  inArray : IsTrue ctx row (.inExpr (.literal x) (.literal (.array elems)) false) ↔
    HasEqual ctx row elems x
  contains : IsTrue ctx row (.functionCall (some "array") "contains"
    [.literal (.array elems), .literal x]) ↔ HasEqual ctx row elems x

/-- `array::distinct` keeps a subsequence without equal items that has an equal of every item. -/
def DistinctExact (elems : List Value) : Prop :=
  ∃ kept, evalAst ctx.withArrayFunctions row
      (.functionCall (some "array") "distinct" [.literal (.array elems)]) = .ok (.array kept) ∧
    kept.Sublist elems ∧
    (kept.Pairwise fun a b =>
      ¬IsTrue ctx row (.binaryOp (.literal a) .eq (.literal b))) ∧
    ∀ v ∈ elems, HasEqual ctx row kept v

end Statements

/-- What `=` makes equal to `x` is found by identity, or is not there: an `Int` stands with no
`Decimal` of its number unless it is there itself, a string with no reference of its text unless
it is there itself, nothing is equal to a `Decimal` or a `Reference`, and an array of plain
values is not in the array. -/
def FoundAlike (elems : List Value) : Value → Prop
  | .int n => .int n ∈ elems ∨ ∀ d, .decimal d ∈ elems → d.toRat ≠ (n.toInt : ℚ)
  | .string s => .string s ∈ elems ∨ .reference s ∉ elems
  | .decimal d => ∀ e ∈ elems, e.scalar ≠ some (.number d.toRat)
  | .reference id => ∀ e ∈ elems, e.scalar ≠ some (.text id)
  | .array items => (Value.array items).plain = true → .array items ∉ elems
  | _ => True

/-- The items are scalars, no string stands with the reference of its text, and equal numbers are
written the same. -/
structure SpelledAlike (elems : List Value) : Prop where
  scalars : ∀ v ∈ elems, v.scalar ≠ none
  texts : ∀ s, .string s ∈ elems → .reference s ∉ elems
  integers : ∀ n d, .int n ∈ elems → .decimal d ∈ elems → d.toRat = (n.toInt : ℚ) →
    External.decimalToString d = toString n.toInt
  decimals : ∀ d d', .decimal d ∈ elems → .decimal d' ∈ elems → d.toRat = d'.toRat →
    External.decimalToString d = External.decimalToString d'

variable {ctx : AstContext} {row : Row} {elems : List Value} {x : Value}

/-- Not null, and without doubles. -/
def Tested (v : Value) : Prop := v.isNull = false ∧ v.withoutFloat = true

omit [External] [ValueText] [PayloadText] in
theorem Tested.valuesEqual_iff {v w : Value} (hv : Tested v) (hw : Tested w) :
    valuesEqual v w = true ↔ ∃ s, v.scalar = some s ∧ w.scalar = some s :=
  StellarDb.valuesEqual_iff hv.1 (Value.isFloat_of_withoutFloat hv.2)
    (Value.isFloat_of_withoutFloat hw.2)

theorem isTrue_eq_iff {v w : Value} (hv : Tested v) (hw : Tested w) :
    IsTrue ctx row (.binaryOp (.literal v) .eq (.literal w)) ↔
      ∃ s, v.scalar = some s ∧ w.scalar = some s := by
  show evalBinary ctx.base .eq v w = .ok (.bool true) ↔ _
  rw [evalBinary_eq hv.1 hw.1, Except.ok.injEq, Value.bool.injEq, hv.valuesEqual_iff hw]

theorem hasEqual_iff (helems : ∀ e ∈ elems, Tested e) (hx : Tested x) :
    HasEqual ctx row elems x ↔ ∃ e ∈ elems, ∃ s, e.scalar = some s ∧ x.scalar = some s :=
  exists_congr fun _ => and_congr_right fun he => isTrue_eq_iff (helems _ he) hx

omit [External] [ValueText] [PayloadText] in
theorem evalAstItems_literals (c : AstContext) (helems : ∀ e ∈ elems, Tested e) :
    evalAstItems c row x false (elems.map .literal) = .ok (some (elems.any (valuesEqual x))) := by
  induction elems with
  | nil => rfl
  | cons e elems ih =>
    rw [List.forall_mem_cons] at helems
    rw [List.map_cons, evalAstItems, evalAst]
    show (if e.isNull then _ else _) = _
    rw [helems.1.1, if_neg Bool.false_ne_true, ih helems.2, List.any_cons]
    cases valuesEqual x e <;> rfl

omit [External] [ValueText] [PayloadText] in
theorem any_valuesEqual_iff (helems : ∀ e ∈ elems, Tested e) (hx : Tested x) :
    elems.any (valuesEqual x) = true ↔
      ∃ e ∈ elems, ∃ s, e.scalar = some s ∧ x.scalar = some s := by
  rw [List.any_eq_true]
  refine exists_congr fun e => and_congr_right fun he => ?_
  rw [hx.valuesEqual_iff (helems e he)]
  exact exists_congr fun _ => and_comm

/-- An `IN` list finds what `=` finds. -/
theorem inList_iff (helems : ∀ e ∈ elems, Tested e) (hx : Tested x) :
    IsTrue ctx row (.inList (.literal x) (elems.map .literal) false) ↔
      HasEqual ctx row elems x := by
  rw [hasEqual_iff helems hx, ← any_valuesEqual_iff helems hx, IsTrue, evalAst, evalAst]
  show (if x.isNull then _ else _) = _ ↔ _
  rw [hx.1, if_neg Bool.false_ne_true, evalAstItems_literals _ helems]
  show Except.ok (Value.bool _) = _ ↔ _
  rw [Except.ok.injEq, Value.bool.injEq]
  rfl

/-- `IN` an array value finds what `=` finds. -/
theorem inArray_iff (helems : ∀ e ∈ elems, Tested e) (hx : Tested x) :
    IsTrue ctx row (.inExpr (.literal x) (.literal (.array elems)) false) ↔
      HasEqual ctx row elems x := by
  rw [hasEqual_iff helems hx, ← any_valuesEqual_iff helems hx, IsTrue, evalAst, evalAst]
  have hany : (elems.any fun item => !item.isNull && valuesEqual x item) =
      elems.any (valuesEqual x) := by
    rw [Bool.eq_iff_iff, List.any_eq_true, List.any_eq_true]
    refine exists_congr fun e => and_congr_right fun he => ?_
    rw [(helems e he).1]
    rfl
  have hnull : elems.any (·.isNull) = false := by
    rw [List.any_eq_false]
    intro e he
    rw [(helems e he).1]
    exact Bool.false_ne_true
  show (if x.isNull then _ else _) = _ ↔ _
  rw [hx.1, if_neg Bool.false_ne_true]
  show (if elems.any (fun item => !item.isNull && valuesEqual x item) then _
    else if elems.any (·.isNull) then _ else _) = _ ↔ _
  rw [hany, hnull]
  cases elems.any (valuesEqual x) <;> simp

omit [Numerics] in
theorem evalCall_contains (arr needle : Value) :
    ctx.withArrayFunctions.evalCall row (some "array") "contains" [arr, needle] =
      ArrayFunctions.contains ctx arr needle := by
  rw [AstContext.evalCall, if_neg (by decide), if_neg (by decide)]
  show ArrayFunctions.registry ctx (some "array") "contains" [arr, needle] = _
  rw [ArrayFunctions.registry, if_pos (by decide +kernel)]
  rfl

omit [Numerics] in
theorem evalCall_distinct (arr : Value) :
    ctx.withArrayFunctions.evalCall row (some "array") "distinct" [arr] =
      ArrayFunctions.distinct ctx arr := by
  rw [AstContext.evalCall, if_neg (by decide), if_neg (by decide)]
  show ArrayFunctions.registry ctx (some "array") "distinct" [arr] = _
  rw [ArrayFunctions.registry, if_neg (by decide +kernel), if_pos (by decide +kernel)]
  rfl

/-- `array::contains` finds `x` itself, if it is of a kind it has a row for. -/
theorem contains_iff (helems : ∀ e ∈ elems, Tested e) (hx : Tested x) :
    IsTrue ctx row (.functionCall (some "array") "contains"
      [.literal (.array elems), .literal x]) ↔ x ∈ elems ∧ x.plain = true := by
  show ctx.withArrayFunctions.evalCall row (some "array") "contains" [.array elems, x] = _ ↔ _
  rw [evalCall_contains]
  show Except.ok (Value.bool (elems.any fun item => ArrayFunctions.valuesEqual item x)) = _ ↔ _
  rw [Except.ok.injEq, Value.bool.injEq, List.any_eq_true]
  constructor
  · rintro ⟨e, he, h⟩
    obtain ⟨rfl, hplain⟩ :=
      (ArrayFunctions.valuesEqual_iff_eq e x (helems e he).2 hx.2).mp h
    exact ⟨he, hplain⟩
  · rintro ⟨hmem, hplain⟩
    exact ⟨x, hmem, (ArrayFunctions.valuesEqual_iff_eq x x hx.2 hx.2).mpr ⟨rfl, hplain⟩⟩

omit [Numerics] [External] [ValueText] [PayloadText] in
theorem scalar_eq_bool {v : Value} {b : Bool} : v.scalar = some (.bool b) ↔ v = .bool b := by
  cases v <;> simp [Value.scalar]

omit [Numerics] [External] [ValueText] [PayloadText] in
theorem scalar_eq_number {v : Value} {q : ℚ} : v.scalar = some (.number q) ↔
    (∃ n, v = .int n ∧ (n.toInt : ℚ) = q) ∨ ∃ d, v = .decimal d ∧ d.toRat = q := by
  cases v <;> simp [Value.scalar]

omit [Numerics] [External] [ValueText] [PayloadText] in
theorem scalar_eq_text {v : Value} {s : String} : v.scalar = some (.text s) ↔
    v = .string s ∨ v = .reference s := by
  cases v <;> simp [Value.scalar]

omit [Numerics] [External] [ValueText] [PayloadText] in
theorem exists_equal_some {t : Scalar} (hx : x.scalar = some t) :
    (∃ e ∈ elems, ∃ s, e.scalar = some s ∧ x.scalar = some s) ↔
      ∃ e ∈ elems, e.scalar = some t := by
  rw [hx]
  refine exists_congr fun e => and_congr_right fun _ => ⟨?_, fun h => ⟨t, h, rfl⟩⟩
  rintro ⟨s, hs, hts⟩
  rw [hs, hts]

omit [Numerics] [External] [ValueText] [PayloadText] in
theorem exists_equal_none (hx : x.scalar = none) :
    ¬∃ e ∈ elems, ∃ s, e.scalar = some s ∧ x.scalar = some s := by
  rintro ⟨e, -, s, -, hs⟩
  rw [hx] at hs
  cases hs

omit [Numerics] [External] [ValueText] [PayloadText] in
theorem exists_number {q : ℚ} : (∃ e ∈ elems, e.scalar = some (.number q)) ↔
    (∃ n, .int n ∈ elems ∧ (n.toInt : ℚ) = q) ∨ ∃ d, .decimal d ∈ elems ∧ d.toRat = q := by
  constructor
  · rintro ⟨e, he, h⟩
    rcases scalar_eq_number.mp h with ⟨n, rfl, hn⟩ | ⟨d, rfl, hd⟩
    · exact Or.inl ⟨n, he, hn⟩
    · exact Or.inr ⟨d, he, hd⟩
  · rintro (⟨n, hn, heq⟩ | ⟨d, hd, heq⟩)
    · exact ⟨_, hn, scalar_eq_number.mpr (Or.inl ⟨n, rfl, heq⟩)⟩
    · exact ⟨_, hd, scalar_eq_number.mpr (Or.inr ⟨d, rfl, heq⟩)⟩

omit [Numerics] [External] [ValueText] [PayloadText] in
/-- Identity and equality agree on whether `x` is there. -/
theorem foundAlike_iff (hx : Tested x) :
    (x ∈ elems ∧ x.plain = true ↔ ∃ e ∈ elems, ∃ s, e.scalar = some s ∧ x.scalar = some s) ↔
      FoundAlike elems x := by
  cases x with
  | null => cases hx.1
  | float f => cases hx.2
  | bool b =>
    rw [exists_equal_some (t := .bool b) rfl]
    simp only [scalar_eq_bool, exists_eq_right]
    exact iff_of_true (and_iff_left rfl) trivial
  | int n =>
    have hself : (∃ m : Int64, .int m ∈ elems ∧ (m.toInt : ℚ) = n.toInt) ↔ .int n ∈ elems :=
      ⟨fun ⟨m, hm, heq⟩ => Int64.toInt_inj.mp (Int.cast_injective heq) ▸ hm, fun h => ⟨n, h, rfl⟩⟩
    rw [exists_equal_some (t := .number n.toInt) rfl, exists_number, hself,
      and_iff_left (show (Value.int n).plain = true from rfl)]
    show _ ↔ (.int n ∈ elems ∨ ∀ d, .decimal d ∈ elems → d.toRat ≠ (n.toInt : ℚ))
    by_cases hmem : .int n ∈ elems
    · exact iff_of_true (iff_of_true hmem (Or.inl hmem)) (Or.inl hmem)
    · simp [hmem]
  | string s =>
    rw [exists_equal_some (t := .text s) rfl, and_iff_left (show (Value.string s).plain = true from rfl)]
    simp only [scalar_eq_text, and_or_left, exists_or, exists_eq_right]
    show _ ↔ (.string s ∈ elems ∨ .reference s ∉ elems)
    tauto
  | decimal d =>
    rw [exists_equal_some (t := .number d.toRat) rfl]
    exact ⟨fun h e he heq => Bool.false_ne_true (h.mpr ⟨e, he, heq⟩).2,
      fun h => iff_of_false (fun h' => Bool.false_ne_true h'.2) fun ⟨e, he, heq⟩ => h e he heq⟩
  | reference id =>
    rw [exists_equal_some (t := .text id) rfl]
    exact ⟨fun h e he heq => Bool.false_ne_true (h.mpr ⟨e, he, heq⟩).2,
      fun h => iff_of_false (fun h' => Bool.false_ne_true h'.2) fun ⟨e, he, heq⟩ => h e he heq⟩
  | array items =>
    rw [iff_false_right (exists_equal_none rfl), not_and']
    rfl
  | _ =>
    rw [iff_false_right (exists_equal_none rfl)]
    exact iff_of_true (fun h => Bool.false_ne_true h.2) trivial

theorem oneEquality_iff (helems : ∀ e ∈ elems, Tested e) (hx : Tested x) :
    OneEquality ctx row elems x ↔ FoundAlike elems x := by
  have hcontains : (IsTrue ctx row (.functionCall (some "array") "contains"
      [.literal (.array elems), .literal x]) ↔ HasEqual ctx row elems x) ↔ FoundAlike elems x := by
    rw [contains_iff helems hx, hasEqual_iff helems hx, foundAlike_iff hx]
  rw [← hcontains]
  exact ⟨fun h => h.contains, fun h => ⟨inList_iff helems hx, inArray_iff helems hx, h⟩⟩

omit [Numerics] in
theorem serializeVal_scalar {v : Value} {s : Scalar} (hv : v.scalar = some s) :
    ArrayFunctions.serializeVal v = serializeValue v := by
  cases v <;> first | rfl | cases hv

omit [Numerics] in
/-- Equal items have one text exactly when they are spelled alike. -/
theorem spelledAlike_iff (htexts : DecimalTexts) (hscalars : ∀ v ∈ elems, v.scalar ≠ none) :
    (∀ v ∈ elems, ∀ w ∈ elems, v.scalar = w.scalar →
      ArrayFunctions.serializeVal v = ArrayFunctions.serializeVal w) ↔ SpelledAlike elems := by
  constructor
  · intro h
    refine ⟨hscalars, ?_, ?_, ?_⟩
    · intro s hs hr
      have hkey := h _ hs _ hr rfl
      cases (scalar_of_serializeValue htexts (v := .string s) (w := .reference s) rfl rfl hkey).2
    · intro n d hn hd heq
      have hscalar : (Value.decimal d).scalar = (Value.int n).scalar :=
        congrArg (fun q => some (Scalar.number q)) heq
      exact h _ hd _ hn hscalar
    · intro d d' hd hd' heq
      have hscalar : (Value.decimal d).scalar = (Value.decimal d').scalar :=
        congrArg (fun q => some (Scalar.number q)) heq
      exact h _ hd _ hd' hscalar
  · intro h v hv w hw hvw
    obtain ⟨s, hs⟩ := Option.ne_none_iff_exists'.mp (hscalars v hv)
    rw [serializeVal_scalar hs, serializeVal_scalar (hvw ▸ hs)]
    rw [hs] at hvw
    cases s with
    | bool b => rw [scalar_eq_bool.mp hs, scalar_eq_bool.mp hvw.symm]
    | text s =>
      rcases scalar_eq_text.mp hs with rfl | rfl <;>
        rcases scalar_eq_text.mp hvw.symm with rfl | rfl
      · rfl
      · exact absurd hw (h.texts s hv)
      · exact absurd hv (h.texts s hw)
      · rfl
    | number q =>
      rcases scalar_eq_number.mp hs with ⟨n, rfl, hn⟩ | ⟨d, rfl, hd⟩ <;>
        rcases scalar_eq_number.mp hvw.symm with ⟨m, rfl, hm⟩ | ⟨e, rfl, he⟩
      · rw [Int64.toInt_inj.mp (Int.cast_injective (hn.trans hm.symm))]
      · exact (h.integers n e hv hw (he.trans hn.symm)).symm
      · exact h.integers m d hw hv (hd.trans hm.symm)
      · exact h.decimals d e hv hw (hd.trans he.symm)

theorem distinctExact_iff (htexts : DecimalTexts) (helems : ∀ e ∈ elems, Tested e) :
    DistinctExact ctx row elems ↔ SpelledAlike elems := by
  have heval : evalAst ctx.withArrayFunctions row
      (.functionCall (some "array") "distinct" [.literal (.array elems)]) =
        .ok (.array (distinctOn ArrayFunctions.serializeVal [] elems)) := evalCall_distinct _
  generalize hkept : distinctOn ArrayFunctions.serializeVal [] elems = kept at heval
  have hsub : kept.Sublist elems := hkept ▸ distinctOn_sublist [] elems
  have hkeptExact : ∀ e ∈ kept, Tested e := fun e he => helems e (hsub.subset he)
  -- with scalars only, items are equal when their scalars are, and texts give the scalars back
  have hpair : (∀ v ∈ elems, v.scalar ≠ none) →
      ((kept.Pairwise fun a b => ¬IsTrue ctx row (.binaryOp (.literal a) .eq (.literal b))) ↔
        SpelledAlike elems) := by
    intro hscalars
    have hval : (kept.Pairwise fun a b =>
        ¬IsTrue ctx row (.binaryOp (.literal a) .eq (.literal b))) ↔
          kept.Pairwise fun a b => a.scalar ≠ b.scalar := by
      refine List.Pairwise.iff_of_mem fun {a b} ha hb => not_congr ?_
      rw [isTrue_eq_iff (hkeptExact a ha) (hkeptExact b hb)]
      obtain ⟨s, hs⟩ := Option.ne_none_iff_exists'.mp (hscalars a (hsub.subset ha))
      rw [hs]
      exact ⟨fun ⟨t, ht, hb⟩ => ht.trans hb.symm, fun h => ⟨s, rfl, h.symm⟩⟩
    rw [hval, ← hkept, ← spelledAlike_iff htexts hscalars]
    refine pairwise_distinctOn_iff fun a ha b hb hkey => ?_
    obtain ⟨s, hs⟩ := Option.ne_none_iff_exists'.mp (hscalars a ha)
    obtain ⟨t, ht⟩ := Option.ne_none_iff_exists'.mp (hscalars b hb)
    rw [serializeVal_scalar hs, serializeVal_scalar ht] at hkey
    rw [hs, ht, (scalar_of_serializeValue htexts hs ht hkey).1]
  constructor
  · rintro ⟨kept', heval', -, hpairwise, hcover⟩
    rw [heval] at heval'
    cases heval'
    refine (hpair fun v hv => ?_).mp hpairwise
    obtain ⟨e, -, s, -, hs⟩ := (hasEqual_iff hkeptExact (helems v hv)).mp (hcover v hv)
    rw [hs]
    exact Option.some_ne_none s
  · intro h
    refine ⟨kept, heval, hsub, (hpair h.scalars).mpr h, fun v hv => ?_⟩
    obtain ⟨s, hs⟩ := Option.ne_none_iff_exists'.mp (h.scalars v hv)
    obtain ⟨e, he, hkey⟩ := exists_kept ArrayFunctions.serializeVal hv
    rw [hkept] at he
    obtain ⟨t, ht⟩ := Option.ne_none_iff_exists'.mp (h.scalars e (hsub.subset he))
    rw [serializeVal_scalar hs, serializeVal_scalar ht] at hkey
    rw [hasEqual_iff hkeptExact (helems v hv)]
    exact ⟨e, he, s, by rw [ht, (scalar_of_serializeValue htexts ht hs hkey).1], hs⟩

/-- All membership tests use one equality exactly when what `=` makes equal to `x` is `x` itself
and the equal items of the array are written the same. -/
theorem membership_exact_iff (htexts : DecimalTexts) (helems : ∀ e ∈ elems, Tested e)
    (hx : Tested x) :
    OneEquality ctx row elems x ∧ DistinctExact ctx row elems ↔
      FoundAlike elems x ∧ SpelledAlike elems :=
  and_congr (oneEquality_iff helems hx) (distinctExact_iff htexts helems)

end Tests

namespace Tags

local instance : Numerics := .standIn

/-- Decimals as `rust_decimal` writes them. -/
local instance : External where
  xxh3_128 := id
  decimalToString := Decimal.text
  decimalBytesFromStr _ := none

local instance : ValueText := .standIn

local instance : PayloadText := .standIn

def context : AstContext where
  base := Clocks.ctx
  callFunction _ _ _ := .error (.other "unknown function")
  constant _ _ := .error (.other "unknown constant")
  scope _ := .error (.other "undefined variable")

def row : Row := .fromDoc ⟨"posts:1", [], Value.wf_no_fields⟩

/-- `[3, "new", true, posts:2]` -/
def tags : List Value := [.int 3, .string "new", .bool true, .reference "posts:2"]

theorem tags_exact : OneEquality context row tags (.string "new") ∧
    DistinctExact context row tags := by
  have htags : ∀ e ∈ tags, Tested e :=
    List.forall_iff_forall_mem.mp ⟨⟨rfl, rfl⟩, ⟨rfl, rfl⟩, ⟨rfl, rfl⟩, ⟨rfl, rfl⟩⟩
  apply (membership_exact_iff Decimal.readNumeral_text htags ⟨rfl, rfl⟩).mpr
  refine ⟨Or.inl (by simp [tags]), ?_, ?_, ?_, ?_⟩
  · exact List.forall_iff_forall_mem.mp (by simp [tags, Value.scalar])
  · intro s hs
    have hnew : s = "new" := by simpa [tags] using hs
    rw [hnew]
    simp [tags]
  · intro n d _ hd
    simp [tags] at hd
  · intro d d' hd
    simp [tags] at hd

/-- `1.0` and `1.00`: `1` is equal to both, `array::contains` finds it in neither, and
`array::distinct` keeps both. -/
def prices : List Value := [.decimal ⟨false, 1, 10⟩, .decimal ⟨false, 2, 100⟩]

theorem prices_inexact : ¬OneEquality context row prices (.int 1) ∧
    ¬DistinctExact context row prices := by
  have hprices : ∀ e ∈ prices, Tested e :=
    List.forall_iff_forall_mem.mp ⟨⟨rfl, rfl⟩, ⟨rfl, rfl⟩⟩
  have heq : (⟨false, 1, 10⟩ : Decimal).toRat = 1 ∧ (⟨false, 2, 100⟩ : Decimal).toRat = 1 := by
    constructor <;> norm_num [Decimal.toRat]
  constructor
  · rw [oneEquality_iff hprices ⟨rfl, rfl⟩]
    rintro (hmem | hne)
    · simp [prices] at hmem
    · exact hne _ List.mem_cons_self heq.1
  · rw [distinctExact_iff Decimal.readNumeral_text hprices]
    intro h
    have htext := h.decimals _ _ List.mem_cons_self (List.mem_cons_of_mem _ List.mem_cons_self)
      (heq.1.trans heq.2.symm)
    exact absurd htext (by decide +kernel)

end Tags

end StellarDb
