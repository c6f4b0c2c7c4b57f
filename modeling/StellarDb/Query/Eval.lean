import StellarDb.Schema

/-!
# StellarDb — expression evaluation (`query/ast/expr.rs`, `query/execute/eval`)

`Expr` has a constructor for each kind of expression the planner looks into; every other kind
(functions, subqueries, variables, …) is an `other`, whose value the context supplies. The
evaluator is three-valued: `AND` and `OR` take `Bool` and `Null` and fail on anything else, a
comparison with `Null` is `Null`, and a filter passes when its value is truthy.

`AND` and `OR` are treated together (`Connective`). An `AND` or `OR` that evaluates has only
logical operands (`isLogical_operands`), and among logical operands passing as a filter
follows the connective (`connective_spec`). That is what lets the planner take a tree of
conjunctions apart and put it together again in another shape.
-/

namespace StellarDb

open Keyspaces

/-! ## Numbers -/

namespace F64

/-- The exact value of a finite double. -/
def toRat (f : F64) : ℚ := if f.isNegative then -f.absRat else f.absRat

/-- Position of a double that is not a NaN in the order of doubles. -/
def rank (f : F64) : Int :=
  if f.isNegative then -(f.bits.toNat % 2 ^ 63 : Nat) else (f.bits.toNat % 2 ^ 63 : Nat)

/-- `partial_cmp` on `f64`. -/
def partialCmp (f g : F64) : Option Ordering :=
  if f.isNan || g.isNan then none else some (compare f.rank g.rank)

/-- `n as f64`: round to nearest, ties to even. -/
def ofInt (n : Int) : F64 :=
  if n = 0 then ⟨0⟩
  else
    let a := n.natAbs
    let l := Nat.log2 a
    let q :=
      if l ≤ 52 then a * 2 ^ (52 - l)
      else
        let half := 2 ^ (l - 53)
        let q := a / 2 ^ (l - 52)
        let r := a % 2 ^ (l - 52)
        if half < r || (r = half && q % 2 = 1) then q + 1 else q
    -- a carry out of the significand raises the exponent by itself
    let magnitude := (1022 + l) * 2 ^ 52 + q
    ⟨UInt64.ofNat (if n < 0 then 2 ^ 63 + magnitude else magnitude)⟩

/-- `(f - g).abs() < f64::EPSILON`. The rounded difference stays below `2 ^ -52` exactly when
the true one is below the midpoint between `2 ^ -52` and the double before it. -/
def within (f g : F64) : Bool :=
  !(f.isNan || g.isNan || f.isInfinite || g.isInfinite) &&
    decide (|f.toRat - g.toRat| < 1 / 2 ^ 52 - 1 / 2 ^ 106)

end F64

namespace Decimal

def toRat (d : Decimal) : ℚ :=
  (if d.negative then -(d.mantissa.val : ℚ) else d.mantissa.val) / 10 ^ d.scale.val

/-- `Decimal::from(i64)` -/
def ofInt64 (n : Int64) : Decimal where
  negative := n.toInt < 0
  scale := 0
  mantissa := Fin.ofNat _ n.toInt.natAbs

theorem toRat_ofInt64 (n : Int64) : (ofInt64 n).toRat = n.toInt := by
  have hlo := n.le_toInt
  have hhi := n.toInt_lt
  have hmant : (ofInt64 n).mantissa.val = n.toInt.natAbs := by
    show n.toInt.natAbs % 2 ^ 96 = n.toInt.natAbs
    exact Nat.mod_eq_of_lt (by omega)
  unfold toRat
  rw [hmant]
  show (if decide (n.toInt < 0) = true then -((n.toInt.natAbs : ℕ) : ℚ) else (n.toInt.natAbs : ℕ))
    / 10 ^ 0 = n.toInt
  rw [pow_zero, div_one, Nat.cast_natAbs]
  split
  · next h =>
    rw [abs_of_neg (of_decide_eq_true h)]
    push_cast
    ring
  · next h =>
    rw [abs_of_nonneg (not_lt.mp fun hlt => h (decide_eq_true hlt))]

end Decimal

/-- Conversion of a double, from the `rust_decimal` package. -/
class Numerics where
  /-- `Decimal::try_from(f64)` -/
  decimalOfF64 : F64 → Option Decimal

/-- A stand-in that converts nothing, for runs on values without doubles. -/
@[reducible] def Numerics.standIn : Numerics where
  decimalOfF64 _ := none

/-! ## Comparison of values (`eval/compare.rs`) -/

namespace Value

def isNull : Value → Bool
  | .null => true
  | _ => false

/-- Null, false, numeric zero and everything empty is falsy. -/
def isTruthy : Value → Bool
  | .null => false
  | .bool b => b
  | .int n => n ≠ 0
  | .float f => !f.isZero
  | .decimal d => d.mantissa ≠ 0
  | .string s => s ≠ ""
  | .array elems => !elems.isEmpty
  | .object entries => !entries.isEmpty
  | .bytes b => !b.isEmpty
  | .duration ns => ns ≠ 0
  | .reference _ | .datetime _ | .range _ _ => true

/-- Convert a numeric value to a decimal for comparison; other kinds have none. -/
def asDecimal [Numerics] : Value → Option Decimal
  | .int n => some (.ofInt64 n)
  | .float f => Numerics.decimalOfF64 f
  | .decimal d => some d
  | _ => none

end Value

/-- Equality of values across numeric kinds; a reference equals the string of its id. -/
def valuesEqual [Numerics] (a b : Value) : Bool :=
  match a.asDecimal, b.asDecimal with
  | some da, some db => da.toRat = db.toRat
  | _, _ =>
    match a, b with
    | .null, .null => true
    | .bool a, .bool b => a == b
    | .int a, .int b => a == b
    | .float a, .float b => a.within b
    | .int a, .float b => (F64.ofInt a.toInt).within b
    | .float b, .int a => (F64.ofInt a.toInt).within b
    | .decimal a, .decimal b => a.toRat = b.toRat
    | .string a, .string b => a == b
    | .reference a, .reference b => a == b
    | .reference a, .string b => a == b
    | .string b, .reference a => a == b
    | _, _ => false

/-- Ordering of values, `none` when they are not comparable. -/
def valuesCompare [Numerics] (a b : Value) : Option Ordering :=
  match a.asDecimal, b.asDecimal with
  | some da, some db => some (compare da.toRat db.toRat)
  | _, _ =>
    match a, b with
    | .int a, .int b => some (compare a.toInt b.toInt)
    | .float a, .float b => a.partialCmp b
    | .int a, .float b => (F64.ofInt a.toInt).partialCmp b
    | .float a, .int b => a.partialCmp (F64.ofInt b.toInt)
    | .decimal a, .decimal b => some (compare a.toRat b.toRat)
    | .string a, .string b => some (compare (utf8 a) (utf8 b))
    | .bool a, .bool b => some (compare a b)
    | .reference a, .reference b => some (compare (utf8 a) (utf8 b))
    | _, _ => none

/-! ## Expressions -/

inductive BinaryOp where
  | add | sub | mul | div
  | eq | ne | gt | gte | lt | lte
  | and | or
  | coalesce
  deriving DecidableEq, Repr

/-- The search expressions, which only the planner can turn into a scan. -/
inductive SearchKind where
  | fts
  | knn
  deriving DecidableEq, Repr

/-- Expressions over the kinds `Ω` that the planner does not look into. -/
inductive Expr (Ω : Type) where
  | literal (v : Value)
  | field (name : String)
  | binaryOp (left : Expr Ω) (op : BinaryOp) (right : Expr Ω)
  | inList (expr : Expr Ω) (list : List (Expr Ω)) (negated : Bool)
  | search (kind : SearchKind) (e : Ω)
  | other (e : Ω)

inductive ExecuteError where
  | typeError (expected got op : String)
  | overflow (op : String)
  | divisionByZero
  | unexpectedExpression (kind : String)
  | storage (e : StorageError)
  | other (msg : String)
  deriving DecidableEq, Repr

/-- A document row, or a scalar row with its alias. -/
structure Row where
  doc : Document
  scalarValue : Option Value
  scalarAlias : Option String

namespace Row

def fromDoc (doc : Document) : Row := ⟨doc, none, none⟩

/-- Resolve a field name: scalar value or its alias, then `id`, then the document's fields. -/
def getField (row : Row) (name : String) : Option Value :=
  match row.scalarValue with
  | some scalar =>
    if name = "$value" || row.scalarAlias = some name then some scalar
    else if name = "id" then some (.reference row.doc.id)
    else row.doc.fields.lookup name
  | none => if name = "id" then some (.reference row.doc.id) else row.doc.fields.lookup name

end Row

/-- What the evaluator takes from its surroundings. -/
structure EvalContext (Ω : Type) where
  getDocument : String → String → Except StorageError (Option Document)
  /-- `eval_add`, `eval_sub`, multiplication and `eval_div` on operands that are not null. -/
  arith : BinaryOp → Value → Value → Except ExecuteError Value
  /-- `value_repr`, the text of a value in an error. -/
  valueRepr : Value → String
  /-- `value_type_name` -/
  valueTypeName : Value → String
  /-- The value of an expression of any other kind. -/
  other : Ω → Row → Except ExecuteError Value

/-! ## The two connectives -/

inductive Connective where
  | and
  | or
  deriving DecidableEq, Repr

namespace Connective

def op : Connective → BinaryOp
  | .and => .and
  | .or => .or

def name : Connective → String
  | .and => "AND"
  | .or => "OR"

/-- The value that decides the result alone: `false` for `AND`, `true` for `OR`. -/
def absorbing : Connective → Bool
  | .and => false
  | .or => true

def onBools : Connective → Bool → Bool → Bool
  | .and => (· && ·)
  | .or => (· || ·)

end Connective

section Eval

variable {Ω : Type} (ctx : EvalContext Ω)

/-- `eval_and` and `eval_or`: three-valued, and a type error on any other kind of value. -/
def evalConnective (c : Connective) (l r : Value) : Except ExecuteError Value :=
  match l, r with
  | .bool a, .bool b => .ok (.bool (c.onBools a b))
  | .bool a, .null => if a = c.absorbing then .ok (.bool a) else .ok .null
  | .null, .bool b => if b = c.absorbing then .ok (.bool b) else .ok .null
  | .null, .null => .ok .null
  | .bool _, r => .error (.typeError "Bool" (ctx.valueRepr r) c.name)
  | .null, r => .error (.typeError "Bool" (ctx.valueRepr r) c.name)
  | l, _ => .error (.typeError "Bool" (ctx.valueRepr l) c.name)

/-- Evaluate a binary operation on two values. -/
def evalBinary [Numerics] (op : BinaryOp) (l r : Value) : Except ExecuteError Value :=
  match op with
  | .and => evalConnective ctx .and l r
  | .or => evalConnective ctx .or l r
  | .coalesce => .ok (if l.isTruthy then l else r)
  | op =>
    if l.isNull || r.isNull then .ok .null
    else
      match op with
      | .eq => .ok (.bool (valuesEqual l r))
      | .ne => .ok (.bool !(valuesEqual l r))
      | .gt => .ok (.bool (valuesCompare l r == some .gt))
      | .gte => .ok (.bool ((valuesCompare l r).any (· ≠ .lt)))
      | .lt => .ok (.bool (valuesCompare l r == some .lt))
      | .lte => .ok (.bool ((valuesCompare l r).any (· ≠ .gt)))
      | op => ctx.arith op l r

/-- Field access, dereferencing a reference on the way. -/
def evalFieldAccess (base : Value) (field : String) : Except ExecuteError Value :=
  match base with
  | .null => .ok .null
  | .object entries => .ok ((entries.lookup field).getD .null)
  | .reference refId =>
    match splitOnce ':' refId with
    | some (collection, key) =>
      match ctx.getDocument collection key with
      | .ok (some doc) => .ok ((doc.fields.lookup field).getD .null)
      | .ok none => .ok .null
      | .error e => .error (.storage e)
    | none => .ok .null
  | .array _ => .error (.typeError "Object or Reference" "array" "field access")
  | base => .error (.typeError "Object or Reference" (ctx.valueTypeName base) "field access")

/-- A field reference; a dotted name walks into objects and references. -/
def evalField (row : Row) (name : String) : Except ExecuteError Value :=
  match splitChar '.' name with
  | root :: segments =>
    segments.foldlM (evalFieldAccess ctx) ((row.getField root).getD .null)
  | [] => .ok ((row.getField name).getD .null)

mutual

def evalExpr [Numerics] (row : Row) : Expr Ω → Except ExecuteError Value
  | .literal v => .ok v
  | .field name => evalField ctx row name
  | .binaryOp left .coalesce right =>
    -- only `??` skips its right operand
    match evalExpr row left with
    | .error e => .error e
    | .ok l => if l.isTruthy then .ok l else evalExpr row right
  | .binaryOp left op right =>
    match evalExpr row left with
    | .error e => .error e
    | .ok l =>
      match evalExpr row right with
      | .error e => .error e
      | .ok r => evalBinary ctx op l r
  | .inList expr list negated =>
    match evalExpr row expr with
    | .error e => .error e
    | .ok val =>
      if val.isNull then .ok .null
      else
        match evalInItems row val false list with
        | .error e => .error e
        | .ok none => .ok .null
        | .ok (some found) => .ok (.bool (if negated then !found else found))
  | .search .fts _ => .error (.unexpectedExpression "Fts")
  | .search .knn _ => .error (.unexpectedExpression "KnnSearch")
  | .other e => ctx.other e row

/-- The loop over the items of an `IN` list; `none` is the unknown of a list with a null. -/
def evalInItems [Numerics] (row : Row) (val : Value) (hasNull : Bool) :
    List (Expr Ω) → Except ExecuteError (Option Bool)
  | [] => .ok (if hasNull then none else some false)
  | itemExpr :: list =>
    match evalExpr row itemExpr with
    | .error e => .error e
    | .ok item =>
      if item.isNull then evalInItems row val true list
      else if valuesEqual val item then .ok (some true)
      else evalInItems row val hasNull list

end

/-- Evaluate an expression as a filter. -/
def evalFilter [Numerics] (expr : Expr Ω) (row : Row) : Except ExecuteError Bool :=
  (evalExpr ctx row expr).map Value.isTruthy

/-! ## Expressions joined by a connective -/

/-- The values `AND` and `OR` take and give. -/
def Value.isLogical : Value → Bool
  | .null | .bool _ => true
  | _ => false

/-- On logical operands a connective succeeds, and truthiness follows the connective. -/
theorem evalConnective_ok {l r : Value} (c : Connective) (hl : l.isLogical = true)
    (hr : r.isLogical = true) :
    ∃ v, evalConnective ctx c l r = .ok v ∧ v.isLogical = true ∧
      v.isTruthy = c.onBools l.isTruthy r.isTruthy := by
  cases l with
  | null =>
    cases r with
    | null => cases c <;> exact ⟨.null, rfl, rfl, rfl⟩
    | bool b => cases c <;> cases b <;> exact ⟨_, rfl, rfl, rfl⟩
    | _ => cases hr
  | bool a =>
    cases r with
    | null => cases c <;> cases a <;> exact ⟨_, rfl, rfl, rfl⟩
    | bool b => exact ⟨_, rfl, rfl, by cases c <;> rfl⟩
    | _ => cases hr
  | _ => cases hl

/-- A connective fails on every other operand. -/
theorem isLogical_of_evalConnective {c : Connective} {l r v : Value}
    (h : evalConnective ctx c l r = .ok v) : l.isLogical = true ∧ r.isLogical = true := by
  cases l <;> cases r <;> first | exact ⟨rfl, rfl⟩ | cases h

section Satisfies

variable [Numerics] (row : Row)

/-- The expression evaluates without error. -/
def Evaluates (e : Expr Ω) : Prop := ∃ v, evalExpr ctx row e = .ok v

/-- The expression evaluates to `Bool` or `Null`. -/
def IsLogical (e : Expr Ω) : Prop := ∃ v, evalExpr ctx row e = .ok v ∧ v.isLogical = true

/-- The expression passes as a filter. -/
def Satisfies (e : Expr Ω) : Prop := evalFilter ctx e row = .ok true

variable {ctx row} {e l r : Expr Ω} {c : Connective}

theorem satisfies_iff : Satisfies ctx row e ↔
    ∃ v, evalExpr ctx row e = .ok v ∧ v.isTruthy = true := by
  unfold Satisfies evalFilter
  cases evalExpr ctx row e with
  | error err => simp [Except.map]
  | ok v => simp [Except.map]

theorem evaluates_of_isOk (h : (evalExpr ctx row e).isOk = true) : Evaluates ctx row e := by
  unfold Evaluates
  cases heval : evalExpr ctx row e with
  | error err => rw [heval] at h; cases h
  | ok v => exact ⟨v, rfl⟩

theorem IsLogical.evaluates (h : IsLogical ctx row e) : Evaluates ctx row e :=
  let ⟨v, hv, _⟩ := h; ⟨v, hv⟩

theorem Evaluates.filter (h : Evaluates ctx row e) : ∃ b, evalFilter ctx e row = .ok b := by
  obtain ⟨v, hv⟩ := h
  exact ⟨v.isTruthy, by rw [evalFilter, hv]; rfl⟩

theorem evalExpr_connective : evalExpr ctx row (.binaryOp l c.op r) =
    match evalExpr ctx row l, evalExpr ctx row r with
    | .ok a, .ok b => evalConnective ctx c a b
    | .ok _, .error err => .error err
    | .error err, _ => .error err := by
  cases c <;> simp only [Connective.op, evalExpr] <;>
    cases evalExpr ctx row l <;> cases evalExpr ctx row r <;> rfl

/-- The operands of a connective that evaluates are logical. -/
theorem isLogical_operands (h : Evaluates ctx row (.binaryOp l c.op r)) :
    IsLogical ctx row l ∧ IsLogical ctx row r := by
  obtain ⟨v, hv⟩ := h
  rw [evalExpr_connective] at hv
  unfold IsLogical
  cases hl : evalExpr ctx row l with
  | error err => rw [hl] at hv; cases hv
  | ok a =>
    cases hr : evalExpr ctx row r with
    | error err => rw [hl, hr] at hv; cases hv
    | ok b =>
      rw [hl, hr] at hv
      obtain ⟨ha, hb⟩ := isLogical_of_evalConnective ctx hv
      exact ⟨⟨a, rfl, ha⟩, ⟨b, rfl, hb⟩⟩

theorem connective_spec (hl : IsLogical ctx row l) (hr : IsLogical ctx row r) :
    IsLogical ctx row (.binaryOp l c.op r) ∧
      (Satisfies ctx row (.binaryOp l c.op r) ↔
        match c with
        | .and => Satisfies ctx row l ∧ Satisfies ctx row r
        | .or => Satisfies ctx row l ∨ Satisfies ctx row r) := by
  obtain ⟨a, hl, ha⟩ := hl
  obtain ⟨b, hr, hb⟩ := hr
  obtain ⟨v, hv, hlog, htruthy⟩ := evalConnective_ok ctx c ha hb
  have heval : evalExpr ctx row (.binaryOp l c.op r) = .ok v := by
    rw [evalExpr_connective, hl, hr]
    exact hv
  refine ⟨⟨v, heval, hlog⟩, ?_⟩
  simp only [satisfies_iff, heval, hl, hr, Except.ok.injEq, exists_eq_left', htruthy]
  cases c with
  | and => simp [Connective.onBools]
  | or => simp [Connective.onBools]

end Satisfies

end Eval

end StellarDb
