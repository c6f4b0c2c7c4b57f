import StellarDb.Lib.MayPanic
import StellarDb.Query.Ast
import StellarDb.Query.Temporal

/-!
# StellarDb — panics in expressions (`query/execute/eval`, `function/definitions.rs`)

`eval_expr` with the operations that may not return: division of integers, negation, slices of
strings and arrays, and sums of indices. Integer overflow is a panic, as it is with the overflow
checks of a build on; a division that overflows panics in every build.

`tryEval` is written like `evalAst`, over the operations as the source has them. `operations` are
the ones an evaluation comes to, with their operands, and `Operation.panics` says of each whether
it returns; so an expression panics exactly when it comes to such an operation
(`tryEval_eq`).
-/

namespace StellarDb

open MayPanic Words

/-! ## Partial operations -/

section Integers

variable {ε : Type}

/-- `a / b` on `i64`. -/
def divI64 (a b : Int64) : MayPanic ε Int64 :=
  if b = 0 ∨ (a = Int64.minValue ∧ b = -1) then abort else pure (a / b)

/-- `a % b` on `i64`. -/
def remI64 (a b : Int64) : MayPanic ε Int64 :=
  if b = 0 ∨ (a = Int64.minValue ∧ b = -1) then abort else pure (a % b)

/-- `-a` on `i64`. -/
def negI64 (a : Int64) : MayPanic ε Int64 :=
  if a = Int64.minValue then abort else pure (-a)

/-- `a.abs()` on `i64`. -/
def absI64 (a : Int64) : MayPanic ε Int64 :=
  if a = Int64.minValue then abort else pure (if a < 0 then -a else a)

/-- `a + b` on `i64`. -/
def addI64 (a b : Int) : MayPanic ε Int :=
  if -2 ^ 63 ≤ a + b ∧ a + b < 2 ^ 63 then pure (a + b) else abort

/-- `arr.len() as i64`; a vector has at most `isize::MAX` elements. -/
def vecLen {α : Type} (arr : List α) : MayPanic ε Int :=
  if arr.length < 2 ^ 63 then pure arr.length else abort

/-- `arr[i]` -/
def elementAt {α : Type} (arr : List α) (i : Nat) : MayPanic ε α :=
  match arr[i]? with
  | some v => pure v
  | none => abort

end Integers

/-- `s.get(..n)`: the characters that make up the first `n` bytes, unless one of them crosses the
end. -/
def charsUpTo : List Char → Nat → Option (List Char)
  | [], n => if n = 0 then some [] else none
  | c :: cs, n =>
    if n = 0 then some []
    else if c.utf8Size ≤ n then (charsUpTo cs (n - c.utf8Size)).map (c :: ·)
    else none

/-- `&s[..n]` -/
def sliceStr {ε : Type} (s : String) (n : Nat) : MayPanic ε String :=
  match charsUpTo s.toList n with
  | some cs => pure (String.ofList cs)
  | none => abort

section Repr

variable [External] [ValueText]

/-- `value_repr`, a type name with a brief text of the value. -/
def tryRepr {ε : Type} : Value → MayPanic ε String
  | .null => pure "Null"
  | .bool b => pure ("Bool (" ++ toString b ++ ")")
  | .int i => pure ("Int (" ++ toString i.toInt ++ ")")
  | .float f => pure ("Float (" ++ ValueText.display (.float f) ++ ")")
  | .string s =>
    if s.utf8ByteSize ≤ 20 then pure ("String (\"" ++ s ++ "\")")
    else do
      let start ← sliceStr s 17
      pure ("String (\"" ++ start ++ "...\")")
  | .array elems => pure ("Array (" ++ toString elems.length ++ " elements)")
  | .object entries => pure ("Object (" ++ toString entries.length ++ " fields)")
  | .reference id => pure ("Reference (" ++ id ++ ")")
  | .decimal d => pure ("Decimal (" ++ External.decimalToString d ++ ")")
  | .datetime ms => pure ("Datetime (" ++ toString ms.toInt ++ ")")
  | .duration ns => pure ("Duration (" ++ toString ns.toNat ++ ")")
  | .bytes b => pure ("Bytes (" ++ toString b.length ++ " bytes)")
  | .range start stop =>
    pure ("Range (" ++ ValueText.display start ++ ".." ++ ValueText.display stop ++ ")")

/-- The text of a value where it has one. -/
def valueRepr (v : Value) : String :=
  match (tryRepr v : MayPanic Unit String) with
  | some (.ok text) => text
  | _ => ""

/-- An error about a value, with its text. -/
def reject {α : Type} (expected : String) (v : Value) (op : String) :
    MayPanic ExecuteError α := do
  let got ← tryRepr v
  throw (.typeError expected got op)

end Repr

/-! ## Operators (`eval/binary.rs`) -/

/-- `f64` and `rust_decimal` beside addition and subtraction. -/
class MathOps extends NumberOps where
  mulF64 : F64 → F64 → F64
  divF64 : F64 → F64 → F64
  remF64 : F64 → F64 → F64
  minF64 : F64 → F64 → F64
  maxF64 : F64 → F64 → F64
  powF64 : F64 → F64 → F64
  logF64 : F64 → F64 → F64
  sqrt : F64 → F64
  exp : F64 → F64
  sin : F64 → F64
  cos : F64 → F64
  tan : F64 → F64
  round : F64 → F64
  floor : F64 → F64
  ceil : F64 → F64
  trunc : F64 → F64
  /-- `f as i64` -/
  toI64 : F64 → Int64
  checkedMul : Decimal → Decimal → Option Decimal
  checkedDiv : Decimal → Decimal → Option Decimal

/-- A stand-in for runs without doubles and decimals. -/
@[reducible] def MathOps.standIn : MathOps where
  toNumberOps := .standIn
  mulF64 a _ := a
  divF64 a _ := a
  remF64 a _ := a
  minF64 a _ := a
  maxF64 a _ := a
  powF64 a _ := a
  logF64 a _ := a
  sqrt a := a
  exp a := a
  sin a := a
  cos a := a
  tan a := a
  round a := a
  floor a := a
  ceil a := a
  trunc a := a
  toI64 _ := 0
  checkedMul _ _ := none
  checkedDiv _ _ := none

/-- `i64::checked_mul` -/
def checkedMulI64 (a b : Int64) : Option Int64 :=
  if -2 ^ 63 ≤ a.toInt * b.toInt ∧ a.toInt * b.toInt < 2 ^ 63 then some (a * b) else none

section Operators

variable [Numerics] [External] [ValueText]

/-- `eval_and` and `eval_or`. -/
def tryConnective (c : Connective) (l r : Value) : MayPanic ExecuteError Value :=
  match l, r with
  | .bool a, .bool b => pure (.bool (c.onBools a b))
  | .bool a, .null => if a = c.absorbing then pure (.bool a) else pure .null
  | .null, .bool b => if b = c.absorbing then pure (.bool b) else pure .null
  | .null, .null => pure .null
  | .bool _, r => reject "Bool" r c.name
  | .null, r => reject "Bool" r c.name
  | l, _ => reject "Bool" l c.name

/-- `eval_arithmetic`, whose operations on numbers are checked. -/
def tryArithmetic (op : ArithmeticOp) (l r : Value) : MayPanic ExecuteError Value :=
  if l.isNumeric && r.isNumeric then returns (op.evalArithmetic valueRepr l r)
  else reject "numeric (Int, Float, or Decimal)" (if l.isNumeric then r else l) op.opName

variable [MathOps]

def addition : ArithmeticOp :=
  ⟨checkedAddI64, NumberOps.addF64, NumberOps.checkedAdd, "addition"⟩

def subtraction : ArithmeticOp :=
  ⟨checkedSubI64, NumberOps.subF64, NumberOps.checkedSub, "subtraction"⟩

def multiplication : ArithmeticOp :=
  ⟨checkedMulI64, MathOps.mulF64, MathOps.checkedMul, "multiplication"⟩

/-- `eval_add` -/
def tryAdd (l r : Value) : MayPanic ExecuteError Value :=
  match l, r with
  | .string a, .string b => pure (.string (a ++ b))
  | .array a, .array b => pure (.array (a ++ b))
  | .datetime ms, .duration ns => pure (.datetime (saturatingAddI64 ms (durationMs ns)))
  | .duration ns, .datetime ms => pure (.datetime (saturatingAddI64 ms (durationMs ns)))
  | .duration a, .duration b => pure (.duration (saturatingAddU64 a b))
  | l, r => tryArithmetic addition l r

/-- `eval_sub` -/
def trySub (l r : Value) : MayPanic ExecuteError Value :=
  match l, r with
  | .datetime ms, .duration ns => pure (.datetime (saturatingSubI64 ms (durationMs ns)))
  | .datetime a, .datetime b =>
    pure (.duration (saturatingMulU64 (unsignedAbs (saturatingSubI64 a b)) 1000000))
  | .duration a, .duration b => pure (.duration (saturatingSubU64 a b))
  | l, r => tryArithmetic subtraction l r

/-- `a.checked_div(b)` behind the check for zero. -/
def divDecimal (a b : Decimal) : Except ExecuteError Value :=
  if b.toRat = 0 then .error .divisionByZero
  else
    match MathOps.checkedDiv a b with
    | some d => .ok (.decimal d)
    | none => .error (.overflow "division")

/-- `f64_to_decimal` -/
def f64ToDivisor (f : F64) : Except ExecuteError Decimal :=
  match Numerics.decimalOfF64 f with
  | some d => .ok d
  | none => .error (.overflow "division")

/-- `eval_div` -/
def tryDiv (l r : Value) : MayPanic ExecuteError Value :=
  match l, r with
  | .int a, .int b =>
    if b = 0 then throw .divisionByZero
    else do
      let quotient ← divI64 a b
      pure (.int quotient)
  | .float a, .float b =>
    if b.isZero then throw .divisionByZero else pure (.float (MathOps.divF64 a b))
  | .int a, .float b =>
    if b.isZero then throw .divisionByZero
    else pure (.float (MathOps.divF64 (.ofInt a.toInt) b))
  | .float a, .int b =>
    if b = 0 then throw .divisionByZero else pure (.float (MathOps.divF64 a (.ofInt b.toInt)))
  | .decimal a, .decimal b => returns (divDecimal a b)
  | .decimal a, .int b => returns (divDecimal a (.ofInt64 b))
  | .int a, .decimal b => returns (divDecimal (.ofInt64 a) b)
  | .decimal a, .float b => returns ((f64ToDivisor b).bind (divDecimal a))
  | .float a, .decimal b =>
    if b.toRat = 0 then throw .divisionByZero
    else returns ((f64ToDivisor a).bind (divDecimal · b))
  | l, r =>
    reject "numeric (Int, Float, or Decimal)" (if l.isNumeric then r else l) "division"

/-- The four operators of arithmetic, on operands that are not null. -/
def tryArith (op : BinaryOp) (l r : Value) : MayPanic ExecuteError Value :=
  match op with
  | .add => tryAdd l r
  | .sub => trySub l r
  | .mul => tryArithmetic multiplication l r
  | .div => tryDiv l r
  | _ => abort

/-- `eval_binary` -/
def tryBinary (op : BinaryOp) (l r : Value) : MayPanic ExecuteError Value :=
  match op with
  | .and => tryConnective .and l r
  | .or => tryConnective .or l r
  -- `unreachable!("Coalesce handled in eval_expr")`
  | .coalesce => abort
  | op =>
    if l.isNull || r.isNull then pure .null
    else
      match op with
      | .eq => pure (.bool (valuesEqual l r))
      | .ne => pure (.bool !(valuesEqual l r))
      | .gt => pure (.bool (valuesCompare l r == some .gt))
      | .gte => pure (.bool ((valuesCompare l r).any (· ≠ .lt)))
      | .lt => pure (.bool (valuesCompare l r == some .lt))
      | .lte => pure (.bool ((valuesCompare l r).any (· ≠ .gt)))
      | op => tryArith op l r

omit [Numerics] [MathOps] in
/-- The unary operators of `eval_expr`. -/
def tryUnary (op : UnaryOp) (v : Value) : MayPanic ExecuteError Value :=
  match op, v with
  | .not, .bool b => pure (.bool !b)
  | .not, .null => pure .null
  | .not, v => reject "Bool" v "NOT"
  | .neg, .int i => do
    let negated ← negI64 i
    pure (.int negated)
  | .neg, .float f => pure (.float f.neg)
  | .neg, .decimal d => pure (.decimal { d with negative := !d.negative })
  | .neg, .null => pure .null
  | .neg, v => reject "Int, Float, or Decimal" v "unary minus"
  | .isNull, v => pure (.bool v.isNull)
  | .isNotNull, v => pure (.bool !v.isNull)
  | .isNone, _ => pure (.bool false)
  | .isNotNone, _ => pure (.bool true)

/-- `IN` an array. -/
def tryIn (val target : Value) (negated : Bool) : MayPanic ExecuteError Value :=
  match target with
  | .array list =>
    if list.any fun item => !item.isNull && valuesEqual val item then pure (.bool !negated)
    else if list.any (·.isNull) then pure .null
    else pure (.bool negated)
  | .null => pure .null
  | target => reject "Array" target "IN"

end Operators

/-! ## Indices (`eval/access.rs`) -/

/-- The position an index stands for; `none` is null. -/
def indexPosition : Value → Except ExecuteError (Option Int)
  | .int i => .ok (some i.toInt)
  | .float f =>
    match f.index? with
    | some i => .ok (some i)
    | none => .error (.typeError "Int" (valueTypeName (.float f)) "array index")
  | .null => .ok none
  | v => .error (.typeError "Int" (valueTypeName v) "array index")

/-- A negative index counts from the end. -/
def fromEnd {ε : Type} (len i : Int) : MayPanic ε Int := if i < 0 then addI64 len i else pure i

/-- `eval_index` -/
def tryIndex (base index : Value) : MayPanic ExecuteError Value :=
  match base with
  | .null => pure .null
  | .array arr => do
    match ← returns (indexPosition index) with
    | none => pure .null
    | some i =>
      let len ← vecLen arr
      let normalized ← fromEnd len i
      if normalized < 0 ∨ len ≤ normalized then pure .null
      else elementAt arr normalized.toNat
  | _ => throw (.typeError "Array" (valueTypeName base) "indexing")

/-- A bound of a slice: `none` is the null that makes the whole slice null. -/
def slicePosition (op : String) (default : Int) : Option Value → Except ExecuteError (Option Int)
  | none => .ok (some default)
  | some (.int i) => .ok (some i.toInt)
  | some .null => .ok none
  | some v => .error (.typeError "Int" (valueTypeName v) op)

/-- `i.clamp(lo, hi)`, which asserts that the bounds are in order. -/
def clampI64 (lo hi i : Int) : MayPanic ExecuteError Int :=
  if lo ≤ hi then pure (max lo (min i hi)) else abort

/-- `eval_slice` -/
def trySlice (base : Value) (start stop : Option Value) : MayPanic ExecuteError Value :=
  match base with
  | .null => pure .null
  | .array arr => do
    let len ← vecLen arr
    match ← returns (slicePosition "slice start" 0 start) with
    | none => pure .null
    | some start =>
      let last ← addI64 len (-1)
      match ← returns (slicePosition "slice end" last stop) with
      | none => pure .null
      | some stop =>
        let s ← fromEnd len start
        let e ← fromEnd len stop
        let s ← clampI64 0 len s
        let e ← clampI64 (-1) last e
        if e < s ∨ len = 0 then pure (.array [])
        else do
          let elems ← slice arr s.toNat (e.toNat + 1)
          pure (.array elems)
  | _ => throw (.typeError "Array" (valueTypeName base) "slicing")

/-! ## Functions (`function/definitions.rs`, `function/registry.rs`) -/

/-- A function of the registry; variadic functions take any number of arguments. -/
structure FunctionDef where
  ns : String
  name : String
  arity : Option Nat
  eval : List Value → MayPanic ExecuteError Value

/-- Call the function with arity validation. -/
def FunctionDef.call (f : FunctionDef) (args : List Value) : MayPanic ExecuteError Value :=
  if f.arity.all (· = args.length) then f.eval args
  else throw (.other (f.ns ++ "::" ++ f.name ++ " arity"))

namespace MathFunctions

/-- A function of one number. -/
def unary (name : String) (eval : Value → MayPanic ExecuteError Value) : FunctionDef where
  ns := "math"
  name := name
  arity := some 1
  eval args := eval (args.getD 0 .null)

/-- A function of two numbers. -/
def binary (name : String) (eval : Value → Value → MayPanic ExecuteError Value) :
    FunctionDef where
  ns := "math"
  name := name
  arity := some 2
  eval args := eval (args.getD 0 .null) (args.getD 1 .null)

/-- A number rounded to an integer. -/
def toInteger (name op : String) (f : F64 → Int64) : FunctionDef :=
  unary name fun
    | .null => pure .null
    | .int i => pure (.int i)
    | .float x => pure (.int (f x))
    | other => throw (.typeError "Numeric" (valueTypeName other) op)

/-- A function of doubles. -/
def onFloat (name op : String) (f : F64 → F64) : FunctionDef :=
  unary name fun
    | .null => pure .null
    | .int i => pure (.float (f (.ofInt i.toInt)))
    | .float x => pure (.float (f x))
    | other => throw (.typeError "Numeric" (valueTypeName other) op)

/-- A function of two doubles, and of two integers by `ints`. -/
def onFloats (name op : String) (ints : Int64 → Int64 → Value) (f : F64 → F64 → F64) :
    FunctionDef :=
  binary name fun a b =>
    match a, b with
    | .null, _ | _, .null => pure .null
    | .int x, .int y => pure (ints x y)
    | .int x, .float y => pure (.float (f (.ofInt x.toInt) y))
    | .float x, .int y => pure (.float (f x (.ofInt y.toInt)))
    | .float x, .float y => pure (.float (f x y))
    | a, b =>
      throw (.typeError "Numeric, Numeric" (valueTypeName a ++ ", " ++ valueTypeName b) op)

def abs : FunctionDef :=
  unary "abs" fun
    | .null => pure .null
    | .int i => do
      let magnitude ← absI64 i
      pure (.int magnitude)
    | .float f => pure (.float (if f.isNegative then f.neg else f))
    | other => throw (.typeError "Numeric" (valueTypeName other) "math::abs")

def sign : FunctionDef :=
  unary "sign" fun
    | .null => pure .null
    | .int i => pure (.int (if i < 0 then -1 else if i = 0 then 0 else 1))
    | .float f =>
      pure (.int (if f.partialCmp ⟨0⟩ = some .gt then 1
        else if f.partialCmp ⟨0⟩ = some .lt then -1 else 0))
    | other => throw (.typeError "Numeric" (valueTypeName other) "math::sign")

section

variable [MathOps]

def round : FunctionDef := toInteger "round" "math::round" fun f => MathOps.toI64 (MathOps.round f)

def floor : FunctionDef := toInteger "floor" "math::floor" fun f => MathOps.toI64 (MathOps.floor f)

def ceil : FunctionDef := toInteger "ceil" "math::ceil" fun f => MathOps.toI64 (MathOps.ceil f)

def trunc : FunctionDef := toInteger "trunc" "math::trunc" fun f => MathOps.toI64 (MathOps.trunc f)

def sqrt : FunctionDef := onFloat "sqrt" "math::sqrt" MathOps.sqrt

def exp : FunctionDef := onFloat "exp" "math::exp" MathOps.exp

def sin : FunctionDef := onFloat "sin" "math::sin" MathOps.sin

def cos : FunctionDef := onFloat "cos" "math::cos" MathOps.cos

def tan : FunctionDef := onFloat "tan" "math::tan" MathOps.tan

/-- The integers as doubles. -/
def ofInts (f : F64 → F64 → F64) (x y : Int64) : Value :=
  .float (f (.ofInt x.toInt) (.ofInt y.toInt))

def pow : FunctionDef := onFloats "pow" "math::pow" (ofInts MathOps.powF64) MathOps.powF64

def log : FunctionDef := onFloats "log" "math::log" (ofInts MathOps.logF64) MathOps.logF64

def min : FunctionDef :=
  onFloats "min" "math::min" (fun x y => .int (if y < x then y else x)) MathOps.minF64

def max : FunctionDef :=
  onFloats "max" "math::max" (fun x y => .int (if x < y then y else x)) MathOps.maxF64

def modulo : FunctionDef :=
  binary "modulo" fun a b =>
    match a, b with
    | .null, _ | _, .null => pure .null
    | .int x, .int y =>
      if y = 0 then throw .divisionByZero
      else do
        let remainder ← remI64 x y
        pure (.int remainder)
    | .float x, .float y =>
      if y.isZero then throw .divisionByZero else pure (.float (MathOps.remF64 x y))
    | .int x, .float y =>
      if y.isZero then throw .divisionByZero
      else pure (.float (MathOps.remF64 (.ofInt x.toInt) y))
    | .float x, .int y =>
      if y = 0 then throw .divisionByZero
      else pure (.float (MathOps.remF64 x (.ofInt y.toInt)))
    | a, b =>
      throw (.typeError "Numeric, Numeric" (valueTypeName a ++ ", " ++ valueTypeName b)
        "math::mod")

def all : List FunctionDef :=
  [abs, round, floor, ceil, trunc, sign, sqrt, pow, exp, log, modulo, min, max, sin, cos, tan]

end

end MathFunctions

/-- What evaluation takes from its surroundings. -/
structure Surroundings where
  getDocument : String → String → Except StorageError (Option Document)
  /-- `to_lowercase` -/
  lower : String → String
  /-- The functions of the other modules, with their arity checks. -/
  others : String → String → Option (List Value → Except ExecuteError Value)
  /-- The error of a function that is not there. -/
  unknown : Option String → String → ExecuteError
  constant : String → String → Except ExecuteError Value
  /-- The variables in scope. -/
  scope : String → Except ExecuteError Value

section Eval

variable [Numerics] [External] [ValueText] [MathOps] (env : Surroundings)

omit [Numerics] [External] [ValueText] in
/-- `resolve_function` among those of the math module, the names in lowercase. -/
def resolveMath (space name : String) : Option FunctionDef :=
  MathFunctions.all.find? fun f =>
    env.lower f.ns = env.lower space ∧ env.lower f.name = env.lower name

omit [Numerics] [External] [ValueText] in
/-- A call of a function of the registry. -/
def tryCallFunction (ns : Option String) (name : String) (args : List Value) :
    MayPanic ExecuteError Value :=
  match ns with
  | none => throw (env.unknown ns name)
  | some space =>
    match resolveMath env space name with
    | some f => f.call args
    | none =>
      match env.others (env.lower space) (env.lower name) with
      | some eval => returns (eval args)
      | none => throw (env.unknown ns name)

omit [Numerics] [External] [ValueText] in
/-- Calls, of which two read the score or distance of the row. -/
def tryCall (row : Row) (ns : Option String) (name : String) (args : List Value) :
    MayPanic ExecuteError Value :=
  if ns = some "fts" ∧ name = "score" then
    match args.head? with
    | some (.string scoreName) => pure ((row.getField ("$score_" ++ scoreName)).getD .null)
    | _ => pure ((row.getField "$score").getD .null)
  else if ns = some "vector" ∧ name = "distance" then
    pure ((row.getField "$distance").getD .null)
  else tryCallFunction env ns name args

/-- What a call that does not panic returns. -/
def settledOutcome (x : MayPanic ExecuteError Value) : Except ExecuteError Value :=
  match x with
  | some r => r
  | none => .error (.other "panic")

/-- The surroundings of the total evaluation. -/
def context : AstContext where
  base := {
    getDocument := env.getDocument
    arith := fun op l r => settledOutcome (tryArith op l r)
    valueRepr := valueRepr
    valueTypeName := valueTypeName
    other := fun e _ => nomatch e }
  callFunction := fun ns name args => settledOutcome (tryCallFunction env ns name args)
  constant := env.constant
  scope := env.scope

variable (row : Row)

mutual

/-- `eval_expr` -/
def tryEval : AstExpr → MayPanic ExecuteError Value
  | .literal v => pure v
  | .field name => returns (evalField (context env).base row name)
  | .binaryOp left op right => do
    let l ← tryEval left
    if op = .coalesce ∧ l.isTruthy then pure l
    else do
      let r ← tryEval right
      if op = .coalesce then pure r else tryBinary op l r
  | .unaryOp .isNone (.field name) => pure (.bool !(AstContext.hasField row name))
  | .unaryOp .isNotNone (.field name) => pure (.bool (AstContext.hasField row name))
  | .unaryOp .isNone _ => pure (.bool false)
  | .unaryOp .isNotNone _ => pure (.bool true)
  | .unaryOp op e => do
    let v ← tryEval e
    tryUnary op v
  | .functionCall ns name args => do
    let args ← tryEvals args
    tryCall env row ns name args
  | .aggregate _ => throw (.unexpectedExpression "Aggregate")
  | .inList e list negated => do
    let val ← tryEval e
    if val.isNull then pure .null
    else do
      match ← tryEvalItems val false list with
      | none => pure .null
      | some found => pure (.bool (if negated then !found else found))
  | .inExpr e target negated => do
    let val ← tryEval e
    if val.isNull then pure .null
    else do
      let target ← tryEval target
      tryIn val target negated
  | .valueRef none => pure (AstContext.getValue row)
  | .valueRef (some path) => pure (AstContext.navigateValue (AstContext.getValue row) path)
  | .array items => do
    let values ← tryEvals items
    pure (.array values)
  | .object pairs => do
    let entries ← tryEvalPairs pairs
    pure (.object entries)
  | .index base i => do
    let base ← tryEval base
    let i ← tryEval i
    tryIndex base i
  | .slice base start stop => do
    let base ← tryEval base
    let start ← tryEvalOption start
    let stop ← tryEvalOption stop
    trySlice base start stop
  | .fieldAccess base field => do
    let base ← tryEval base
    returns (evalFieldAccess (context env).base base field)
  | .constant ns name => returns (env.constant ns name)
  | .variable name => returns (env.scope name)
  | .range start stop => do
    let start ← tryEval start
    let stop ← tryEval stop
    pure (.range start stop)
  | .search kind _ _ => throw (.unexpectedExpression kind.name)
  | .deferred kind _ _ => throw (.unexpectedExpression kind)

/-- The values of a list of expressions, up to the first error. -/
def tryEvals : List AstExpr → MayPanic ExecuteError (List Value)
  | [] => pure []
  | e :: es => do
    let v ← tryEval e
    let vs ← tryEvals es
    pure (v :: vs)

/-- The entries of an object; the last one of a key stays. -/
def tryEvalPairs : List (String × AstExpr) → MayPanic ExecuteError (List (String × Value))
  | [] => pure []
  | (key, e) :: pairs => do
    let v ← tryEval e
    let entries ← tryEvalPairs pairs
    pure (if (entries.lookup key).isSome then entries else Entries.insertEntry entries key v)

def tryEvalOption : Option AstExpr → MayPanic ExecuteError (Option Value)
  | none => pure none
  | some e => do
    let v ← tryEval e
    pure (some v)

/-- The loop over the items of an `IN` list. -/
def tryEvalItems (val : Value) (hasNull : Bool) :
    List AstExpr → MayPanic ExecuteError (Option Bool)
  | [] => pure (if hasNull then none else some false)
  | e :: es => do
    let item ← tryEval e
    if item.isNull then tryEvalItems val true es
    else if valuesEqual val item then pure (some true)
    else tryEvalItems val hasNull es

end

end Eval

/-! ## Operations that panic -/

/-- A text of more than twenty bytes with a character across the end of the first seventeen. -/
def Value.splitsChar : Value → Bool
  | .string s => 20 < s.utf8ByteSize && (charsUpTo s.toList 17).isNone
  | _ => false

/-- An operation with its operands. -/
inductive Operation where
  | binary (op : BinaryOp) (l r : Value)
  | unary (op : UnaryOp) (v : Value)
  | isIn (target : Value)
  | call (ns : Option String) (name : String) (args : List Value)
  | index (base index : Value)
  | slice (base : Value) (start stop : Option Value)

namespace Operation

/-- The operand that `AND` and `OR` complain of. -/
def connectivePanics (l r : Value) : Bool :=
  if !l.isLogical then l.splitsChar else !r.isLogical && r.splitsChar

/-- The least integer divided by `-1`, or an operand that arithmetic complains of. -/
def arithPanics (op : BinaryOp) (l r : Value) : Bool :=
  match op, l, r with
  | .div, .int a, .int b => a = Int64.minValue && b = -1
  | .add, .string _, .string _ => false
  | _, l, r => if l.isNumeric then r.splitsChar else l.splitsChar

def callPanics (f : FunctionDef) : List Value → Bool
  | [.int i] => f.name = "abs" && i = Int64.minValue
  | [.int a, .int b] => f.name = "modulo" && a = Int64.minValue && b = -1
  | _ => false

variable [MathOps] (env : Surroundings)

def panics : Operation → Bool
  | .binary op l r =>
    match op with
    | .and | .or => connectivePanics l r
    | .add | .sub | .mul | .div => !(l.isNull || r.isNull) && arithPanics op l r
    | .coalesce => true
    | _ => false
  | .unary .neg (.int i) => i = Int64.minValue
  | .unary .neg v => v.splitsChar
  | .unary .not v => v.splitsChar
  | .unary _ _ => false
  | .isIn target => target.splitsChar
  | .call none _ _ => false
  | .call (some space) name args =>
    !(space = "fts" && name = "score" || space = "vector" && name = "distance") &&
      (resolveMath env space name).any fun f => callPanics f args
  | .index (.array arr) i =>
    2 ^ 63 ≤ arr.length && (match indexPosition i with | .ok (some _) => true | _ => false)
  | .index _ _ => false
  | .slice (.array arr) _ _ => 2 ^ 63 ≤ arr.length
  | .slice _ _ _ => false

end Operation

section Operators

variable [External] [ValueText]

theorem tryRepr_eq {ε : Type} (v : Value) :
    (tryRepr v : MayPanic ε String) = returnsUnless v.splitsChar (.ok (valueRepr v)) := by
  cases v with
  | string s =>
    show _ = returnsUnless (decide (20 < s.utf8ByteSize) && (charsUpTo s.toList 17).isNone) _
    by_cases hshort : s.utf8ByteSize ≤ 20
    · have htext : ∀ {ε : Type}, (tryRepr (.string s) : MayPanic ε String) =
          pure ("String (\"" ++ s ++ "\")") := if_pos hshort
      rw [decide_eq_false (not_lt.mpr hshort), htext, valueRepr, htext]
      rfl
    · have htext : ∀ {ε : Type}, (tryRepr (.string s) : MayPanic ε String) =
          (sliceStr s 17 >>= fun start => pure ("String (\"" ++ start ++ "...\")")) :=
        if_neg hshort
      rw [decide_eq_true (not_le.mp hshort), htext, valueRepr, htext]
      unfold sliceStr
      cases charsUpTo s.toList 17 <;> rfl
  | _ => rfl

theorem reject_eq {α : Type} (expected : String) (v : Value) (op : String) :
    (reject expected v op : MayPanic ExecuteError α) =
      returnsUnless v.splitsChar (.error (.typeError expected (valueRepr v) op)) := by
  unfold reject
  rw [tryRepr_eq]
  cases v.splitsChar <;> rfl

/-! ### Each operation -/

variable [Numerics] (env : Surroundings)

theorem tryArithmetic_eq (op : ArithmeticOp) (l r : Value) : tryArithmetic op l r =
    returnsUnless (if l.isNumeric then r.splitsChar else l.splitsChar)
      (op.evalArithmetic valueRepr l r) := by
  have hplain : ∀ {v : Value}, v.isNumeric = true → v.splitsChar = false := by
    intro v hv
    cases v <;> first | rfl | cases hv
  unfold tryArithmetic
  cases hl : l.isNumeric with
  | true =>
    cases hr : r.isNumeric with
    | true =>
      rw [hplain hr]
      rfl
    | false =>
      show reject _ r _ = returnsUnless r.splitsChar _
      rw [reject_eq]
      cases l <;> cases hl <;> cases r <;> first | rfl | cases hr
  | false =>
    show reject _ l _ = returnsUnless l.splitsChar _
    rw [reject_eq]
    cases l <;> first | rfl | cases hl

variable [MathOps]

omit [External] [ValueText] [Numerics] [MathOps] in
theorem panics_divI64_iff {a b : Int64} (hb : b ≠ 0) :
    Panics (divI64 a b : MayPanic ExecuteError Int64) ↔ a = Int64.minValue ∧ b = -1 := by
  unfold divI64
  split
  · next h => exact ⟨fun _ => h.resolve_left hb, fun _ => rfl⟩
  · next h => exact ⟨fun hpanics => absurd hpanics (not_panics_pure _), fun hmin => absurd
      (Or.inr hmin) h⟩

omit [External] [ValueText] [Numerics] [MathOps] in
theorem panics_remI64_iff {a b : Int64} (hb : b ≠ 0) :
    Panics (remI64 a b : MayPanic ExecuteError Int64) ↔ a = Int64.minValue ∧ b = -1 := by
  unfold remI64
  split
  · next h => exact ⟨fun _ => h.resolve_left hb, fun _ => rfl⟩
  · next h => exact ⟨fun hpanics => absurd hpanics (not_panics_pure _), fun hmin => absurd
      (Or.inr hmin) h⟩

omit [External] [ValueText] [Numerics] [MathOps] in
/-- Beside the quotient of integers and the joining of texts, arithmetic panics at the operand it
complains of. -/
theorem arithPanics_eq {op : BinaryOp} {l r : Value}
    (hdiv : ∀ a b, op = .div → l = .int a → r = .int b → False)
    (hadd : ∀ a b, op = .add → l = .string a → r = .string b → False) :
    Operation.arithPanics op l r = if l.isNumeric then r.splitsChar else l.splitsChar := by
  unfold Operation.arithPanics
  split
  · exact absurd rfl fun h => hdiv _ _ h rfl rfl
  · exact absurd rfl fun h => hadd _ _ h rfl rfl
  · rfl

theorem panics_tryAdd_iff (l r : Value) :
    Panics (tryAdd l r) ↔ Operation.arithPanics .add l r = true := by
  unfold tryAdd
  split
  · exact iff_of_false (not_panics_pure _) nofun
  · exact iff_of_false (not_panics_pure _) nofun
  · exact iff_of_false (not_panics_pure _) nofun
  · exact iff_of_false (not_panics_pure _) nofun
  · exact iff_of_false (not_panics_pure _) nofun
  · next hstrings _ _ _ _ =>
    have hplain : Operation.arithPanics .add l r = _ :=
      arithPanics_eq (fun _ _ h => nomatch h) fun a b _ => hstrings a b
    rw [tryArithmetic_eq, hplain]
    exact panics_returnsUnless_iff

theorem panics_trySub_iff (l r : Value) :
    Panics (trySub l r) ↔ Operation.arithPanics .sub l r = true := by
  unfold trySub
  split
  · exact iff_of_false (not_panics_pure _) nofun
  · exact iff_of_false (not_panics_pure _) nofun
  · exact iff_of_false (not_panics_pure _) nofun
  · have hplain : Operation.arithPanics .sub l r = _ :=
      arithPanics_eq (fun _ _ h => nomatch h) fun _ _ h => nomatch h
    rw [tryArithmetic_eq, hplain]
    exact panics_returnsUnless_iff

theorem panics_tryDiv_iff (l r : Value) :
    Panics (tryDiv l r) ↔ Operation.arithPanics .div l r = true := by
  have hsplit : ∀ (c : Prop) [Decidable c] (x y : MayPanic ExecuteError Value),
      ¬ Panics x → ¬ Panics y → ¬ Panics (if c then x else y) := by
    intro c _ x y hx hy
    split
    · exact hx
    · exact hy
  have hreturns : ∀ (c : Prop) [Decidable c] (e : ExecuteError) (v : Value),
      ¬ Panics (if c then throw e else pure v : MayPanic ExecuteError Value) := fun c _ e v =>
    hsplit c _ _ (not_panics_throw e) (not_panics_pure v)
  unfold tryDiv
  split
  · next a b =>
    show _ ↔ (decide (a = Int64.minValue) && decide (b = -1)) = true
    rw [Bool.and_eq_true, decide_eq_true_iff, decide_eq_true_iff]
    split
    · next hzero =>
      refine iff_of_false (not_panics_throw _) fun h => ?_
      rw [h.2] at hzero
      exact absurd hzero (by decide)
    · next hzero =>
      rw [panics_bind_iff, ← panics_divI64_iff hzero]
      exact or_iff_left fun ⟨q, _, hq⟩ => not_panics_pure _ hq
  · exact iff_of_false (hreturns _ _ _) nofun
  · exact iff_of_false (hreturns _ _ _) nofun
  · exact iff_of_false (hreturns _ _ _) nofun
  · exact iff_of_false (not_panics_returns _) nofun
  · exact iff_of_false (not_panics_returns _) nofun
  · exact iff_of_false (not_panics_returns _) nofun
  · exact iff_of_false (not_panics_returns _) nofun
  · exact iff_of_false (hsplit _ _ _ (not_panics_throw _) (not_panics_returns _)) nofun
  · next hints _ _ _ _ _ _ _ _ =>
    have hplain : Operation.arithPanics .div l r = _ :=
      arithPanics_eq (fun a b _ => hints a b) fun _ _ h => nomatch h
    rw [reject_eq, hplain, panics_returnsUnless_iff]
    cases l.isNumeric <;> exact Iff.rfl

theorem panics_tryArith_iff {op : BinaryOp} (hop : op = .add ∨ op = .sub ∨ op = .mul ∨ op = .div)
    (l r : Value) : Panics (tryArith op l r) ↔ Operation.arithPanics op l r = true := by
  rcases hop with rfl | rfl | rfl | rfl
  · exact panics_tryAdd_iff l r
  · exact panics_trySub_iff l r
  · show Panics (tryArithmetic _ l r) ↔ _
    have hplain : Operation.arithPanics .mul l r = _ :=
      arithPanics_eq (fun _ _ h => nomatch h) fun _ _ h => nomatch h
    rw [tryArithmetic_eq, hplain]
    exact panics_returnsUnless_iff
  · exact panics_tryDiv_iff l r

omit [External] [ValueText] [Numerics] [MathOps] in
/-- What a call returns, unless it panics. -/
theorem eq_outcome {x : MayPanic ExecuteError Value} {bad : Bool} (h : Panics x ↔ bad = true) :
    x = returnsUnless bad (settledOutcome x) := by
  cases bad with
  | true => exact h.mpr rfl
  | false =>
    obtain ⟨r, rfl⟩ := exists_returns fun hpanics => Bool.false_ne_true (h.mp hpanics)
    rfl

omit [Numerics] [MathOps] in
theorem tryConnective_eq (ctx : EvalContext Empty) (hrepr : ctx.valueRepr = valueRepr)
    (c : Connective) (l r : Value) : tryConnective c l r =
      returnsUnless (Operation.connectivePanics l r) (evalConnective ctx c l r) := by
  have hreject : ∀ v, (reject "Bool" v c.name : MayPanic ExecuteError Value) =
      returnsUnless v.splitsChar (.error (.typeError "Bool" (ctx.valueRepr v) c.name)) := by
    intro v
    rw [reject_eq, hrepr]
  cases l with
  | bool a =>
    cases r with
    | bool b => rfl
    | null =>
      show (if a = c.absorbing then _ else _) = returns (if a = c.absorbing then _ else _)
      split <;> rfl
    | _ => exact hreject _
  | null =>
    cases r with
    | bool b =>
      show (if b = c.absorbing then _ else _) = returns (if b = c.absorbing then _ else _)
      split <;> rfl
    | null => rfl
    | _ => exact hreject _
  | _ => exact hreject _

theorem tryBinary_eq {op : BinaryOp} (hop : op ≠ .coalesce) (l r : Value) : tryBinary op l r =
    returnsUnless ((Operation.binary op l r).panics env)
      (evalBinary (context env).base op l r) := by
  -- arithmetic on operands that are not null
  have harith : ∀ {op : BinaryOp}, op = .add ∨ op = .sub ∨ op = .mul ∨ op = .div →
      (if l.isNull || r.isNull then pure .null else tryArith op l r) =
        returnsUnless (!(l.isNull || r.isNull) && Operation.arithPanics op l r)
          (if l.isNull || r.isNull then .ok .null else settledOutcome (tryArith op l r)) := by
    intro op hop
    cases l.isNull || r.isNull with
    | true => rfl
    | false => exact eq_outcome (panics_tryArith_iff hop l r)
  have hcompare : ∀ v : Value, (if l.isNull || r.isNull then pure .null else pure v) =
      (returns (if l.isNull || r.isNull then .ok .null else .ok v) :
        MayPanic ExecuteError Value) := by
    intro v
    cases l.isNull || r.isNull <;> rfl
  cases op with
  | and => exact tryConnective_eq (context env).base rfl .and l r
  | or => exact tryConnective_eq (context env).base rfl .or l r
  | coalesce => exact absurd rfl hop
  | add => exact harith (Or.inl rfl)
  | sub => exact harith (Or.inr (Or.inl rfl))
  | mul => exact harith (Or.inr (Or.inr (Or.inl rfl)))
  | div => exact harith (Or.inr (Or.inr (Or.inr rfl)))
  | _ => exact hcompare _

theorem tryUnary_eq (op : UnaryOp) (v : Value) : tryUnary op v =
    returnsUnless ((Operation.unary op v).panics env) ((context env).evalUnary op v) := by
  cases op with
  | not =>
    cases v with
    | bool b => rfl
    | null => rfl
    | _ => exact reject_eq _ _ _
  | neg =>
    cases v with
    | int i =>
      show (negI64 i >>= fun n => pure (Value.int n)) =
        returnsUnless (decide (i = Int64.minValue)) (.ok (.int (-i)))
      unfold negI64
      split
      · next h => rw [decide_eq_true h]; rfl
      · next h => rw [decide_eq_false h]; rfl
    | float f => rfl
    | decimal d => rfl
    | null => rfl
    | _ => exact reject_eq _ _ _
  | _ => rfl

theorem tryIn_eq (val target : Value) (negated : Bool) : tryIn val target negated =
    returnsUnless ((Operation.isIn target).panics env)
      ((context env).evalIn val target negated) := by
  cases target with
  | array list =>
    show (if _ then _ else if _ then _ else _) = returns (if _ then _ else if _ then _ else _)
    split
    · rfl
    · split <;> rfl
  | null => rfl
  | _ => exact reject_eq _ _ _

/-! ### Indices and slices -/

omit [External] [ValueText] [Numerics] [MathOps] in
/-- A sum in the range of `i64`. -/
theorem addI64_eq {ε : Type} {a b : Int} (hlo : -2 ^ 63 ≤ a + b) (hhi : a + b < 2 ^ 63) :
    (addI64 a b : MayPanic ε Int) = pure (a + b) := if_pos ⟨hlo, hhi⟩

omit [External] [ValueText] [Numerics] [MathOps] in
/-- Counting from the end does not overflow. -/
theorem fromEnd_eq {ε : Type} {len i : Int} (hlen : 0 ≤ len) (hmax : len < 2 ^ 63)
    (hlo : -2 ^ 63 ≤ i) : (fromEnd len i : MayPanic ε Int) =
      pure (if i < 0 then len + i else i) := by
  unfold fromEnd
  split
  · exact addI64_eq (by omega) (by omega)
  · rfl

omit [External] [ValueText] [Numerics] [MathOps] in
theorem clampI64_eq {lo hi i : Int} (h : lo ≤ hi) :
    clampI64 lo hi i = pure (max lo (min i hi)) := if_pos h

omit [External] [ValueText] [Numerics] [MathOps] in
theorem indexPosition_float (f : F64) : indexPosition (.float f) =
    match f.index? with
    | some i => .ok (some i)
    | none => .error (.typeError "Int" (valueTypeName (.float f)) "array index") := rfl

omit [External] [ValueText] [Numerics] [MathOps] in
theorem le_indexPosition {v : Value} {i : Int} (h : indexPosition v = .ok (some i)) :
    -2 ^ 63 ≤ i := by
  cases v with
  | int n =>
    cases h
    exact n.le_toInt
  | float f =>
    rw [indexPosition_float] at h
    cases hf : f.index? with
    | none =>
      rw [hf] at h
      cases h
    | some n =>
      rw [hf] at h
      cases h
      unfold F64.index? at hf
      split at hf
      · cases hf
      · split at hf
        · cases hf
          exact le_max_left _ _
        · cases hf
  | _ => cases h

omit [External] [ValueText] [Numerics] [MathOps] in
theorem le_slicePosition {op : String} {default i : Int} {v : Option Value}
    (hdefault : -2 ^ 63 ≤ default) (h : slicePosition op default v = .ok (some i)) :
    -2 ^ 63 ≤ i := by
  cases v with
  | none =>
    cases h
    exact hdefault
  | some v =>
    cases v with
    | int n =>
      cases h
      exact n.le_toInt
    | _ => cases h

/-- The element a position stands for, or null. -/
def elementOrNull (arr : List Value) (i : Int) : Value :=
  let normalized := if i < 0 then arr.length + i else i
  if normalized < 0 then .null else (arr[normalized.toNat]?).getD .null

theorem evalIndex_array (arr : List Value) (index : Value) :
    (context env).evalIndex (.array arr) index =
      match indexPosition index with
      | .error e => .error e
      | .ok none => .ok .null
      | .ok (some i) => .ok (elementOrNull arr i) := by
  cases index with
  | float f =>
    rw [indexPosition_float]
    show (match f.index? with
      | some i => Except.ok (elementOrNull arr i)
      | none => Except.error (ExecuteError.typeError "Int" (valueTypeName (.float f))
        "array index")) = _
    cases f.index? <;> rfl
  | _ => rfl

theorem tryIndex_eq (base index : Value) : tryIndex base index =
    returnsUnless ((Operation.index base index).panics env)
      ((context env).evalIndex base index) := by
  cases base with
  | null => rfl
  | array arr =>
    rw [evalIndex_array]
    show _ = returnsUnless (decide (2 ^ 63 ≤ arr.length) &&
      (match indexPosition index with | .ok (some _) => true | _ => false)) _
    unfold tryIndex
    cases hpos : indexPosition index with
    | error e =>
      rw [Bool.and_false]
      rfl
    | ok position =>
      cases position with
      | none =>
        rw [Bool.and_false]
        rfl
      | some i =>
        have hlo := le_indexPosition hpos
        show (vecLen arr >>= fun len => fromEnd len i >>= _) = _
        unfold vecLen
        by_cases hlen : arr.length < 2 ^ 63
        · rw [if_pos hlen, decide_eq_false (not_le.mpr hlen)]
          show (fromEnd arr.length i >>= _) = _
          rw [fromEnd_eq (by omega) (by omega) hlo]
          show (if _ ∨ _ then pure Value.null else elementAt arr _) =
            returns (.ok (elementOrNull arr i))
          unfold elementOrNull
          generalize (if i < 0 then (arr.length : Int) + i else i) = n
          by_cases hneg : n < 0
          · rw [if_pos (Or.inl hneg)]
            show _ = returns (.ok (if n < 0 then _ else _))
            rw [if_pos hneg]
            rfl
          · show _ = returns (.ok (if n < 0 then _ else _))
            rw [if_neg hneg]
            by_cases hout : (arr.length : Int) ≤ n
            · rw [if_pos (Or.inr hout), List.getElem?_eq_none (by omega)]
              rfl
            · rw [if_neg (not_or.mpr ⟨hneg, hout⟩), elementAt,
                List.getElem?_eq_getElem (by omega)]
              rfl
        · rw [if_neg hlen, decide_eq_true (not_lt.mp hlen)]
          rfl
  | _ => rfl

/-- The elements between two positions, both of them included. -/
def elementsBetween (arr : List Value) (start stop : Int) : List Value :=
  let s := max 0 (min (if start < 0 then arr.length + start else start) arr.length)
  let e := max (-1) (min (if stop < 0 then arr.length + stop else stop) (arr.length - 1))
  if e < s ∨ (arr.length : Int) = 0 then [] else (arr.drop s.toNat).take (e - s + 1).toNat

theorem evalSlice_array (arr : List Value) (start stop : Option Value) :
    (context env).evalSlice (.array arr) start stop =
      match slicePosition "slice start" 0 start with
      | .error e => .error e
      | .ok none => .ok .null
      | .ok (some start) =>
        match slicePosition "slice end" (arr.length - 1) stop with
        | .error e => .error e
        | .ok none => .ok .null
        | .ok (some stop) => .ok (.array (elementsBetween arr start stop)) := by
  have hbound : ∀ op default v, (context env).sliceBound op default v =
      slicePosition op default v := by
    intro op default v
    cases v with
    | none => rfl
    | some v => cases v <;> rfl
  unfold AstContext.evalSlice
  simp only [hbound]
  cases slicePosition "slice start" 0 start with
  | error e => rfl
  | ok position =>
    cases position with
    | none => rfl
    | some first =>
      cases slicePosition "slice end" (arr.length - 1) stop with
      | error e => rfl
      | ok position =>
        cases position with
        | none => rfl
        | some last =>
          unfold elementsBetween
          simp only [Bool.or_eq_true, decide_eq_true_eq]
          exact (apply_ite (fun l => Except.ok (Value.array l)) _ _ _).symm

theorem trySlice_eq (base : Value) (start stop : Option Value) : trySlice base start stop =
    returnsUnless ((Operation.slice base start stop).panics env)
      ((context env).evalSlice base start stop) := by
  cases base with
  | null => rfl
  | array arr =>
    rw [evalSlice_array]
    show (vecLen arr >>= _) = returnsUnless (decide (2 ^ 63 ≤ arr.length)) _
    unfold vecLen
    by_cases hlen : arr.length < 2 ^ 63
    · rw [if_pos hlen, decide_eq_false (not_le.mpr hlen), returnsUnless_false]
      show (returns (slicePosition "slice start" 0 start) >>= _) = _
      cases hstart : slicePosition "slice start" 0 start with
      | error e => rfl
      | ok position =>
        cases position with
        | none => rfl
        | some first =>
          have hfirst := le_slicePosition (by norm_num) hstart
          show (addI64 arr.length (-1) >>= _) = _
          rw [addI64_eq (by omega) (by omega), ← sub_eq_add_neg]
          show (returns (slicePosition "slice end" (arr.length - 1) stop) >>= _) = _
          cases hstop : slicePosition "slice end" (arr.length - 1) stop with
          | error e => rfl
          | ok position =>
            cases position with
            | none => rfl
            | some last =>
              have hlast := le_slicePosition (by omega) hstop
              show (fromEnd arr.length first >>= _) = _
              rw [fromEnd_eq (by omega) (by omega) hfirst]
              show (fromEnd arr.length last >>= _) = _
              rw [fromEnd_eq (by omega) (by omega) hlast, pure_bind, clampI64_eq (by omega),
                pure_bind, clampI64_eq (by omega), pure_bind]
              show (if _ ∨ _ then pure (Value.array []) else slice arr _ _ >>= _) =
                returns (.ok (.array (elementsBetween arr first last)))
              unfold elementsBetween
              generalize (if first < 0 then (arr.length : Int) + first else first) = s
              generalize (if last < 0 then (arr.length : Int) + last else last) = e
              by_cases hempty : max (-1) (min e ((arr.length : Int) - 1)) <
                  max 0 (min s (arr.length : Int)) ∨ (arr.length : Int) = 0
              · rw [if_pos hempty]
                show _ = returns (Except.ok (Value.array (if _ ∨ _ then _ else _)))
                rw [if_pos hempty]
                rfl
              · rw [if_neg hempty]
                show _ = returns (Except.ok (Value.array (if _ ∨ _ then _ else _)))
                rw [if_neg hempty, slice_of_le (by omega)]
                have hcount : (max (-1) (min e ((arr.length : Int) - 1))).toNat + 1 -
                    (max 0 (min s (arr.length : Int))).toNat =
                    (max (-1) (min e ((arr.length : Int) - 1)) -
                      max 0 (min s (arr.length : Int)) + 1).toNat := by
                  omega
                rw [hcount]
                rfl
    · rw [if_neg hlen, decide_eq_true (not_lt.mp hlen)]
      rfl
  | _ => rfl

/-! ### Functions -/

end Operators

namespace MathFunctions

/-- A call with another number of arguments is an error. -/
theorem not_panics_arity {f : FunctionDef} {n : Nat} {args : List Value} (hf : f.arity = some n)
    (h : args.length ≠ n) : ¬ Panics (f.call args) := by
  unfold FunctionDef.call
  rw [hf, if_neg fun hall => h (of_decide_eq_true hall).symm]
  exact not_panics_throw _

theorem callPanics_eq_false {f : FunctionDef} (habs : f.name ≠ "abs")
    (hmodulo : f.name ≠ "modulo") (args : List Value) : Operation.callPanics f args = false := by
  unfold Operation.callPanics
  split
  · rw [decide_eq_false habs]
    rfl
  · rw [decide_eq_false hmodulo]
    rfl
  · rfl

/-- A call panics where it is said to. -/
def Told (f : FunctionDef) : Prop :=
  ∀ args, Panics (f.call args) ↔ Operation.callPanics f args = true

theorem unary_told {name : String} {eval : Value → MayPanic ExecuteError Value}
    (habs : name ≠ "abs") (hmodulo : name ≠ "modulo") (h : ∀ v, ¬ Panics (eval v)) :
    Told (unary name eval) := by
  intro args
  rw [callPanics_eq_false habs hmodulo]
  refine iff_of_false ?_ Bool.false_ne_true
  match args with
  | [v] => exact h v
  | [] => exact not_panics_arity rfl (by decide)
  | _ :: _ :: _ => exact not_panics_arity rfl (by simp)

theorem binary_told {name : String} {eval : Value → Value → MayPanic ExecuteError Value}
    (habs : name ≠ "abs") (hmodulo : name ≠ "modulo") (h : ∀ v w, ¬ Panics (eval v w)) :
    Told (binary name eval) := by
  intro args
  rw [callPanics_eq_false habs hmodulo]
  refine iff_of_false ?_ Bool.false_ne_true
  match args with
  | [v, w] => exact h v w
  | [] => exact not_panics_arity rfl (by decide)
  | [_] => exact not_panics_arity rfl (by simp)
  | _ :: _ :: _ :: _ => exact not_panics_arity rfl (by simp)

theorem toInteger_told {name : String} (habs : name ≠ "abs") (hmodulo : name ≠ "modulo")
    (op : String) (f : F64 → Int64) : Told (toInteger name op f) :=
  unary_told habs hmodulo fun v => by
    cases v <;> first | exact not_panics_pure _ | exact not_panics_throw _

theorem onFloat_told {name : String} (habs : name ≠ "abs") (hmodulo : name ≠ "modulo")
    (op : String) (f : F64 → F64) : Told (onFloat name op f) :=
  unary_told habs hmodulo fun v => by
    cases v <;> first | exact not_panics_pure _ | exact not_panics_throw _

theorem onFloats_told {name : String} (habs : name ≠ "abs") (hmodulo : name ≠ "modulo")
    (op : String) (ints : Int64 → Int64 → Value) (f : F64 → F64 → F64) :
    Told (onFloats name op ints f) :=
  binary_told habs hmodulo fun v w => by
    cases v <;> cases w <;> first | exact not_panics_pure _ | exact not_panics_throw _

theorem sign_told : Told sign :=
  unary_told (by decide) (by decide) fun v => by
    cases v <;> first | exact not_panics_pure _ | exact not_panics_throw _

theorem abs_told : Told abs := by
  intro args
  match args with
  | [v] =>
    cases v with
    | int i =>
      show Panics (absI64 i >>= fun n => pure (Value.int n)) ↔
        decide (i = Int64.minValue) = true
      rw [panics_bind_iff, decide_eq_true_iff]
      unfold absI64
      split
      · next h => exact iff_of_true (Or.inl rfl) h
      · next h =>
        refine iff_of_false (fun hpanics => ?_) h
        rcases hpanics with hpanics | ⟨n, -, hpanics⟩
        · exact not_panics_pure _ hpanics
        · exact not_panics_pure _ hpanics
    | null => exact iff_of_false (not_panics_pure _) Bool.false_ne_true
    | float f => exact iff_of_false (not_panics_pure _) Bool.false_ne_true
    | _ => exact iff_of_false (not_panics_throw _) Bool.false_ne_true
  | [] => exact iff_of_false (not_panics_arity rfl (by decide)) Bool.false_ne_true
  | [v, w] =>
    refine iff_of_false (not_panics_arity rfl (by simp)) ?_
    cases v <;> cases w <;> exact Bool.false_ne_true
  | v :: w :: _ :: _ =>
    refine iff_of_false (not_panics_arity rfl (by simp)) ?_
    cases v <;> cases w <;> exact Bool.false_ne_true

variable [MathOps]

theorem modulo_told : Told modulo := by
  have hreturns : ∀ (c : Prop) [Decidable c] (e : ExecuteError) (v : Value),
      ¬ Panics (if c then throw e else pure v : MayPanic ExecuteError Value) := by
    intro c _ e v
    split
    · exact not_panics_throw e
    · exact not_panics_pure v
  intro args
  match args with
  | [v, w] =>
    cases v with
    | int x =>
      cases w with
      | int y =>
        show Panics (if y = 0 then throw ExecuteError.divisionByZero
          else remI64 x y >>= fun n => pure (Value.int n)) ↔
          (decide (x = Int64.minValue) && decide (y = -1)) = true
        rw [Bool.and_eq_true, decide_eq_true_iff, decide_eq_true_iff]
        split
        · next hzero =>
          refine iff_of_false (not_panics_throw _) fun h => ?_
          rw [h.2] at hzero
          exact absurd hzero (by decide)
        · next hzero =>
          rw [panics_bind_iff, ← panics_remI64_iff hzero]
          exact or_iff_left fun ⟨n, _, hn⟩ => not_panics_pure _ hn
      | null => exact iff_of_false (not_panics_pure _) Bool.false_ne_true
      | float y => exact iff_of_false (hreturns _ _ _) Bool.false_ne_true
      | _ => exact iff_of_false (not_panics_throw _) Bool.false_ne_true
    | float x =>
      cases w with
      | null => exact iff_of_false (not_panics_pure _) Bool.false_ne_true
      | int y => exact iff_of_false (hreturns _ _ _) Bool.false_ne_true
      | float y => exact iff_of_false (hreturns _ _ _) Bool.false_ne_true
      | _ => exact iff_of_false (not_panics_throw _) Bool.false_ne_true
    | null => exact iff_of_false (not_panics_pure _) Bool.false_ne_true
    | _ =>
      cases w with
      | null => exact iff_of_false (not_panics_pure _) Bool.false_ne_true
      | _ => exact iff_of_false (not_panics_throw _) Bool.false_ne_true
  | [] => exact iff_of_false (not_panics_arity rfl (by decide)) Bool.false_ne_true
  | [v] =>
    refine iff_of_false (not_panics_arity rfl (by simp)) ?_
    cases v <;> exact Bool.false_ne_true
  | v :: w :: _ :: _ =>
    refine iff_of_false (not_panics_arity rfl (by simp)) ?_
    cases v <;> cases w <;> exact Bool.false_ne_true

/-- Of the functions only `abs` and `modulo` panic, where the magnitude or the quotient
overflows. -/
theorem all_told : ∀ f ∈ all, Told f := by
  simp only [all, List.forall_mem_cons]
  exact ⟨abs_told, toInteger_told (by decide) (by decide) _ _,
    toInteger_told (by decide) (by decide) _ _, toInteger_told (by decide) (by decide) _ _,
    toInteger_told (by decide) (by decide) _ _, sign_told,
    onFloat_told (by decide) (by decide) _ _, onFloats_told (by decide) (by decide) _ _ _,
    onFloat_told (by decide) (by decide) _ _, onFloats_told (by decide) (by decide) _ _ _,
    modulo_told, onFloats_told (by decide) (by decide) _ _ _,
    onFloats_told (by decide) (by decide) _ _ _, onFloat_told (by decide) (by decide) _ _,
    onFloat_told (by decide) (by decide) _ _, onFloat_told (by decide) (by decide) _ _, nofun⟩

end MathFunctions

section Evaluation

variable [Numerics] [External] [ValueText] [MathOps] (env : Surroundings) (row : Row)

theorem tryCall_eq (ns : Option String) (name : String) (args : List Value) :
    tryCall env row ns name args = returnsUnless ((Operation.call ns name args).panics env)
      ((context env).evalCall row ns name args) := by
  have hregistry : ∀ {bad : Bool}, (Panics (tryCallFunction env ns name args) ↔ bad = true) →
      tryCallFunction env ns name args =
        returnsUnless bad ((context env).callFunction ns name args) := eq_outcome
  unfold tryCall AstContext.evalCall
  cases ns with
  | none =>
    rw [if_neg (by simp), if_neg (by simp), if_neg (by simp), if_neg (by simp)]
    exact hregistry (iff_of_false (not_panics_throw _) Bool.false_ne_true)
  | some space =>
    show _ = returnsUnless (!(decide (space = "fts") && decide (name = "score") ||
      decide (space = "vector") && decide (name = "distance")) &&
      (resolveMath env space name).any fun f => Operation.callPanics f args) _
    by_cases hscore : space = "fts" ∧ name = "score"
    · rw [if_pos ⟨congrArg some hscore.1, hscore.2⟩, if_pos ⟨congrArg some hscore.1, hscore.2⟩,
        decide_eq_true hscore.1, decide_eq_true hscore.2]
      cases args with
      | nil => rfl
      | cons v args => cases v <;> rfl
    · have hscore' : ¬ (some space = some "fts" ∧ name = "score") := fun h =>
        hscore ⟨Option.some_inj.mp h.1, h.2⟩
      rw [if_neg hscore', if_neg hscore', ← Bool.decide_and, decide_eq_false hscore]
      by_cases hdistance : space = "vector" ∧ name = "distance"
      · rw [if_pos ⟨congrArg some hdistance.1, hdistance.2⟩,
          if_pos ⟨congrArg some hdistance.1, hdistance.2⟩, decide_eq_true hdistance.1,
          decide_eq_true hdistance.2]
        rfl
      · have hdistance' : ¬ (some space = some "vector" ∧ name = "distance") := fun h =>
          hdistance ⟨Option.some_inj.mp h.1, h.2⟩
        rw [if_neg hdistance', if_neg hdistance', ← Bool.decide_and, decide_eq_false hdistance]
        refine hregistry ?_
        show Panics (match resolveMath env space name with
          | some f => f.call args
          | none =>
            match env.others (env.lower space) (env.lower name) with
            | some eval => returns (eval args)
            | none => throw (env.unknown (some space) name)) ↔ _
        cases hresolve : resolveMath env space name with
        | none =>
          refine iff_of_false ?_ Bool.false_ne_true
          cases env.others (env.lower space) (env.lower name) with
          | none => exact not_panics_throw _
          | some eval => exact not_panics_returns _
        | some f => exact MathFunctions.all_told f (List.mem_of_find?_eq_some hresolve) args

/-! ## The operations of an evaluation -/

/-- What follows when there is a value. -/
def afterOk {α : Type} (r : Except ExecuteError α) (next : α → List Operation) :
    List Operation :=
  match r with
  | .ok a => next a
  | .error _ => []

mutual

/-- The operations an evaluation comes to, with the values of their operands. -/
def operations : AstExpr → List Operation
  | .binaryOp left op right =>
    operations left ++ afterOk (evalAst (context env) row left) fun l =>
      if op = .coalesce ∧ l.isTruthy then []
      else operations right ++ afterOk (evalAst (context env) row right) fun r =>
        if op = .coalesce then [] else [.binary op l r]
  | .unaryOp .isNone _ => []
  | .unaryOp .isNotNone _ => []
  | .unaryOp op e =>
    operations e ++ afterOk (evalAst (context env) row e) fun v => [.unary op v]
  | .functionCall ns name args =>
    operationsOf args ++ afterOk (evalAsts (context env) row args) fun vs => [.call ns name vs]
  | .inList e list _ =>
    operations e ++ afterOk (evalAst (context env) row e) fun val =>
      if val.isNull then [] else operationsOfItems val list
  | .inExpr e target _ =>
    operations e ++ afterOk (evalAst (context env) row e) fun val =>
      if val.isNull then []
      else operations target ++ afterOk (evalAst (context env) row target) fun v => [.isIn v]
  | .array items => operationsOf items
  | .object pairs => operationsOfPairs pairs
  | .index base i =>
    operations base ++ afterOk (evalAst (context env) row base) fun b =>
      operations i ++ afterOk (evalAst (context env) row i) fun v => [.index b v]
  | .slice base start stop =>
    operations base ++ afterOk (evalAst (context env) row base) fun b =>
      operationsOfOption start ++ afterOk (evalAstOption (context env) row start) fun s =>
        operationsOfOption stop ++ afterOk (evalAstOption (context env) row stop) fun e =>
          [.slice b s e]
  | .fieldAccess base _ => operations base
  | .range start stop =>
    operations start ++ afterOk (evalAst (context env) row start) fun _ => operations stop
  | _ => []

def operationsOf : List AstExpr → List Operation
  | [] => []
  | e :: es =>
    operations e ++ afterOk (evalAst (context env) row e) fun _ => operationsOf es

def operationsOfPairs : List (String × AstExpr) → List Operation
  | [] => []
  | (_, e) :: pairs =>
    operations e ++ afterOk (evalAst (context env) row e) fun _ => operationsOfPairs pairs

def operationsOfOption : Option AstExpr → List Operation
  | none => []
  | some e => operations e

def operationsOfItems (val : Value) : List AstExpr → List Operation
  | [] => []
  | e :: es =>
    operations e ++ afterOk (evalAst (context env) row e) fun item =>
      if item.isNull then operationsOfItems val es
      else if valuesEqual val item then [] else operationsOfItems val es

end

omit [Numerics] [External] [ValueText] in
/-- The operations of a part come first, then those that follow its value. -/
theorem returnsUnless_afterOk {α β : Type} {ops : List Operation} {r : Except ExecuteError α}
    {f : α → MayPanic ExecuteError β} {next : α → List Operation} {s : Except ExecuteError β}
    (hok : ∀ a, r = .ok a → f a = returnsUnless ((next a).any (·.panics env)) s)
    (herror : ∀ e, r = .error e → s = .error e) :
    (returnsUnless (ops.any (·.panics env)) r >>= f) =
      returnsUnless ((ops ++ afterOk r next).any (·.panics env)) s := by
  rw [List.any_append]
  cases ops.any (·.panics env) with
  | true => rfl
  | false =>
    cases r with
    | error e =>
      rw [herror e rfl]
      rfl
    | ok a => exact hok a rfl

mutual

/-- An expression evaluates, unless one of the operations it comes to panics. -/
theorem tryEval_eq : ∀ e : AstExpr, tryEval env row e =
    returnsUnless ((operations env row e).any (·.panics env)) (evalAst (context env) row e)
  | .literal _ => rfl
  | .field _ => rfl
  | .binaryOp left op right => by
    rw [tryEval, tryEval_eq left, operations, evalAst]
    refine returnsUnless_afterOk env (fun l hl => ?_) (fun e he => by rw [he])
    rw [hl]
    by_cases hskip : op = .coalesce ∧ l.isTruthy
    · rw [if_pos hskip, if_pos hskip]
      show _ = returns (if op = .coalesce ∧ l.isTruthy then _ else _)
      rw [if_pos hskip]
      rfl
    · rw [if_neg hskip, if_neg hskip, tryEval_eq right]
      show _ = returnsUnless _ (if op = .coalesce ∧ l.isTruthy then _ else _)
      rw [if_neg hskip]
      refine returnsUnless_afterOk env (fun r hr => ?_) (fun e he => by rw [he])
      rw [hr]
      show _ = returnsUnless _ (if op = .coalesce then _ else _)
      by_cases hop : op = .coalesce
      · rw [if_pos hop, if_pos hop, if_pos hop]
        rfl
      · rw [if_neg hop, if_neg hop, if_neg hop, tryBinary_eq env hop, List.any_cons,
          List.any_nil, Bool.or_false]
  | .unaryOp op e => by
    have hplain : ∀ op, (tryEval env row e >>= fun v => tryUnary op v) = returnsUnless
          ((operations env row e ++ afterOk (evalAst (context env) row e)
            fun v => [.unary op v]).any (·.panics env))
          (match evalAst (context env) row e with
            | .error err => .error err
            | .ok v => (context env).evalUnary op v) := by
      intro op
      rw [tryEval_eq e]
      refine returnsUnless_afterOk env (fun v hv => ?_) (fun err herr => by rw [herr])
      rw [hv, tryUnary_eq env, List.any_cons, List.any_nil, Bool.or_false]
    cases op with
    | isNone => cases e <;> rfl
    | isNotNone => cases e <;> rfl
    | _ => exact hplain _
  | .functionCall ns name args => by
    rw [tryEval, tryEvals_eq args, operations, evalAst]
    refine returnsUnless_afterOk env (fun vs hvs => ?_) (fun e he => by rw [he])
    rw [hvs, tryCall_eq, List.any_cons, List.any_nil, Bool.or_false]
  | .aggregate _ => rfl
  | .inList e list negated => by
    rw [tryEval, tryEval_eq e, operations, evalAst]
    refine returnsUnless_afterOk env (fun val hval => ?_) (fun e he => by rw [he])
    rw [hval]
    show _ = returnsUnless _ (if val.isNull then _ else _)
    cases val.isNull with
    | true => rfl
    | false =>
      show (tryEvalItems env row val false list >>= _) = returnsUnless
        ((operationsOfItems env row val list).any (·.panics env)) _
      rw [tryEvalItems_eq val list false]
      cases (operationsOfItems env row val list).any (·.panics env) with
      | true => rfl
      | false =>
        show _ = returns (match evalAstItems (context env) row val false list with
          | .error err => .error err
          | .ok none => .ok Value.null
          | .ok (some found) => .ok (Value.bool (if negated then !found else found)))
        cases evalAstItems (context env) row val false list with
        | error e => rfl
        | ok found => cases found <;> rfl
  | .inExpr e target negated => by
    rw [tryEval, tryEval_eq e, operations, evalAst]
    refine returnsUnless_afterOk env (fun val hval => ?_) (fun e he => by rw [he])
    rw [hval]
    show _ = returnsUnless _ (if val.isNull then _ else _)
    cases val.isNull with
    | true => rfl
    | false =>
      show (tryEval env row target >>= _) = returnsUnless
        ((operations env row target ++ afterOk _ _).any (·.panics env)) _
      rw [tryEval_eq target]
      refine returnsUnless_afterOk env (fun v hv => ?_) (fun e he => by rw [he]; rfl)
      rw [hv, tryIn_eq env, List.any_cons, List.any_nil, Bool.or_false]
      rfl
  | .valueRef none => rfl
  | .valueRef (some _) => rfl
  | .array items => by
    rw [tryEval, tryEvals_eq items, operations, evalAst]
    cases (operationsOf env row items).any (·.panics env) with
    | true => rfl
    | false => cases evalAsts (context env) row items <;> rfl
  | .object pairs => by
    rw [tryEval, tryEvalPairs_eq pairs, operations, evalAst]
    cases (operationsOfPairs env row pairs).any (·.panics env) with
    | true => rfl
    | false => cases evalAstPairs (context env) row pairs <;> rfl
  | .index base i => by
    rw [tryEval, tryEval_eq base, operations, evalAst]
    refine returnsUnless_afterOk env (fun b hb => ?_) (fun e he => by rw [he])
    rw [hb, tryEval_eq i]
    refine returnsUnless_afterOk env (fun v hv => ?_) (fun e he => by rw [he])
    rw [hv, tryIndex_eq env, List.any_cons, List.any_nil, Bool.or_false]
  | .slice base start stop => by
    rw [tryEval, tryEval_eq base, operations, evalAst]
    refine returnsUnless_afterOk env (fun b hb => ?_) (fun e he => by rw [he])
    rw [hb, tryEvalOption_eq start]
    refine returnsUnless_afterOk env (fun s hs => ?_) (fun e he => by rw [he])
    rw [hs, tryEvalOption_eq stop]
    refine returnsUnless_afterOk env (fun t ht => ?_) (fun e he => by rw [he])
    rw [ht, trySlice_eq env, List.any_cons, List.any_nil, Bool.or_false]
  | .fieldAccess base field => by
    rw [tryEval, tryEval_eq base, operations, evalAst]
    cases (operations env row base).any (·.panics env) with
    | true => rfl
    | false => cases evalAst (context env) row base <;> rfl
  | .constant _ _ => rfl
  | .variable _ => rfl
  | .range start stop => by
    rw [tryEval, tryEval_eq start, operations, evalAst]
    refine returnsUnless_afterOk env (fun s hs => ?_) (fun e he => by rw [he])
    rw [hs, tryEval_eq stop]
    cases (operations env row stop).any (·.panics env) with
    | true => rfl
    | false => cases evalAst (context env) row stop <;> rfl
  | .search _ _ _ => rfl
  | .deferred _ _ _ => rfl

theorem tryEvals_eq : ∀ es : List AstExpr, tryEvals env row es =
    returnsUnless ((operationsOf env row es).any (·.panics env)) (evalAsts (context env) row es)
  | [] => rfl
  | e :: es => by
    rw [tryEvals, tryEval_eq e, operationsOf, evalAsts]
    refine returnsUnless_afterOk env (fun v hv => ?_) (fun e he => by rw [he])
    rw [hv, tryEvals_eq es]
    cases (operationsOf env row es).any (·.panics env) with
    | true => rfl
    | false => cases evalAsts (context env) row es <;> rfl

theorem tryEvalPairs_eq : ∀ pairs : List (String × AstExpr), tryEvalPairs env row pairs =
    returnsUnless ((operationsOfPairs env row pairs).any (·.panics env))
      (evalAstPairs (context env) row pairs)
  | [] => rfl
  | (key, e) :: pairs => by
    rw [tryEvalPairs, tryEval_eq e, operationsOfPairs, evalAstPairs]
    refine returnsUnless_afterOk env (fun v hv => ?_) (fun e he => by rw [he])
    rw [hv, tryEvalPairs_eq pairs]
    cases (operationsOfPairs env row pairs).any (·.panics env) with
    | true => rfl
    | false => cases evalAstPairs (context env) row pairs <;> rfl

theorem tryEvalOption_eq : ∀ e : Option AstExpr, tryEvalOption env row e =
    returnsUnless ((operationsOfOption env row e).any (·.panics env))
      (evalAstOption (context env) row e)
  | none => rfl
  | some e => by
    rw [tryEvalOption, tryEval_eq e, operationsOfOption, evalAstOption]
    cases (operations env row e).any (·.panics env) with
    | true => rfl
    | false => cases evalAst (context env) row e <;> rfl

theorem tryEvalItems_eq (val : Value) : ∀ (es : List AstExpr) (hasNull : Bool),
    tryEvalItems env row val hasNull es =
      returnsUnless ((operationsOfItems env row val es).any (·.panics env))
        (evalAstItems (context env) row val hasNull es)
  | [], _ => rfl
  | e :: es, hasNull => by
    rw [tryEvalItems, tryEval_eq e, operationsOfItems, evalAstItems]
    refine returnsUnless_afterOk env (fun item hitem => ?_) (fun e he => by rw [he])
    rw [hitem]
    show _ = returnsUnless _ (if item.isNull then _ else _)
    by_cases hnull : item.isNull = true
    · rw [if_pos hnull, if_pos hnull, if_pos hnull]
      exact tryEvalItems_eq val es true
    · rw [if_neg hnull, if_neg hnull, if_neg hnull]
      by_cases hequal : valuesEqual val item = true
      · rw [if_pos hequal, if_pos hequal, if_pos hequal]
        rfl
      · rw [if_neg hequal, if_neg hequal, if_neg hequal]
        exact tryEvalItems_eq val es hasNull

end

/-- `eval_expr` returns exactly when none of the operations it comes to panics: no least integer
divided by `-1`, negated or made positive, no text cut inside a character for an error. -/
theorem evaluation_returns_iff (e : AstExpr) : (∃ r, tryEval env row e = returns r) ↔
    ∀ op ∈ operations env row e, op.panics env = false := by
  rw [tryEval_eq]
  constructor
  · intro ⟨r, hr⟩ op hop
    by_contra hpanics
    have hany : (operations env row e).any (·.panics env) = true :=
      List.any_eq_true.mpr ⟨op, hop, Bool.not_eq_false _ ▸ hpanics⟩
    rw [hany] at hr
    cases hr
  · intro h
    have hany : (operations env row e).any (·.panics env) = false :=
      List.any_eq_false.mpr fun op hop => by rw [h op hop]; decide
    rw [hany]
    exact ⟨_, rfl⟩

end Evaluation

namespace Meters

local instance : Numerics := .standIn

local instance : External := .standIn

local instance : ValueText := .standIn

local instance : MathOps := .standIn

def env : Surroundings where
  getDocument _ _ := .ok none
  lower := id
  others _ _ := none
  unknown _ name := .other name
  constant _ name := .error (.other name)
  scope name := .error (.other name)

/-- A meter at the least integer. -/
def meter : Row := .fromDoc ⟨"meters:1", [("reading", .int Int64.minValue)], rfl⟩

/-- `reading / -1` is a panic. -/
theorem reading_lost : ¬ ∀ (env : Surroundings) (row : Row) (e : AstExpr),
    ∃ r, tryEval env row e = returns r := by
  intro h
  obtain ⟨r, hr⟩ := h env meter (.binaryOp (.field "reading") .div (.literal (.int (-1))))
  have hpanics : Panics (tryEval env meter
      (.binaryOp (.field "reading") .div (.literal (.int (-1))))) := by
    rw [tryEval_eq, panics_returnsUnless_iff]
    decide +kernel
  rw [hr] at hpanics
  cases hpanics

/-- The seventeenth byte of this name is the first half of a letter. -/
example : (Operation.binary .mul (.string "Новосибирск") (.int 1)).panics env = true := by
  decide +kernel

end Meters

end StellarDb
