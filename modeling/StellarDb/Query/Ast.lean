import StellarDb.Query.Operators

/-!
# StellarDb — expressions (`query/ast/expr.rs`, `query/execute/eval`)

The expressions of statements, all kinds of them, and their evaluation on a row. The planner
looks into few of these kinds: for it the others are behind `other`.

Subqueries, traversals, searches and control flow have no value here: they are replaced or
evaluated elsewhere, and `eval_expr` fails on them. They keep only what `walk` visits.
-/

namespace StellarDb

open Entries

/-! ## Syntax -/

inductive UnaryOp where
  | neg | not | isNull | isNotNull | isNone | isNotNone
  deriving DecidableEq, Repr

/-- An aggregate function call. -/
structure AggregateCall where
  ns : Option String
  function : String
  arg : AggregateArg
  distinct : Bool
  deriving DecidableEq, Repr

/-- `Expr` of the source. -/
inductive AstExpr where
  | literal (v : Value)
  | field (name : String)
  | binaryOp (left : AstExpr) (op : BinaryOp) (right : AstExpr)
  | unaryOp (op : UnaryOp) (expr : AstExpr)
  | functionCall (ns : Option String) (name : String) (args : List AstExpr)
  | aggregate (call : AggregateCall)
  | inList (expr : AstExpr) (list : List AstExpr) (negated : Bool)
  | inExpr (expr target : AstExpr) (negated : Bool)
  | valueRef (path : Option String)
  | array (items : List AstExpr)
  | object (pairs : List (String × AstExpr))
  | index (base index : AstExpr)
  | slice (base : AstExpr) (start stop : Option AstExpr)
  | fieldAccess (base : AstExpr) (field : String)
  | constant (ns name : String)
  | variable (name : String)
  | range (start stop : AstExpr)
  /-- A search with its text, and the vector of a nearest-neighbour one. -/
  | search (kind : SearchKind) (text : String) (children : List AstExpr)
  /-- `InSubquery`, `Subquery`, `ParentRef`, `Traversal`, `If`, `For`, `Break` and `Continue`. -/
  | deferred (kind text : String) (children : List AstExpr)

/-! ## Values of operators (`eval/mod.rs`, `eval/access.rs`) -/

namespace F64

/-- `-f` -/
def neg (f : F64) : F64 := ⟨f.bits ^^^ ((1 : UInt64) <<< 63)⟩

/-- `f as i64` when `f.fract() == 0.0`. -/
def index? (f : F64) : Option Int :=
  if f.expBits = 2047 then none
  else if f.isIntegral then
    let n : Int := if f.isNegative then -f.truncAbs else f.truncAbs
    some (max (-2 ^ 63) (min n (2 ^ 63 - 1)))
  else none

end F64

/-- What evaluation takes from its surroundings. -/
structure AstContext where
  base : EvalContext Empty
  /-- The function registry; `none` is a call without a namespace, which it does not have. -/
  callFunction : Option String → String → List Value → Except ExecuteError Value
  constant : String → String → Except ExecuteError Value
  /-- The variables in scope. -/
  scope : String → Except ExecuteError Value

namespace AstContext

variable (ctx : AstContext)

/-- The operators but `IS NONE` and `IS NOT NONE`, which look at their operand. -/
def evalUnary (op : UnaryOp) (v : Value) : Except ExecuteError Value :=
  match op, v with
  | .not, .bool b => .ok (.bool !b)
  | .not, .null => .ok .null
  | .not, v => .error (.typeError "Bool" (ctx.base.valueRepr v) "NOT")
  | .neg, .int i => .ok (.int (-i))
  | .neg, .float f => .ok (.float f.neg)
  | .neg, .decimal d => .ok (.decimal { d with negative := !d.negative })
  | .neg, .null => .ok .null
  | .neg, v => .error (.typeError "Int, Float, or Decimal" (ctx.base.valueRepr v) "unary minus")
  | .isNull, v => .ok (.bool v.isNull)
  | .isNotNull, v => .ok (.bool !v.isNull)
  | .isNone, _ => .ok (.bool false)
  | .isNotNone, _ => .ok (.bool true)

/-- `row.has_field`, or a whole path for a dotted name. -/
def hasField (row : Row) (name : String) : Bool :=
  if '.' ∈ name.toList then (resolveFieldValue row.doc.fields name).isSome
  else
    (row.scalarValue.isSome && (name = "$value" || row.scalarAlias = some name)) || name = "id" ||
      (row.doc.fields.lookup name).isSome

/-- `row.get_value` -/
def getValue (row : Row) : Value :=
  match row.scalarValue with
  | some scalar => scalar
  | none => (row.doc.fields.lookup "$value").getD (.object row.doc.fields)

/-- `navigate_value` -/
def navigateValue (value : Value) (path : String) : Value :=
  (splitChar '.' path).foldl (fun current segment => (current.getSegment segment).getD .null) value

/-- `eval_index`: negative indices count from the end. -/
def evalIndex (base index : Value) : Except ExecuteError Value :=
  let at? (arr : List Value) (i : Int) : Value :=
    let normalized := if i < 0 then arr.length + i else i
    if normalized < 0 then .null else (arr[normalized.toNat]?).getD .null
  match base with
  | .null => .ok .null
  | .array arr =>
    match index with
    | .int i => .ok (at? arr i.toInt)
    | .float f =>
      match f.index? with
      | some i => .ok (at? arr i)
      | none => .error (.typeError "Int" (ctx.base.valueTypeName index) "array index")
    | .null => .ok .null
    | _ => .error (.typeError "Int" (ctx.base.valueTypeName index) "array index")
  | _ => .error (.typeError "Array" (ctx.base.valueTypeName base) "indexing")

/-- A bound of a slice: `none` is the null that makes the whole slice null. -/
def sliceBound (op : String) (default : Int) : Option Value → Except ExecuteError (Option Int)
  | none => .ok (some default)
  | some (.int i) => .ok (some i.toInt)
  | some .null => .ok none
  | some v => .error (.typeError "Int" (ctx.base.valueTypeName v) op)

/-- `eval_slice`: both bounds are part of the slice. -/
def evalSlice (base : Value) (start stop : Option Value) : Except ExecuteError Value :=
  match base with
  | .null => .ok .null
  | .array arr =>
    let len : Int := arr.length
    let clamp (lo hi i : Int) : Int := max lo (min i hi)
    let fromEnd (i : Int) : Int := if i < 0 then len + i else i
    match ctx.sliceBound "slice start" 0 start with
    | .error e => .error e
    | .ok none => .ok .null
    | .ok (some start) =>
      match ctx.sliceBound "slice end" (len - 1) stop with
      | .error e => .error e
      | .ok none => .ok .null
      | .ok (some stop) =>
        let s := clamp 0 len (fromEnd start)
        let e := clamp (-1) (len - 1) (fromEnd stop)
        if e < s || len = 0 then .ok (.array [])
        else .ok (.array ((arr.drop s.toNat).take (e - s + 1).toNat))
  | _ => .error (.typeError "Array" (ctx.base.valueTypeName base) "slicing")

/-- `IN` an array. -/
def evalIn [Numerics] (val target : Value) (negated : Bool) : Except ExecuteError Value :=
  match target with
  | .array list =>
    if list.any fun item => !item.isNull && valuesEqual val item then .ok (.bool !negated)
    else if list.any (·.isNull) then .ok .null
    else .ok (.bool negated)
  | .null => .ok .null
  | _ => .error (.typeError "Array" (ctx.base.valueRepr target) "IN")

/-- Calls, of which two read the score or distance of the row. -/
def evalCall (row : Row) (ns : Option String) (name : String) (args : List Value) :
    Except ExecuteError Value :=
  if ns = some "fts" ∧ name = "score" then
    match args.head? with
    | some (.string scoreName) => .ok ((row.getField ("$score_" ++ scoreName)).getD .null)
    | _ => .ok ((row.getField "$score").getD .null)
  else if ns = some "vector" ∧ name = "distance" then
    .ok ((row.getField "$distance").getD .null)
  else ctx.callFunction ns name args

end AstContext

/-! ## Evaluation -/

section Eval

variable [Numerics] (ctx : AstContext) (row : Row)

/-- The error of an expression that has no value here. -/
def unexpected (kind : String) : Except ExecuteError Value := .error (.unexpectedExpression kind)

def SearchKind.name : SearchKind → String
  | .fts => "Fts"
  | .knn => "KnnSearch"

mutual

/-- `eval_expr` -/
def evalAst : AstExpr → Except ExecuteError Value
  | .literal v => .ok v
  | .field name => evalField ctx.base row name
  | .binaryOp left op right =>
    match evalAst left with
    | .error e => .error e
    | .ok l =>
      -- only `??` skips its right operand
      if op = .coalesce ∧ l.isTruthy then .ok l
      else
        match evalAst right with
        | .error e => .error e
        | .ok r => if op = .coalesce then .ok r else evalBinary ctx.base op l r
  | .unaryOp .isNone (.field name) => .ok (.bool !(AstContext.hasField row name))
  | .unaryOp .isNotNone (.field name) => .ok (.bool (AstContext.hasField row name))
  | .unaryOp .isNone _ => .ok (.bool false)
  | .unaryOp .isNotNone _ => .ok (.bool true)
  | .unaryOp op e =>
    match evalAst e with
    | .error err => .error err
    | .ok v => ctx.evalUnary op v
  | .functionCall ns name args =>
    match evalAsts args with
    | .error e => .error e
    | .ok args => ctx.evalCall row ns name args
  | .aggregate _ => unexpected "Aggregate"
  | .inList e list negated =>
    match evalAst e with
    | .error err => .error err
    | .ok val =>
      if val.isNull then .ok .null
      else
        match evalAstItems val false list with
        | .error err => .error err
        | .ok none => .ok .null
        | .ok (some found) => .ok (.bool (if negated then !found else found))
  | .inExpr e target negated =>
    match evalAst e with
    | .error err => .error err
    | .ok val =>
      if val.isNull then .ok .null
      else
        match evalAst target with
        | .error err => .error err
        | .ok target => ctx.evalIn val target negated
  | .valueRef none => .ok (AstContext.getValue row)
  | .valueRef (some path) => .ok (AstContext.navigateValue (AstContext.getValue row) path)
  | .array items =>
    match evalAsts items with
    | .error e => .error e
    | .ok values => .ok (.array values)
  | .object pairs =>
    match evalAstPairs pairs with
    | .error e => .error e
    | .ok entries => .ok (.object entries)
  | .index base i =>
    match evalAst base with
    | .error e => .error e
    | .ok base =>
      match evalAst i with
      | .error e => .error e
      | .ok i => ctx.evalIndex base i
  | .slice base start stop =>
    match evalAst base with
    | .error e => .error e
    | .ok base =>
      match evalAstOption start with
      | .error e => .error e
      | .ok start =>
        match evalAstOption stop with
        | .error e => .error e
        | .ok stop => ctx.evalSlice base start stop
  | .fieldAccess base field =>
    match evalAst base with
    | .error e => .error e
    | .ok base => evalFieldAccess ctx.base base field
  | .constant ns name => ctx.constant ns name
  | .variable name => ctx.scope name
  | .range start stop =>
    match evalAst start with
    | .error e => .error e
    | .ok start =>
      match evalAst stop with
      | .error e => .error e
      | .ok stop => .ok (.range start stop)
  | .search kind _ _ => unexpected kind.name
  | .deferred kind _ _ => unexpected kind

/-- The values of a list of expressions, up to the first error. -/
def evalAsts : List AstExpr → Except ExecuteError (List Value)
  | [] => .ok []
  | e :: es =>
    match evalAst e with
    | .error err => .error err
    | .ok v =>
      match evalAsts es with
      | .error err => .error err
      | .ok vs => .ok (v :: vs)

/-- The entries of an object; the last one of a key stays. -/
def evalAstPairs : List (String × AstExpr) → Except ExecuteError (List (String × Value))
  | [] => .ok []
  | (key, e) :: pairs =>
    match evalAst e with
    | .error err => .error err
    | .ok v =>
      match evalAstPairs pairs with
      | .error err => .error err
      | .ok entries =>
        .ok (if (entries.lookup key).isSome then entries else insertEntry entries key v)

def evalAstOption : Option AstExpr → Except ExecuteError (Option Value)
  | none => .ok none
  | some e =>
    match evalAst e with
    | .error err => .error err
    | .ok v => .ok (some v)

/-- The loop over the items of an `IN` list. -/
def evalAstItems (val : Value) (hasNull : Bool) : List AstExpr → Except ExecuteError (Option Bool)
  | [] => .ok (if hasNull then none else some false)
  | e :: es =>
    match evalAst e with
    | .error err => .error err
    | .ok item =>
      if item.isNull then evalAstItems val true es
      else if valuesEqual val item then .ok (some true)
      else evalAstItems val hasNull es

end

end Eval

/-! ## Walks (`ast/expr.rs`) -/

namespace AstExpr

mutual

/-- Some node of the expression meets the test. -/
def any (test : AstExpr → Bool) : AstExpr → Bool
  | .literal v => test (.literal v)
  | .field name => test (.field name)
  | .binaryOp left op right => test (.binaryOp left op right) || left.any test || right.any test
  | .unaryOp op e => test (.unaryOp op e) || e.any test
  | .functionCall ns name args => test (.functionCall ns name args) || anyIn test args
  | .aggregate call => test (.aggregate call)
  | .inList e list negated => test (.inList e list negated) || e.any test || anyIn test list
  | .inExpr e target negated => test (.inExpr e target negated) || e.any test || target.any test
  | .valueRef path => test (.valueRef path)
  | .array items => test (.array items) || anyIn test items
  | .object pairs => test (.object pairs) || anyInPairs test pairs
  | .index base i => test (.index base i) || base.any test || i.any test
  | .slice base start stop =>
    test (.slice base start stop) || base.any test || anyInOption test start ||
      anyInOption test stop
  | .fieldAccess base name => test (.fieldAccess base name) || base.any test
  | .constant ns name => test (.constant ns name)
  | .variable name => test (.variable name)
  | .range start stop => test (.range start stop) || start.any test || stop.any test
  | .search kind text children => test (.search kind text children) || anyIn test children
  | .deferred kind text children => test (.deferred kind text children) || anyIn test children

def anyIn (test : AstExpr → Bool) : List AstExpr → Bool
  | [] => false
  | e :: es => e.any test || anyIn test es

def anyInPairs (test : AstExpr → Bool) : List (String × AstExpr) → Bool
  | [] => false
  | (_, e) :: pairs => e.any test || anyInPairs test pairs

def anyInOption (test : AstExpr → Bool) : Option AstExpr → Bool
  | none => false
  | some e => e.any test

end

def isAggregate : AstExpr → Bool
  | .aggregate _ => true
  | _ => false

/-- `contains_aggregate` -/
def containsAggregate (e : AstExpr) : Bool := e.any isAggregate

end AstExpr

end StellarDb
