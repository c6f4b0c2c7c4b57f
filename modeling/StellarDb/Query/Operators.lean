import StellarDb.Document
import StellarDb.Encoding
import StellarDb.Query.Optimizer
import StellarDb.Lib.Pull

/-!
# StellarDb — operators (`query/execute/operators`)

A physical plan is built into operators that pull rows from one another. `openOp` opens them: it
fails where opening fails, and else gives what the root yields when it is pulled (`Pull`). Sort
and the aggregates read their whole input while they are opened; every other operator asks for a
row only when it is asked for one, so an error behind the last row of a `LIMIT` is never met.

`TableScanOp` keeps a chunk and a cursor; what it yields is its `next` pulled again and again.
-/

namespace StellarDb

open Keyspaces Pulling

/-! ## Clauses (`query/ast`) -/

inductive OrderDirection where
  | asc
  | desc
  deriving DecidableEq, Repr

structure OrderItem (Ω : Type) where
  expr : Expr Ω
  direction : OrderDirection

structure ProjectionItem (Ω : Type) where
  expr : Expr Ω
  aliasName : Option String

inductive Projection (Ω : Type) where
  | all
  | items (items : List (ProjectionItem Ω))

inductive AggregateFunction where
  | count | sum | avg | min | max
  deriving DecidableEq, Repr

inductive AggregateArg where
  | wildcard
  | field (name : String)
  deriving DecidableEq, Repr

/-- A resolved aggregate function call. -/
structure ResolvedAggregate where
  function : AggregateFunction
  arg : AggregateArg
  aliasName : String
  distinct : Bool
  deriving DecidableEq, Repr

/-- The clauses of a plan. -/
inductive Clause (Ω : Type) where
  | projection (p : Projection Ω)
  | order (items : List (OrderItem Ω))
  | aggregates (as : List ResolvedAggregate)

/-- Texts of values, from their `Display` and `Debug` instances. -/
class ValueText where
  display : Value → String
  debug : Value → String
  /-- `Debug` of a `Vec<u8>` -/
  debugBytes : Bytes → String

/-- A stand-in, for runs on values that are serialized without either. -/
@[reducible] def ValueText.standIn : ValueText where
  display _ := ""
  debug _ := ""
  debugBytes _ := ""

/-- What an expression of one of the other kinds is to the projection. -/
structure ExprKinds (Ω : Type) where
  /-- `Expr::Aggregate` -/
  isAggregate : Ω → Bool
  /-- `expr_has_subquery` or `expr_has_traversal` -/
  isDeferred : Ω → Bool
  /-- `expr_display_name` -/
  displayName : Ω → String

/-! ## Order of values (`operators/accumulator.rs`, `operators/sort.rs`) -/

namespace Value

def typePriority : Value → Nat
  | .null => 0
  | .bool _ => 1
  | .int _ | .float _ | .decimal _ => 2
  | .string _ => 3
  | .array _ => 4
  | .object _ => 5
  | .reference _ => 6
  | .datetime _ => 7
  | .duration _ => 8
  | .bytes _ => 9
  | .range _ _ => 10

def isNumeric : Value → Bool
  | .int _ | .float _ | .decimal _ => true
  | _ => false

variable [Numerics]

/-- `Value::partial_cmp` on numbers. -/
def numericCmp : Value → Value → Option Ordering
  | .int a, .int b => some (compare a.toInt b.toInt)
  | .float a, .float b => a.partialCmp b
  | .decimal a, .decimal b => some (compare a.toRat b.toRat)
  | a, b =>
    match a.asDecimal, b.asDecimal with
    | some a, some b => some (compare a.toRat b.toRat)
    | _, _ => none

/-- `compare_value_inner`: by kind, then by value where the kind has an order. -/
def compareInner (a b : Value) : Ordering :=
  if a.typePriority ≠ b.typePriority then compare a.typePriority b.typePriority
  else if a.isNumeric && b.isNumeric then (numericCmp a b).getD .eq
  else
    match a, b with
    | .bool a, .bool b => compare a b
    | .string a, .string b => compare (utf8 a) (utf8 b)
    | _, _ => .eq

end Value

/-- Compare sort keys, each in its direction. -/
def compareKeys [Numerics] : List OrderDirection → List Value → List Value → Ordering
  | dir :: dirs, a :: as, b :: bs =>
    let ord := match dir with
      | .asc => a.compareInner b
      | .desc => (a.compareInner b).swap
    if ord ≠ .eq then ord else compareKeys dirs as bs
  | _, _, _ => .eq

/-- `sort_by`, which is stable. -/
def sortByKeys {α : Type} [Numerics] (dirs : List OrderDirection) (rows : List (α × List Value)) :
    List (α × List Value) :=
  rows.insertionSort fun a b => compareKeys dirs a.2 b.2 ≠ .gt

/-! ## Keys for duplicates -/

section Keys

variable [External] [ValueText]

/-- Serialize a value to a string for use as a hash key. -/
def serializeValue : Value → String
  | .null => "null"
  | .bool b => toString b
  | .int n => toString n.toInt
  | .float f => ValueText.display (.float f)
  | .decimal d => External.decimalToString d
  | .string s => "\"" ++ s ++ "\""
  | .array elems => ValueText.debug (.array elems)
  | .object entries => ValueText.debug (.object entries)
  | .reference id => "ref:" ++ id
  | .datetime ms => "datetime:" ++ toString ms.toInt
  | .duration ns => "duration:" ++ toString ns.toNat
  | .bytes b => "bytes:" ++ ValueText.debugBytes b
  | .range start stop =>
    "range:" ++ ValueText.display start ++ ".." ++ ValueText.display stop

/-- The projected fields of a row, without its id. -/
def rowKey (row : Row) : String :=
  match row.scalarValue with
  | some scalar => "$scalar:" ++ serializeValue scalar
  | none =>
    let sorted := row.doc.fields.insertionSort fun a b => (compare (utf8 a.1) (utf8 b.1)).isLE
    String.intercalate "|" (sorted.map fun kv => kv.1 ++ ":" ++ serializeValue kv.2)

end Keys

/-- A scalar row. -/
def Row.scalar (value : Value) : Row := ⟨⟨"", [], by decide⟩, some value, none⟩

/-! ## Projection (`operators/project.rs`) -/

section Project

variable {Ω : Type} [ValueText] (kinds : ExprKinds Ω)

/-- Some expression of another kind inside meets the test. -/
def Expr.anyOther (test : Ω → Bool) : Expr Ω → Bool
  | .binaryOp left _ right => left.anyOther test || right.anyOther test
  | .inList e list _ => e.anyOther test || anyOtherIn list
  | .search _ e | .other e => test e
  | .literal _ | .field _ => false
where
  anyOtherIn : List (Expr Ω) → Bool
    | [] => false
    | e :: es => e.anyOther test || anyOtherIn es

def BinaryOp.symbol : BinaryOp → String
  | .add => "+"
  | .sub => "-"
  | .mul => "*"
  | .div => "/"
  | .eq => "="
  | .ne => "!="
  | .gt => ">"
  | .gte => ">="
  | .lt => "<"
  | .lte => "<="
  | .and => "AND"
  | .or => "OR"
  | .coalesce => "??"

/-- `expr_display_name`, the column of an expression without an alias. -/
def exprDisplayName : Expr Ω → String
  | .field f => f
  | .literal v => ValueText.debug v
  | .binaryOp left op right =>
    exprDisplayName left ++ " " ++ op.symbol ++ " " ++ exprDisplayName right
  | .inList _ _ _ => "in_expr"
  | .search _ e => kinds.displayName e
  | .other e => kinds.displayName e

/-- Aggregates, and expressions that are evaluated after the plan has run, are left out. -/
def isProjected : Expr Ω → Bool
  | .other e => !(kinds.isAggregate e || kinds.isDeferred e)
  | e => !e.anyOther kinds.isDeferred

variable [Numerics] (ctx : EvalContext Ω)

/-- A field of a new document. The values of the source have no map with a key twice, so the
error stands for nothing there. -/
def storeField (doc : Document) (name : String) (value : Value) : Except ExecuteError Document :=
  if h : value.wf = true then .ok (doc.insertField name value h)
  else .error (.other "malformed value")

/-- One item of a projection. `id` is in the document's id already, unless it is renamed. -/
def projectItem (row : Row) (doc : Document) (item : ProjectionItem Ω) :
    Except ExecuteError Document :=
  if isProjected kinds item.expr then
    let name := item.aliasName.getD (exprDisplayName kinds item.expr)
    if name = "id" && item.aliasName.isNone then .ok doc
    else
      match evalExpr ctx row item.expr with
      | .error e => .error e
      | .ok value => storeField doc name value
  else .ok doc

def projectItems (row : Row) : Document → List (ProjectionItem Ω) → Except ExecuteError Document
  | doc, [] => .ok doc
  | doc, item :: items =>
    match projectItem kinds ctx row doc item with
    | .error e => .error e
    | .ok doc => projectItems row doc items

/-- The row `ProjectOp` makes of a row. -/
def projectRow (p : Projection Ω) (row : Row) : Except ExecuteError Row :=
  match p with
  | .all => .ok (if row.scalarValue.isSome then row else .fromDoc row.doc)
  | .items items => (projectItems kinds ctx row ⟨row.doc.id, [], by decide⟩ items).map .fromDoc

/-- A row with its sort keys. -/
def keyedRow (items : List (OrderItem Ω)) (row : Row) :
    Except ExecuteError (Row × List Value) :=
  (items.mapM fun item => evalExpr ctx row item.expr).map fun keys => (row, keys)

/-- The scalar row `ValueOp` makes of a row. -/
def valueRow (expr : Expr Ω) (row : Row) : Except ExecuteError Row :=
  (evalExpr ctx row expr).map .scalar

end Project

/-! ## Accumulators (`operators/accumulator.rs`) -/

/-- Arithmetic of sums, from `rust_decimal` and `f64`. -/
class Arithmetic where
  addDecimal : Decimal → Decimal → Decimal
  divDecimal : Decimal → Decimal → Decimal
  addF64 : F64 → F64 → F64
  divF64 : F64 → F64 → F64
  /-- `f64::from_str(&d.to_string())` -/
  f64OfDecimal : Decimal → Option F64

/-- A stand-in that adds decimals without fraction and knows nothing else. -/
@[reducible] def Arithmetic.standIn : Arithmetic where
  addDecimal a b := .ofInt64 (Int64.ofInt
    ((if a.negative then -(a.mantissa.val : Int) else a.mantissa.val) +
      (if b.negative then -(b.mantissa.val : Int) else b.mantissa.val)))
  divDecimal a _ := a
  addF64 a _ := a
  divF64 a _ := a
  f64OfDecimal _ := none

/-- The numeric kinds seen so far. -/
inductive NumericMode where
  | none | intOnly | decimal | float
  deriving DecidableEq, Repr

structure Accumulator where
  function : AggregateFunction
  distinct : Bool
  distinctValues : List String
  count : Nat
  sumFloat : F64
  sumDecimal : Decimal
  numericMode : NumericMode
  min : Option Value
  max : Option Value

namespace Accumulator

def new (function : AggregateFunction) (distinct : Bool) : Accumulator where
  function := function
  distinct := distinct
  distinctValues := []
  count := 0
  sumFloat := ⟨0⟩
  sumDecimal := .ofInt64 0
  numericMode := .none
  min := none
  max := none

/-- `COUNT(*)` counts every row. -/
def feedWildcard (acc : Accumulator) : Accumulator := { acc with count := acc.count + 1 }

section

variable [Arithmetic]

/-- Feed a numeric value; other kinds are passed over. -/
def feedNumeric (acc : Accumulator) : Value → Accumulator
  | .int n =>
    { acc with
      sumDecimal := Arithmetic.addDecimal acc.sumDecimal (.ofInt64 n)
      numericMode := if acc.numericMode = .none then .intOnly else acc.numericMode
      sumFloat := if acc.numericMode = .float then
        Arithmetic.addF64 acc.sumFloat (.ofInt n.toInt) else acc.sumFloat
      count := acc.count + 1 }
  | .decimal d =>
    { acc with
      sumDecimal := Arithmetic.addDecimal acc.sumDecimal d
      numericMode := if acc.numericMode = .float then .float else .decimal
      sumFloat := if acc.numericMode = .float then
        ((Arithmetic.f64OfDecimal d).map (Arithmetic.addF64 acc.sumFloat)).getD acc.sumFloat
        else acc.sumFloat
      count := acc.count + 1 }
  | .float f =>
    let sum := if acc.numericMode = .float then acc.sumFloat
      else (Arithmetic.f64OfDecimal acc.sumDecimal).getD ⟨0⟩
    { acc with
      numericMode := .float
      sumFloat := Arithmetic.addF64 sum f
      count := acc.count + 1 }
  | _ => acc

variable [Numerics]

/-- Feed a value that passed the check for repetitions. -/
def feedValue (acc : Accumulator) (value : Option Value) : Accumulator :=
  match acc.function, value with
  | _, none | .count, some .null | .min, some .null | .max, some .null => acc
  | .count, some _ => { acc with count := acc.count + 1 }
  | .sum, some v | .avg, some v => acc.feedNumeric v
  | .min, some v =>
    if acc.min.all fun current => v.compareInner current = .lt then { acc with min := some v }
    else acc
  | .max, some v =>
    if acc.max.all fun current => v.compareInner current = .gt then { acc with max := some v }
    else acc

/-- Feed a field of a row, `none` if the row does not have it. -/
def feed [External] [ValueText] (acc : Accumulator) (value : Option Value) : Accumulator :=
  if acc.distinct then
    match value with
    | none | some .null => acc
    | some v =>
      if serializeValue v ∈ acc.distinctValues then acc
      else feedValue { acc with distinctValues := serializeValue v :: acc.distinctValues } value
  else acc.feedValue value

theorem feed_distinct [External] [ValueText] (acc : Accumulator) {v : Value}
    (hdistinct : acc.distinct = true) (hv : v.isNull = false) : acc.feed (some v) =
      if serializeValue v ∈ acc.distinctValues then acc
      else feedValue { acc with distinctValues := serializeValue v :: acc.distinctValues }
        (some v) := by
  unfold feed
  rw [if_pos hdistinct]
  cases v with
  | null => cases hv
  | _ => rfl

/-- What is done with a value leaves the texts seen. -/
theorem feedValue_distinct (acc : Accumulator) (value : Option Value) :
    (acc.feedValue value).distinct = acc.distinct ∧
      (acc.feedValue value).distinctValues = acc.distinctValues := by
  have hnumeric : ∀ v, (acc.feedNumeric v).distinct = acc.distinct ∧
      (acc.feedNumeric v).distinctValues = acc.distinctValues := by
    intro v
    cases v <;> exact ⟨rfl, rfl⟩
  unfold feedValue
  split
  iterate 4 exact ⟨rfl, rfl⟩
  · exact ⟨rfl, rfl⟩
  · exact hnumeric _
  · exact hnumeric _
  · split <;> exact ⟨rfl, rfl⟩
  · split <;> exact ⟨rfl, rfl⟩

omit [Numerics] in
def result (acc : Accumulator) : Value :=
  match acc.function with
  | .count =>
    .int (Int64.ofNat (if acc.distinct then acc.distinctValues.length else acc.count))
  | .sum =>
    if acc.count = 0 then .null
    else
      match acc.numericMode with
      | .none => .null
      | .intOnly | .decimal => .decimal acc.sumDecimal
      | .float => .float acc.sumFloat
  | .avg =>
    if acc.count = 0 then .null
    else
      match acc.numericMode with
      | .none => .null
      | .intOnly | .decimal =>
        .decimal (Arithmetic.divDecimal acc.sumDecimal (.ofInt64 (Int64.ofNat acc.count)))
      | .float => .float (Arithmetic.divF64 acc.sumFloat (.ofInt acc.count))
  | .min => acc.min.getD .null
  | .max => acc.max.getD .null

end

end Accumulator

section Aggregates

variable [External] [ValueText] [Arithmetic] [Numerics]

/-- Feed a row to an aggregate. -/
def ResolvedAggregate.feed (agg : ResolvedAggregate) (acc : Accumulator) (row : Row) :
    Accumulator :=
  match agg.arg with
  | .wildcard => acc.feedWildcard
  | .field f => acc.feed (row.getField f)

/-- The value of an aggregate over rows. -/
def ResolvedAggregate.value (agg : ResolvedAggregate) (rows : List Row) : Value :=
  (rows.foldl agg.feed (.new agg.function agg.distinct)).result

/-- Add the columns of the aggregates to a row. -/
def storeAggregates (rows : List Row) :
    Document → List ResolvedAggregate → Except ExecuteError Document
  | doc, [] => .ok doc
  | doc, agg :: aggs =>
    match storeField doc agg.aliasName (agg.value rows) with
    | .error e => .error e
    | .ok doc => storeAggregates rows doc aggs

/-- `AggregateOp`: one row with a column for each aggregate. -/
def aggregateOp (aggs : List ResolvedAggregate) (rows : List Row) : Except ExecuteError (List Row) :=
  (storeAggregates rows ⟨"", [], by decide⟩ aggs).map fun doc => [.fromDoc doc]

/-- The values of the group fields of a row. -/
def groupValues (fields : List String) (row : Row) : List Value :=
  fields.map fun f => (row.getField f).getD .null

/-- The group fields' values as the key of a map. -/
def groupKey (values : List Value) : String := String.intercalate "|" (values.map serializeValue)

/-- The keys of the groups, in the order of their first rows. -/
def groupKeys (fields : List String) (rows : List Row) : List String :=
  (rows.map fun row => groupKey (groupValues fields row)).reverse.dedup.reverse

def storeFields : Document → List (String × Value) → Except ExecuteError Document
  | doc, [] => .ok doc
  | doc, (field, value) :: rest =>
    match storeField doc field value with
    | .error e => .error e
    | .ok doc => storeFields doc rest

/-- The row of a group: the group fields of its first row, and the aggregates. -/
def groupRow (fields : List String) (aggs : List ResolvedAggregate) (group : List Row) :
    Except ExecuteError Row :=
  let values := ((group.head?).map (groupValues fields)).getD []
  match storeFields ⟨"", [], by decide⟩ (fields.zip values) with
  | .error e => .error e
  | .ok doc => (storeAggregates group doc aggs).map .fromDoc

/-- `GroupAggregateOp`: one row for each group. -/
def groupAggregateOp (fields : List String) (aggs : List ResolvedAggregate) (rows : List Row) :
    Except ExecuteError (List Row) :=
  (groupKeys fields rows).mapM fun key =>
    groupRow fields aggs (rows.filter fun row => groupKey (groupValues fields row) = key)

end Aggregates

/-! ## Table scan (`operators/scan.rs`) -/

/-- Chunk size for streaming table scans. -/
def scanChunkSize : Nat := 1000

structure TableScanOp where
  limit : Option Nat
  chunk : List Document
  chunkPos : Nat
  cursor : Option String
  exhausted : Bool
  totalYielded : Nat

/-- `list_documents_paged` on one collection. -/
abbrev DocumentPages := Option String → Nat → Except StorageError (List Document × Option String)

namespace TableScanOp

variable (pages : DocumentPages)

/-- Fetch the next chunk of documents from storage. -/
def fetchChunk (op : TableScanOp) : Except ExecuteError TableScanOp :=
  let remaining := (op.limit.map (· - op.totalYielded)).getD scanChunkSize
  let fetchSize := min remaining scanChunkSize
  if fetchSize = 0 then .ok { op with exhausted := true }
  else
    match pages op.cursor fetchSize with
    | .error e => .error (.storage e)
    | .ok (docs, nextCursor) =>
      .ok { op with
        exhausted := nextCursor.isNone
        cursor := nextCursor
        chunk := docs
        chunkPos := 0 }

def «open» (limit : Option Nat) : Except ExecuteError TableScanOp :=
  fetchChunk pages ⟨limit, [], 0, none, false, 0⟩

/-- Hand out the document at the position. -/
def handOut (op : TableScanOp) : Option (Row × TableScanOp) :=
  op.chunk[op.chunkPos]?.map fun doc =>
    (.fromDoc doc, { op with chunkPos := op.chunkPos + 1, totalYielded := op.totalYielded + 1 })

def next (op : TableScanOp) : Except ExecuteError (Option (Row × TableScanOp)) :=
  if op.limit.any fun limit => limit ≤ op.totalYielded then .ok none
  else if op.chunk.length ≤ op.chunkPos then
    if op.exhausted then .ok none
    else
      match fetchChunk pages op with
      | .error e => .error e
      | .ok op => .ok op.handOut
  else .ok op.handOut

end TableScanOp

/-! ## Operator trees (`execute/builder.rs`) -/

/-- What the operators read. -/
structure OperatorContext (Ω : Type) where
  eval : EvalContext Ω
  kinds : ExprKinds Ω
  listDocumentsPaged : String → DocumentPages
  indexDocs : String → IndexLookup → Except ExecuteError (List Document)
  ftsRows : String → Ω → Option Nat → Except ExecuteError (List Row)
  knnRows : String → Ω → Except ExecuteError (List Row)
  /-- How often a table scan is pulled at most. -/
  fuel : Nat

section Open

variable {Ω : Type} [External] [ValueText] [Arithmetic] [Numerics] (ctx : OperatorContext Ω)

/-- A plan that the optimizer does not make. -/
def notPlanned : ExecuteError := .other "clause of another operator"

/-- `SortOp`: read all rows with their keys, then sort. -/
def sortOp (items : List (OrderItem Ω)) (input : Pull ExecuteError Row) :
    Except ExecuteError (Pull ExecuteError Row) :=
  ((input.mapM (keyedRow ctx.eval items)).collect).map fun rows =>
    .ofList ((sortByKeys (items.map (·.direction)) rows).map (·.1))

/-- `ValueOp`, which removes repetitions by itself. -/
def valueOp (expr : Expr Ω) (distinct : Bool) (input : Pull ExecuteError Row) :
    Pull ExecuteError Row :=
  let values := input.mapM (valueRow ctx.eval expr)
  if distinct then values.dedupBy (fun row => (row.scalarValue.map serializeValue).getD "") []
  else values

mutual

/-- Open an operator tree. -/
def openOp : PhysicalOp Ω (Clause Ω) → Except ExecuteError (Pull ExecuteError Row)
  | .tableScan collection limit =>
    (TableScanOp.open (ctx.listDocumentsPaged collection) limit).map
      (Pull.unfold (TableScanOp.next (ctx.listDocumentsPaged collection)) ctx.fuel)
  | .keyLookup collection key =>
    match ctx.eval.getDocument collection key with
    | .error e => .error (.storage e)
    | .ok doc => .ok (.ofList (doc.toList.map .fromDoc))
  | .indexScan collection _ lookup =>
    (ctx.indexDocs collection lookup).map fun docs => .ofList (docs.map .fromDoc)
  | .inMemoryScan rows => .ok (.ofList rows)
  | .ftsScan collection search limit => (ctx.ftsRows collection search limit).map .ofList
  | .knnScan collection search => (ctx.knnRows collection search).map .ofList
  | .union inputs needsDedup =>
    (openInputs inputs).map fun rows =>
      if needsDedup then rows.dedupBy (fun row => row.doc.id) [] else rows
  | .filter predicate input => (openOp input).map (·.filterM (evalFilter ctx.eval predicate))
  | .project (.projection p) input =>
    (openOp input).map (·.mapM (projectRow ctx.kinds ctx.eval p))
  | .limit count input => (openOp input).map (·.take count)
  | .offset count input => (openOp input).map (·.drop count)
  | .sort (.order items) input =>
    match openOp input with
    | .error e => .error e
    | .ok rows => sortOp ctx items rows
  | .aggregate (.aggregates aggs) input =>
    match openOp input with
    | .error e => .error e
    | .ok rows =>
      match rows.collect with
      | .error e => .error e
      | .ok rows => (aggregateOp aggs rows).map .ofList
  | .groupAggregate fields (.aggregates aggs) input =>
    match openOp input with
    | .error e => .error e
    | .ok rows =>
      match rows.collect with
      | .error e => .error e
      | .ok rows => (groupAggregateOp fields aggs rows).map .ofList
  | .distinct input => (openOp input).map (·.dedupBy rowKey [])
  | .value expr distinct input => (openOp input).map (valueOp ctx expr distinct)
  | _ => .error notPlanned

/-- Open all inputs of a union, to be read one after the other. -/
def openInputs : List (PhysicalOp Ω (Clause Ω)) → Except ExecuteError (Pull ExecuteError Row)
  | [] => .ok .done
  | input :: inputs =>
    match openOp input with
    | .error e => .error e
    | .ok rows =>
      match openInputs inputs with
      | .error e => .error e
      | .ok rest => .ok (rows.append rest)

end

/-- `collect_all`: open a plan and pull all its rows. -/
def collectAll (plan : PhysicalOp Ω (Clause Ω)) : Except ExecuteError (List Row) :=
  match openOp ctx plan with
  | .error e => .error e
  | .ok rows => rows.collect

end Open

end StellarDb
