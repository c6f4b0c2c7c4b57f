import StellarDb.Query.Predicate

/-!
# StellarDb — the optimizer (`query/optimize/index.rs`, `query/optimize/optimizer.rs`)

`optimize` turns a logical plan into physical operators. Scans go through the access paths of
`Query.Predicate`; aggregates go through the older analysis of `index.rs`, which looks for a
`BETWEEN` pair, then for a compound index, then for one indexed field, and for a union of
lookups under a top-level `OR`. Updates and deletes scan the table.

One step of the analysis walks a hash map of range bounds. Its order is a parameter
(`HashOrder`), so a theorem over all orders covers every run.
-/

namespace StellarDb

/-! ## Plans (`query/plan`) -/

/-- Physical operators. `Φ` stands for the clauses that no access decision depends on:
projections, sort keys, aggregates, assignments. -/
inductive PhysicalOp (Ω Φ : Type) where
  | tableScan (collection : String) (limit : Option Nat)
  | keyLookup (collection key : String)
  | indexScan (collection : String) (index : IndexRef) (lookup : IndexLookup)
  | inMemoryScan (rows : List Row)
  | ftsScan (collection : String) (search : Ω) (limit : Option Nat)
  | knnScan (collection : String) (search : Ω)
  | union (inputs : List (PhysicalOp Ω Φ)) (needsDedup : Bool)
  | filter (predicate : Expr Ω) (input : PhysicalOp Ω Φ)
  | project (fields : Φ) (input : PhysicalOp Ω Φ)
  | limit (count : Nat) (input : PhysicalOp Ω Φ)
  | offset (count : Nat) (input : PhysicalOp Ω Φ)
  | sort (items : Φ) (input : PhysicalOp Ω Φ)
  | aggregate (aggregates : Φ) (input : PhysicalOp Ω Φ)
  | groupAggregate (groupFields : List String) (aggregates : Φ) (input : PhysicalOp Ω Φ)
  | distinct (input : PhysicalOp Ω Φ)
  | value (expr : Expr Ω) (distinct : Bool) (input : PhysicalOp Ω Φ)
  | update (collection : String) (assignments : Φ) (input : PhysicalOp Ω Φ)
  | delete (collection : String) (input : PhysicalOp Ω Φ)
  /-- Insert, create, upsert and delete edge, which have no input. -/
  | write (clauses : Φ)

/-- What a `SELECT` does with the rows it has found. -/
structure SelectClauses (Ω Φ : Type) where
  projection : Φ
  order : Option Φ
  limit : Option Nat
  offset : Option Nat
  distinct : Bool
  valueMode : Bool
  valueExpr : Option (Expr Ω)

inductive LogicalPlan (Ω Φ : Type) where
  | scan (collection : String) (key : Option String) (filter : Option (Expr Ω))
      (clauses : SelectClauses Ω Φ)
  | aggregate (collection : String) (filter : Option (Expr Ω)) (aggregates : Φ)
      (postProjection : Option Φ)
  | groupAggregate (collection : String) (filter : Option (Expr Ω)) (groupFields : List String)
      (aggregates : Φ) (postProjection : Option Φ) (order : Option Φ)
  | inMemoryScan (rows : List Row) (filter : Option (Expr Ω)) (clauses : SelectClauses Ω Φ)
  | update (collection : String) (key : Option String) (filter : Option (Expr Ω))
      (assignments : Φ)
  | delete (collection : String) (key : Option String) (filter : Option (Expr Ω))
  | write (clauses : Φ)

section Optimizer

variable {Ω Φ : Type}

/-! ## Index analysis (`optimize/index.rs`) -/

inductive SkipReason where
  | noIndex
  | orCondition
  | notSupported
  deriving DecidableEq, Repr

/-- Result of analyzing a predicate for index usage. -/
inductive IndexChoice (Ω : Type) where
  | use (indexRef : IndexRef) (lookup : IndexLookup) (remaining : Option (Expr Ω))
  | skip (reason : SkipReason)

/-- Extract field name, operator and value from a simple comparison. -/
def asSimpleCondition : Expr Ω → Option (String × BinaryOp × Value)
  | .binaryOp (.field f) op (.literal v) => some (f, op, v)
  | _ => none

/-- The lookup of a simple comparison, for the operators an index answers. -/
def simpleLookup (field : String) (op : BinaryOp) (value : Value) : Option IndexLookup :=
  match op with
  | .eq => some (.eq field value)
  | .gt => some (.range field .gt value)
  | .gte => some (.range field .gte value)
  | .lt => some (.range field .lt value)
  | .lte => some (.range field .lte value)
  | _ => none

def analyzeSimple (indexes : List IndexDef) (collection field : String) (op : BinaryOp)
    (value : Value) : IndexChoice Ω :=
  match findIndexForField indexes field with
  | some indexFields =>
    match simpleLookup field op value with
    | some lookup => .use ⟨collection, indexFields⟩ lookup none
    | none => .skip .notSupported
  | none => .skip .noIndex

def analyzeSingleField (indexes : List IndexDef) (collection : String) :
    Expr Ω → IndexChoice Ω
  | .binaryOp (.field field) op (.literal value) =>
    analyzeSimple indexes collection field op value
  | .binaryOp left .and right =>
    -- when one side uses an index, the other side joins the remaining predicate
    match analyzeSingleField indexes collection left with
    | .use indexRef lookup remaining =>
      .use indexRef lookup (some (match remaining with
        | some rem => .binaryOp rem .and right
        | none => right))
    | .skip _ =>
      match analyzeSingleField indexes collection right with
      | .use indexRef lookup remaining =>
        .use indexRef lookup (some (match remaining with
          | some rem => .binaryOp left .and rem
          | none => left))
      | .skip reason => .skip reason
  | .binaryOp _ .or _ => .skip .orCondition
  | _ => .skip .notSupported

/-- Extract all equality conditions from an AND expression. -/
def collectEqualityConditions : Expr Ω → List (String × Value)
  | .binaryOp (.field field) .eq (.literal value) => [(field, value)]
  | .binaryOp left .and right =>
    collectEqualityConditions left ++ collectEqualityConditions right
  | _ => []

/-- An equality on one of the fields. -/
def isEqualityOn (usedFields : List String) : Expr Ω → Bool
  | .binaryOp (.field field) .eq (.literal _) => field ∈ usedFields
  | _ => false

/-- Remove the equality conditions on the used fields and return what is left. -/
def computeCompoundRemaining (usedFields : List String) : Expr Ω → Option (Expr Ω)
  | .binaryOp left .and right =>
    match computeCompoundRemaining usedFields left,
      computeCompoundRemaining usedFields right with
    | none, none => none
    | some l, none => some l
    | none, some r => some r
    | some l, some r => some (.binaryOp l .and r)
  | e => if isEqualityOn usedFields e then none else some e

structure RangeBound where
  field : String
  value : Value
  inclusive : Bool
  isLower : Bool

/-- The bound a comparison sets. -/
def rangeBound (field : String) (op : BinaryOp) (value : Value) : Option RangeBound :=
  match op with
  | .gt => some ⟨field, value, false, true⟩
  | .gte => some ⟨field, value, true, true⟩
  | .lt => some ⟨field, value, false, false⟩
  | .lte => some ⟨field, value, true, false⟩
  | _ => none

/-- Collect range bounds from an AND expression. -/
def collectRangeBounds : Expr Ω → List RangeBound
  | .binaryOp (.field field) op (.literal value) => (rangeBound field op value).toList
  | .binaryOp left .and right => collectRangeBounds left ++ collectRangeBounds right
  | _ => []

/-- The order in which a hash map hands out its keys. -/
structure HashOrder where
  iter : List String → List String
  perm : ∀ keys, (iter keys).Perm keys

/-- Keys come out as they went in. -/
def HashOrder.insertion : HashOrder := ⟨id, fun _ => .refl _⟩

/-- The first lower and the first upper bound on a field. -/
def boundsOn (bounds : List RangeBound) (field : String) : Option (RangeBound × RangeBound) :=
  match (bounds.filter (·.field = field)).find? (·.isLower),
    (bounds.filter (·.field = field)).find? (!·.isLower) with
  | some lower, some upper => some (lower, upper)
  | _, _ => none

/-- Detect the BETWEEN pattern; the pair is all that is kept of the predicate. -/
def tryRangeBetween (ord : HashOrder) (indexes : List IndexDef) (collection : String)
    (predicate : Expr Ω) : Option (IndexChoice Ω) :=
  let bounds := collectRangeBounds predicate
  (ord.iter (bounds.map (·.field)).dedup).findSome? fun field =>
    match boundsOn bounds field, findIndexForField indexes field with
    | some (lower, upper), some indexFields =>
      some (.use ⟨collection, indexFields⟩
        (.rangeBetween field lower.value lower.inclusive upper.value upper.inclusive) none)
    | _, _ => none

/-- The ordered pairs of two different positions. -/
def positionPairs (n : Nat) : List (Nat × Nat) :=
  ((List.range n) ×ˢ (List.range n)).filter fun ij => ij.1 ≠ ij.2

/-- The compound index for the first pair of equality fields that leads one. -/
def findPairIndex (indexes : List IndexDef) (fields : List String) : Option (List String) :=
  (positionPairs fields.length).findSome? fun ij =>
    findCompoundIndex indexes [fields.getD ij.1 "", fields.getD ij.2 ""]

/-- Analyze a filter expression to find index usage opportunities. -/
def analyzeForIndex (ord : HashOrder) (indexes : List IndexDef) (collection : String)
    (predicate : Expr Ω) : IndexChoice Ω :=
  match predicate with
  | .binaryOp _ .and _ =>
    match tryRangeBetween ord indexes collection predicate with
    | some choice => choice
    | none =>
      let conditions := collectEqualityConditions predicate
      match findPairIndex indexes (conditions.map (·.1)) with
      | some indexFields =>
        .use ⟨collection, indexFields⟩ (.compoundEq (fillFields conditions indexFields))
          (computeCompoundRemaining indexFields predicate)
      | none => analyzeSingleField indexes collection predicate
  | _ => analyzeSingleField indexes collection predicate

/-- Flatten nested OR into a list of branches. -/
def flattenOr : Expr Ω → List (Expr Ω)
  | .binaryOp left .or right => flattenOr left ++ flattenOr right
  | e => [e]

/-- The lookups of a top-level OR, if every branch can use an index. A branch's remaining
predicate is not kept. -/
def analyzeOrForUnion (ords : Nat → HashOrder) (indexes : List IndexDef) (collection : String)
    (expr : Expr Ω) : Option (List (IndexRef × IndexLookup)) :=
  match expr with
  | .binaryOp _ .or _ =>
    (flattenOr expr).zipIdx.mapM fun b =>
      match analyzeForIndex (ords b.2) indexes collection b.1 with
      | .use indexRef lookup _ => some (indexRef, lookup)
      | .skip _ => none
  | _ => none

/-- The same check as that of the access paths. -/
def computeNeedsDedup (branches : List (IndexRef × IndexLookup)) : Bool :=
  computeUnionNeedsDedup branches

/-- Extract the search expressions of one kind from AND-connected predicates. -/
def extractSearchFromAnd (kind : SearchKind) : Expr Ω → List Ω × Option (Expr Ω)
  | .search kind' e => if kind' = kind then ([e], none) else ([], some (.search kind' e))
  | .binaryOp left .and right =>
    let l := extractSearchFromAnd kind left
    let r := extractSearchFromAnd kind right
    (l.1 ++ r.1,
      match l.2, r.2 with
      | none, none => none
      | some l, none => some l
      | none, some r => some r
      | some l, some r => some (.binaryOp l .and r))
  | e => ([], some e)

def analyzeForKnn (predicate : Expr Ω) : List Ω × Option (Expr Ω) :=
  extractSearchFromAnd .knn predicate

def analyzeForFts (predicate : Expr Ω) : List Ω × Option (Expr Ω) :=
  extractSearchFromAnd .fts predicate

/-! ## The optimizer (`optimize/optimizer.rs`) -/

/-- The path with the lowest score, the first one among equals. -/
def selectBest : List (AccessPath Ω) → AccessPath Ω
  | [] => .tableScan none
  | path :: paths => paths.foldl (fun best p => if p.score < best.score then p else best) path

/-- The operator of an access path. -/
def AccessMethod.toOp (collection : String) : AccessMethod → PhysicalOp Ω Φ
  | .tableScan => .tableScan collection none
  | .indexScan index lookup => .indexScan collection index lookup
  | .union branches needsDedup =>
    .union (branches.map fun b => .indexScan collection b.1 b.2) needsDedup

/-- Filter when there is something to filter by. -/
def withFilter (input : PhysicalOp Ω Φ) : Option (Expr Ω) → PhysicalOp Ω Φ
  | some predicate => .filter predicate input
  | none => input

def applyDistinctValue (input : PhysicalOp Ω Φ) (distinct valueMode : Bool)
    (valueExpr : Option (Expr Ω)) : PhysicalOp Ω Φ :=
  match valueMode, valueExpr with
  | true, some expr => .value expr distinct input
  | _, _ => if distinct then .distinct input else input

def withOrder (input : PhysicalOp Ω Φ) : Option Φ → PhysicalOp Ω Φ
  | some items => .sort items input
  | none => input

/-- Sort while all fields are accessible, then project or take the value. -/
def applyProjectionAndOrder (input : PhysicalOp Ω Φ) (c : SelectClauses Ω Φ) :
    PhysicalOp Ω Φ :=
  if c.valueMode then
    applyDistinctValue (withOrder input c.order) c.distinct true c.valueExpr
  else applyDistinctValue (.project c.projection (withOrder input c.order)) c.distinct false none

/-- Offset after sorting, then limit. -/
def applyOffsetAndLimit (input : PhysicalOp Ω Φ) (c : SelectClauses Ω Φ) : PhysicalOp Ω Φ :=
  let skipped := match c.offset with
    | some count => .offset count input
    | none => input
  match c.limit with
  | some count => .limit count skipped
  | none => skipped

/-- The optimizer's context: index definitions by collection, and hash orders. -/
structure Optimizer where
  indexes : String → List IndexDef
  orders : Nat → HashOrder

namespace Optimizer

variable (opt : Optimizer)

/-- Optimize a predicate to the best access path. -/
def optimizePredicate (predicate : Expr Ω) (collection : String) :
    PhysicalOp Ω Φ × Option (Expr Ω) :=
  let parts := classifyAll (opt.indexes collection) (extractConjuncts predicate)
  let best := selectBest (generateAccessPaths (opt.indexes collection) collection parts)
  (best.method.toOp collection, best.remainingFilter)

/-- The access to a filtered scan: a search scan if there is one, else the best path. -/
def scanAccess (collection : String) (predicate : Expr Ω) (limit : Option Nat) :
    PhysicalOp Ω Φ :=
  match analyzeForKnn predicate, analyzeForFts predicate with
  | (knn :: _, remaining), _ => withFilter (.knnScan collection knn) remaining
  | _, (fts :: _, remaining) => withFilter (.ftsScan collection fts limit) remaining
  | _, _ =>
    let (baseOp, remaining) := opt.optimizePredicate predicate collection
    withFilter baseOp remaining

/-- The input of `Aggregate` and `GroupAggregate`. -/
def aggregateInput (collection : String) : Option (Expr Ω) → PhysicalOp Ω Φ
  | some predicate =>
    match analyzeOrForUnion opt.orders (opt.indexes collection) collection predicate with
    | some branches =>
      .union (branches.map fun b => .indexScan collection b.1 b.2) (computeNeedsDedup branches)
    | none =>
      match analyzeForIndex (opt.orders 0) (opt.indexes collection) collection predicate with
      | .use indexRef lookup remaining =>
        withFilter (.indexScan collection indexRef lookup) remaining
      | .skip _ => .filter predicate (.tableScan collection none)
  | none => .tableScan collection none

/-- The input of `Update` and `Delete`. -/
def dmlInput (collection : String) (key : Option String) (filter : Option (Expr Ω)) :
    PhysicalOp Ω Φ :=
  match key with
  | some key => .keyLookup collection key
  | none => withFilter (.tableScan collection none) filter

/-- Project when there is a post-aggregation projection. -/
def withProjection (input : PhysicalOp Ω Φ) : Option Φ → PhysicalOp Ω Φ
  | some fields => .project fields input
  | none => input

/-- Main entry point: logical plan to physical plan. -/
def optimize : LogicalPlan Ω Φ → PhysicalOp Ω Φ
  | .scan collection (some key) filter c =>
    applyOffsetAndLimit
      (applyProjectionAndOrder (withFilter (.keyLookup collection key) filter) c) c
  | .scan collection none (some predicate) c =>
    applyOffsetAndLimit
      (applyProjectionAndOrder (opt.scanAccess collection predicate c.limit) c) c
  | .scan collection none none c =>
    let canPushLimit := c.order.isNone && !c.distinct && !c.valueMode && c.offset.isNone
    applyOffsetAndLimit
      (applyProjectionAndOrder
        (.tableScan collection (if canPushLimit then c.limit else none)) c) c
  | .aggregate collection filter aggregates postProjection =>
    withProjection (.aggregate aggregates (opt.aggregateInput collection filter)) postProjection
  | .groupAggregate collection filter groupFields aggregates postProjection order =>
    withOrder
      (withProjection
        (.groupAggregate groupFields aggregates (opt.aggregateInput collection filter))
        postProjection) order
  | .inMemoryScan rows filter c =>
    let scanned := withFilter (.inMemoryScan rows) filter
    let shaped :=
      if c.valueMode then applyDistinctValue scanned c.distinct true c.valueExpr
      else applyDistinctValue (.project c.projection scanned) c.distinct false none
    applyOffsetAndLimit (withOrder shaped c.order) c
  | .update collection key filter assignments =>
    .update collection assignments (dmlInput collection key filter)
  | .delete collection key filter => .delete collection (dmlInput collection key filter)
  | .write clauses => .write clauses

end Optimizer

end Optimizer

end StellarDb
