import StellarDb.Transaction.Edges
import StellarDb.Query.Eval
import StellarDb.Lib.Levels

/-!
# StellarDb — graph traversal (`query/execute/operators/traversal.rs`)

A traversal goes breadth first. The depths of its steps are laid out one after the other, so that
each level of the search has one bucket of nodes (`depthToStep`). A small bucket is worked off node
by node, a large one in chunks, each through a map from nodes to edges. What a node leads to is
queued, and each queued result becomes a row, a node of the next bucket, or both (`takeResult`).

One pass through the loop of `next` is a `tick`; `Returns` holds of the rows when the loop has come
to its end. The filter of an edge is evaluated by the context.
-/

namespace StellarDb

/-! ## Expressions -/

inductive TraversalDirection where
  | outgoing
  | incoming
  | bidirectional
  deriving DecidableEq, Repr

inductive TraversalDepth where
  | single
  | exact (n : Nat)
  | range (min max : Option Nat)
  deriving DecidableEq, Repr

inductive TraversalMode where
  | deduplicate
  | all
  deriving DecidableEq, Repr

/-- A step with edge filters of kind `Φ`; a label `none` is the wildcard. -/
structure TraversalStep (Φ : Type) where
  direction : TraversalDirection
  label : Option String
  edgeFilter : Option Φ
  depth : TraversalDepth
  mode : TraversalMode
  /-- The collection whose nodes the step starts from. -/
  nodeFilter : Option String

/-- A path and its alias. -/
abbrev FieldSelection := String × Option String

inductive TraversalTarget where
  | edge
  | edgeAll
  | edgeField (field : String)
  | node (collection : String)
  | nodeAll (collection : String)
  | nodeField (collection field : String)
  | edgeFields (selections : List FieldSelection)
  | nodeFields (collection : String) (selections : List FieldSelection)

structure TraversalExpr (Φ : Type) where
  steps : List (TraversalStep Φ)
  target : TraversalTarget
  targetDirection : Option TraversalDirection

namespace TraversalTarget

/-- The name after the last arrow. -/
def collectionName : TraversalTarget → Option String
  | .node name | .nodeAll name | .nodeField name _ | .nodeFields name _ => some name
  | _ => none

/-- The target when that name is an edge label. -/
def ofEdge : TraversalTarget → TraversalTarget
  | .node _ | .nodeAll _ => .edgeAll
  | .nodeField _ field => .edgeField field
  | .nodeFields _ selections => .edgeFields selections
  | target => target

def isEdge : TraversalTarget → Bool
  | .edge | .edgeAll | .edgeField _ | .edgeFields _ => true
  | _ => false

/-- What `Deduplicate` compares: the edge id for an edge target, else the node. -/
def dedupeKey (target : TraversalTarget) (edge : Edge) (nextNode : String) : String :=
  if target.isEdge then edge.id else nextNode

end TraversalTarget

/-- `DEFAULT_MAX_DEPTH` -/
def defaultMaxDepth : Nat := 10

/-- `BATCH_THRESHOLD` -/
def batchThreshold : Nat := 64

/-- `BATCH_CHUNK_SIZE` -/
def batchChunkSize : Nat := 256

/-- `DEFAULT_EDGE_LIMIT` -/
def defaultEdgeLimit : Nat := 1000

namespace TraversalStep

variable {Φ : Type} (step : TraversalStep Φ)

/-- How many levels the step takes. -/
def levels : Nat :=
  match step.depth with
  | .single => 1
  | .exact n => n
  | .range _ (some m) => m
  | .range _ none => defaultMaxDepth

/-- `step_min_depth`: the first relative depth, from zero, at which the step may be left. -/
def stepMinDepth : Nat :=
  match step.depth with
  | .single => 0
  | .exact n => n - 1
  | .range (some m) _ => m - 1
  | .range none _ => 0

/-- The node filter of the step. -/
def admits (node : String) : Bool :=
  match step.nodeFilter with
  | some collection => startsWith node (collection ++ ":")
  | none => true

/-- The end of the edge that the step goes to. -/
def nextNode (src : String) (edge : Edge) : String :=
  match step.direction with
  | .outgoing => edge.dst
  | .incoming => edge.src
  | .bidirectional => if edge.src = src then edge.dst else edge.src

end TraversalStep

/-! ## The operator -/

/-- What a traversal takes from its surroundings. The keys of a batch are the nodes asked for. -/
structure ExecutionContext (Φ : Type) where
  listEdgesOut : String → String → Option String → Nat →
    Except StorageError (List Edge × Option String)
  listEdgesIn : String → String → Option String → Nat →
    Except StorageError (List Edge × Option String)
  batchListEdgesOut : List String → String → Nat →
    Except StorageError (String → Option (List Edge))
  batchListEdgesIn : List String → String → Nat →
    Except StorageError (String → Option (List Edge))
  collectionExists : String → Bool
  /-- `eval_filter` on the row of an edge. -/
  evalFilter : Φ → Edge → Except ExecuteError Bool

/-- The operator. There are `bucketCount` buckets, those from there on stay empty. -/
structure TraversalOp (Φ : Type) where
  expr : TraversalExpr Φ
  startNodes : List String
  depthBuckets : Nat → List String
  bucketCount : Nat
  currentDepth : Nat
  pendingResults : List (Edge × String)
  visited : Finset String

/-- `calculate_max_depth` and `get_max_depth` -/
def maxDepth {Φ : Type} (steps : List (TraversalStep Φ)) : Nat := (steps.map (·.levels)).sum

/-- A depth as the index of a step and the depth within it. -/
def depthToStep {Φ : Type} : List (TraversalStep Φ) → Nat → Option (Nat × Nat)
  | [], _ => none
  | step :: rest, depth =>
    if depth < step.levels then some (0, depth)
    else (depthToStep rest (depth - step.levels)).map fun r => (r.1 + 1, r.2)

namespace TraversalOp

variable {Φ : Type}

/-! ### Normalization -/

/-- A target that is no collection is an edge label, and becomes one more step. -/
def normalizeLabel (ctx : ExecutionContext Φ) (expr : TraversalExpr Φ) : TraversalExpr Φ :=
  match expr.target.collectionName with
  | none => expr
  | some name =>
    if ctx.collectionExists name then expr
    else
      { expr with
        steps := expr.steps ++ [{
          direction := expr.targetDirection.getD .outgoing
          label := some name
          edgeFilter := none
          depth := .single
          mode := .deduplicate
          nodeFilter := none }]
        target := expr.target.ofEdge }

/-- The loop over the steps: one with the name of a collection filters the nodes of the next. -/
def nodeFilters (ctx : ExecutionContext Φ) (pending : Option String)
    (newSteps : List (TraversalStep Φ)) : List (TraversalStep Φ) → List (TraversalStep Φ)
  | [] =>
    match pending, newSteps.getLast? with
    | some collection, some lastStep =>
      newSteps.dropLast ++ [{ lastStep with nodeFilter := some collection }]
    | _, _ => newSteps
  | step :: rest =>
    if step.label.any ctx.collectionExists then nodeFilters ctx step.label newSteps rest
    else
      nodeFilters ctx none
        (newSteps ++ [if pending.isSome then { step with nodeFilter := pending } else step]) rest

def normalizeTarget (ctx : ExecutionContext Φ) (expr : TraversalExpr Φ) : TraversalExpr Φ :=
  let expr := normalizeLabel ctx expr
  if 2 ≤ expr.steps.length then { expr with steps := nodeFilters ctx none [] expr.steps }
  else expr

/-- The operator for an expression that is normalized. -/
def ofNormalized (expr : TraversalExpr Φ) (startNodes : List String) : TraversalOp Φ where
  expr
  startNodes
  depthBuckets _ := []
  bucketCount := maxDepth expr.steps + 1
  currentDepth := 0
  pendingResults := []
  visited := ∅

def new (ctx : ExecutionContext Φ) (expr : TraversalExpr Φ) (startNodes : List String) :
    TraversalOp Φ :=
  ofNormalized (normalizeTarget ctx expr) startNodes

/-! ### Buckets -/

def setBucket (op : TraversalOp Φ) (depth : Nat) (nodes : List String) : TraversalOp Φ :=
  { op with depthBuckets := Function.update op.depthBuckets depth nodes }

def pushBucket (op : TraversalOp Φ) (depth : Nat) (node : String) : TraversalOp Φ :=
  op.setBucket depth (op.depthBuckets depth ++ [node])

def visit (op : TraversalOp Φ) (key : String) : TraversalOp Φ :=
  { op with visited := insert key op.visited }

/-- The loop of `open` over the start nodes. -/
def openNode (op : TraversalOp Φ) (node : String) : TraversalOp Φ :=
  if (op.expr.steps.head?.map (·.mode)) = some .all then op.pushBucket 0 node
  else (op.pushBucket 0 node).visit node

/-- `open`: the start nodes are the first bucket. -/
def opened (op : TraversalOp Φ) : TraversalOp Φ := op.startNodes.foldl openNode op

/-! ### Edges of a node -/

/-- The edge filter of a step. -/
def evalEdgeFilter (ctx : ExecutionContext Φ) (step : TraversalStep Φ) (edge : Edge) :
    Except ExecuteError Bool :=
  match step.edgeFilter with
  | some filter => ctx.evalFilter filter edge
  | none => .ok true

/-- The loop over the edges of a node. -/
def neighbours (ctx : ExecutionContext Φ) (step : TraversalStep Φ) (src : String) :
    List Edge → Except ExecuteError (List (Edge × String))
  | [] => .ok []
  | edge :: rest =>
    match evalEdgeFilter ctx step edge with
    | .error e => .error e
    | .ok pass =>
      match neighbours ctx step src rest with
      | .error e => .error e
      | .ok results => .ok (if pass then (edge, step.nextNode src edge) :: results else results)

/-- The listings of `traverse_step`. -/
def listEdges (ctx : ExecutionContext Φ) (step : TraversalStep Φ) (src : String) :
    Except StorageError (List Edge) :=
  let label := step.label.getD ""
  match step.direction with
  | .outgoing => (ctx.listEdgesOut src label none 1000).map Prod.fst
  | .incoming => (ctx.listEdgesIn src label none 1000).map Prod.fst
  | .bidirectional =>
    match ctx.listEdgesOut src label none 1000 with
    | .error e => .error e
    | .ok out =>
      match ctx.listEdgesIn src label none 1000 with
      | .error e => .error e
      | .ok inEdges => .ok (out.1 ++ inEdges.1)

def traverseStep (ctx : ExecutionContext Φ) (step : TraversalStep Φ) (src : String) :
    Except ExecuteError (List (Edge × String)) :=
  if step.admits src then
    match listEdges ctx step src with
    | .error e => .error (.storage e)
    | .ok edges => neighbours ctx step src edges
  else .ok []

/-- The map of `process_batch`. -/
def edgesMap (ctx : ExecutionContext Φ) (step : TraversalStep Φ) (chunk : List String) :
    Except StorageError (String → List Edge) :=
  let label := step.label.getD ""
  match step.direction with
  | .outgoing =>
    (ctx.batchListEdgesOut chunk label defaultEdgeLimit).map fun out node => (out node).getD []
  | .incoming =>
    (ctx.batchListEdgesIn chunk label defaultEdgeLimit).map fun inEdges node =>
      (inEdges node).getD []
  | .bidirectional =>
    match ctx.batchListEdgesOut chunk label defaultEdgeLimit with
    | .error e => .error e
    | .ok out =>
      match ctx.batchListEdgesIn chunk label defaultEdgeLimit with
      | .error e => .error e
      | .ok inEdges => .ok fun node => (out node).getD [] ++ (inEdges node).getD []

/-- The loop over the map, in the order of the hasher. -/
def batchResults (ctx : ExecutionContext Φ) (step : TraversalStep Φ) (edges : String → List Edge) :
    List String → Except ExecuteError (List (Edge × String))
  | [] => .ok []
  | node :: rest =>
    match if step.admits node then neighbours ctx step node (edges node) else .ok [] with
    | .error e => .error e
    | .ok found =>
      match batchResults ctx step edges rest with
      | .error e => .error e
      | .ok results => .ok (found ++ results)

/-! ### The loop -/

/-- A chunk from the front of the bucket, through a map. -/
def processBatch (ctx : ExecutionContext Φ) (order : IterOrder) (op : TraversalOp Φ)
    (step : TraversalStep Φ) : Except ExecuteError (TraversalOp Φ) :=
  let bucket := op.depthBuckets op.currentDepth
  let chunk := bucket.take (min batchChunkSize bucket.length)
  match edgesMap ctx step chunk with
  | .error e => .error (.storage e)
  | .ok edges =>
    match batchResults ctx step edges (order.iter chunk.dedup) with
    | .error e => .error e
    | .ok results =>
      .ok { op.setBucket op.currentDepth (bucket.drop (min batchChunkSize bucket.length)) with
        pendingResults := op.pendingResults ++ results }

/-- One node from the back of the bucket. -/
def processSequential (ctx : ExecutionContext Φ) (op : TraversalOp Φ) (step : TraversalStep Φ) :
    Except ExecuteError (TraversalOp Φ) :=
  let bucket := op.depthBuckets op.currentDepth
  match bucket.getLast? with
  | none => .ok op
  | some current =>
    match traverseStep ctx step current with
    | .error e => .error e
    | .ok results =>
      .ok { op.setBucket op.currentDepth bucket.dropLast with
        pendingResults := op.pendingResults ++ results }

/-- `is_last_depth_for_step` -/
def isLastDepthForStep (op : TraversalOp Φ) (depth : Nat) : Bool :=
  match depthToStep op.expr.steps depth with
  | none => true
  | some (stepIdx, relDepth) =>
    match op.expr.steps[stepIdx]? with
    | none => true
    | some step => step.levels ≤ relDepth + 1

/-- One queued result: whether it is a row, and what else becomes of it. -/
def takeResult (op : TraversalOp Φ) (edge : Edge) (nextNode : String) :
    TraversalOp Φ × Option (Edge × String) :=
  match depthToStep op.expr.steps op.currentDepth with
  | none => (op, none)
  | some (stepIdx, relDepth) =>
    match op.expr.steps[stepIdx]? with
    | none => (op, none)
    | some step =>
      let shouldDedupe : Bool := step.mode = .deduplicate
      let isLastStep : Bool := op.expr.steps.length ≤ stepIdx + 1
      let isLastDepthInStep := op.isLastDepthForStep op.currentDepth
      let shouldEmit : Bool := isLastStep && step.stepMinDepth ≤ relDepth
      let shouldContinue := !isLastDepthInStep || !isLastStep
      let hasNextBucket : Bool := op.currentDepth + 1 < op.bucketCount
      if shouldEmit then
        let dedupeKey := op.expr.target.dedupeKey edge nextNode
        let isDup : Bool := shouldDedupe && decide (dedupeKey ∈ op.visited)
        let op' :=
          if !isLastDepthInStep && !isDup && hasNextBucket then
            op.pushBucket (op.currentDepth + 1) nextNode
          else op
        if isDup then (op', none)
        else (if shouldDedupe then op'.visit dedupeKey else op', some (edge, nextNode))
      else if shouldContinue then
        if shouldDedupe && decide (nextNode ∈ op.visited) then (op, none)
        else
          let op' := if shouldDedupe then op.visit nextNode else op
          (if hasNextBucket then op'.pushBucket (op.currentDepth + 1) nextNode else op', none)
      else (op, none)

/-- How a pass through the loop of `next` ends. -/
inductive Tick (Φ : Type) where
  | row (op : TraversalOp Φ) (row : Edge × String)
  | again (op : TraversalOp Φ)
  | done
  | failed (e : ExecuteError)

/-- Work off nodes of the current bucket that pass the node filter. -/
def processNodes (ctx : ExecutionContext Φ) (order : IterOrder) (op : TraversalOp Φ)
    (step : TraversalStep Φ) : Except ExecuteError (TraversalOp Φ) :=
  let op := op.setBucket op.currentDepth ((op.depthBuckets op.currentDepth).filter step.admits)
  if batchThreshold ≤ (op.depthBuckets op.currentDepth).length then
    processBatch ctx order op step
  else processSequential ctx op step

def tick (ctx : ExecutionContext Φ) (order : IterOrder) (op : TraversalOp Φ) : Tick Φ :=
  match op.pendingResults with
  | (edge, nextNode) :: rest =>
    match takeResult { op with pendingResults := rest } edge nextNode with
    | (op', some row) => .row op' row
    | (op', none) => .again op'
  | [] =>
    if (op.depthBuckets op.currentDepth).isEmpty then
      let op := { op with currentDepth := op.currentDepth + 1 }
      if maxDepth op.expr.steps ≤ op.currentDepth then .done
      else if (depthToStep op.expr.steps op.currentDepth).isNone then .done
      else .again op
    else
      match depthToStep op.expr.steps op.currentDepth with
      | none => .done
      | some (stepIdx, _) =>
        match op.expr.steps[stepIdx]? with
        | none => .done
        | some step =>
          match processNodes ctx order op step with
          | .error e => .failed e
          | .ok op => .again op

/-- The rows of the calls to `next` until there are no more. The hasher may hand out each map in an
order of its own. -/
def collect (ctx : ExecutionContext Φ) (order : TraversalOp Φ → IterOrder) :
    Nat → TraversalOp Φ → Option (Except ExecuteError (List (Edge × String)))
  | 0, _ => none
  | fuel + 1, op =>
    match tick ctx (order op) op with
    | .row op row => (collect ctx order fuel op).map (·.map (row :: ·))
    | .again op => collect ctx order fuel op
    | .done => some (.ok [])
    | .failed e => some (.error e)

/-- The operator comes to an end, with these rows. -/
def Returns (ctx : ExecutionContext Φ) (order : TraversalOp Φ → IterOrder) (op : TraversalOp Φ)
    (rows : List (Edge × String)) : Prop :=
  ∃ fuel, collect ctx order fuel op = some (.ok rows)

end TraversalOp

end StellarDb
