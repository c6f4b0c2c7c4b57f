import StellarDb.Indexes.Lookup
import StellarDb.Query.Ast

/-!
# StellarDb — aggregates inside expressions (`query/plan/logical.rs`)

An expression with aggregates inside is evaluated on the row of the aggregate operator:
`extract_aggregates` collects the calls, each under a column named after it, and puts the column
in the place of the call.

The name is made of function and argument alone, the walk passes over indexes, slices, field
accesses, lists and ranges, and the evaluator takes a dot in a name for a path.
`aggregates_kept` says that nothing else goes wrong.
-/

namespace StellarDb

/-! ## Names and values of calls -/

/-- `AggregateFunction::from_name` -/
def AggregateFunction.fromName (name : String) : Option AggregateFunction :=
  match name.toLower with
  | "count" => some .count
  | "sum" => some .sum
  | "avg" => some .avg
  | "min" => some .min
  | "max" => some .max
  | _ => none

namespace AggregateCall

/-- The default alias of a call, as in `sum(age)` and `count(*)`. -/
def aggAlias (call : AggregateCall) : String :=
  match call.arg with
  | .wildcard => call.function.toLower ++ "(*)"
  | .field f => call.function.toLower ++ "(" ++ f ++ ")"

/-- The resolved aggregate of a call, if its function is known. -/
def resolve (call : AggregateCall) : Option ResolvedAggregate :=
  (AggregateFunction.fromName call.function).map fun function =>
    ⟨function, call.arg, call.aggAlias, call.distinct⟩

/-- The value of the very aggregate over rows. -/
def value [External] [ValueText] [Arithmetic] [Numerics] (call : AggregateCall)
    (rows : List Row) : Value :=
  (call.resolve.map (·.value rows)).getD .null

end AggregateCall

/-! ## `extract_aggregates` -/

/-- Add the aggregate of a call, unless its name is taken. -/
def addAggregate (call : AggregateCall) (aggs : List ResolvedAggregate) : List ResolvedAggregate :=
  if aggs.any (·.aliasName = call.aggAlias) then aggs else aggs ++ call.resolve.toList

namespace AstExpr

mutual

/-- The expression with columns for aggregates, and the aggregates with those collected. -/
def extractAggregates : AstExpr → List ResolvedAggregate → AstExpr × List ResolvedAggregate
  | .aggregate call, aggs => (.field call.aggAlias, addAggregate call aggs)
  | .binaryOp left op right, aggs =>
    let (l, aggs) := left.extractAggregates aggs
    let (r, aggs) := right.extractAggregates aggs
    (.binaryOp l op r, aggs)
  | .unaryOp op inner, aggs =>
    let (e, aggs) := inner.extractAggregates aggs
    (.unaryOp op e, aggs)
  | .functionCall ns name args, aggs =>
    let (args, aggs) := extractFromList args aggs
    (.functionCall ns name args, aggs)
  | .array items, aggs =>
    let (items, aggs) := extractFromList items aggs
    (.array items, aggs)
  | .object pairs, aggs =>
    let (pairs, aggs) := extractFromPairs pairs aggs
    (.object pairs, aggs)
  -- no aggregates are looked for in other kinds
  | e, aggs => (e, aggs)

def extractFromList : List AstExpr → List ResolvedAggregate →
    List AstExpr × List ResolvedAggregate
  | [], aggs => ([], aggs)
  | e :: es, aggs =>
    let (e, aggs) := e.extractAggregates aggs
    let (es, aggs) := extractFromList es aggs
    (e :: es, aggs)

def extractFromPairs : List (String × AstExpr) → List ResolvedAggregate →
    List (String × AstExpr) × List ResolvedAggregate
  | [], aggs => ([], aggs)
  | (k, e) :: pairs, aggs =>
    let (e, aggs) := e.extractAggregates aggs
    let (pairs, aggs) := extractFromPairs pairs aggs
    ((k, e) :: pairs, aggs)

end

/-! ## The expression that is meant -/

mutual

/-- Each aggregate call replaced by a value. -/
def replaceAggregates (v : AggregateCall → Value) : AstExpr → AstExpr
  | .aggregate call => .literal (v call)
  | .binaryOp left op right => .binaryOp (left.replaceAggregates v) op (right.replaceAggregates v)
  | .unaryOp op e => .unaryOp op (e.replaceAggregates v)
  | .functionCall ns name args => .functionCall ns name (replaceInList v args)
  | .inList e list negated => .inList (e.replaceAggregates v) (replaceInList v list) negated
  | .inExpr e target negated => .inExpr (e.replaceAggregates v) (target.replaceAggregates v) negated
  | .array items => .array (replaceInList v items)
  | .object pairs => .object (replaceInPairs v pairs)
  | .index base i => .index (base.replaceAggregates v) (i.replaceAggregates v)
  | .slice base start stop =>
    .slice (base.replaceAggregates v) (replaceInOption v start) (replaceInOption v stop)
  | .fieldAccess base name => .fieldAccess (base.replaceAggregates v) name
  | .range start stop => .range (start.replaceAggregates v) (stop.replaceAggregates v)
  | .search kind text children => .search kind text (replaceInList v children)
  | .deferred kind text children => .deferred kind text (replaceInList v children)
  | e => e

def replaceInList (v : AggregateCall → Value) : List AstExpr → List AstExpr
  | [] => []
  | e :: es => e.replaceAggregates v :: replaceInList v es

def replaceInPairs (v : AggregateCall → Value) : List (String × AstExpr) → List (String × AstExpr)
  | [] => []
  | (k, e) :: pairs => (k, e.replaceAggregates v) :: replaceInPairs v pairs

def replaceInOption (v : AggregateCall → Value) : Option AstExpr → Option AstExpr
  | none => none
  | some e => some (e.replaceAggregates v)

end

/-! ## Where the walk gets to -/

mutual

/-- The calls that `extract_aggregates` gets to, from left to right. -/
def reachedCalls : AstExpr → List AggregateCall
  | .aggregate call => [call]
  | .binaryOp left _ right => left.reachedCalls ++ right.reachedCalls
  | .unaryOp _ e => e.reachedCalls
  | .functionCall _ _ args => reachedInList args
  | .array items => reachedInList items
  | .object pairs => reachedInPairs pairs
  | _ => []

def reachedInList : List AstExpr → List AggregateCall
  | [] => []
  | e :: es => e.reachedCalls ++ reachedInList es

def reachedInPairs : List (String × AstExpr) → List AggregateCall
  | [] => []
  | (_, e) :: pairs => e.reachedCalls ++ reachedInPairs pairs

end

mutual

/-- Some aggregate stands in an index, a slice, a field access, an `IN` or a range, where the walk
does not get to. -/
def missesAggregate : AstExpr → Bool
  | .binaryOp left _ right => left.missesAggregate || right.missesAggregate
  | .unaryOp _ e => e.missesAggregate
  | .functionCall _ _ args => missesInList args
  | .array items => missesInList items
  | .object pairs => missesInPairs pairs
  | .inList e list negated => (inList e list negated).containsAggregate
  | .inExpr e target negated => (inExpr e target negated).containsAggregate
  | .index base i => (index base i).containsAggregate
  | .slice base start stop => (slice base start stop).containsAggregate
  | .fieldAccess base name => (fieldAccess base name).containsAggregate
  | .range start stop => (range start stop).containsAggregate
  | _ => false

def missesInList : List AstExpr → Bool
  | [] => false
  | e :: es => e.missesAggregate || missesInList es

def missesInPairs : List (String × AstExpr) → Bool
  | [] => false
  | (_, e) :: pairs => e.missesAggregate || missesInPairs pairs

end

mutual

theorem replaceAggregates_of_none (v : AggregateCall → Value) :
    (e : AstExpr) → e.any isAggregate = false → e.replaceAggregates v = e
  | .aggregate call, h => by cases h
  | .literal _, _ | .field _, _ | .valueRef _, _ | .constant _ _, _ | .variable _, _ => rfl
  | .binaryOp left op right, h => by
    simp only [any, Bool.or_eq_false_iff] at h
    rw [replaceAggregates, replaceAggregates_of_none v left h.1.2,
      replaceAggregates_of_none v right h.2]
  | .unaryOp op e, h => by
    rw [replaceAggregates, replaceAggregates_of_none v e h]
  | .functionCall ns name args, h => by
    rw [replaceAggregates, replaceInList_of_none v args h]
  | .inList e list negated, h => by
    simp only [any, Bool.or_eq_false_iff] at h
    rw [replaceAggregates, replaceAggregates_of_none v e h.1.2, replaceInList_of_none v list h.2]
  | .inExpr e target negated, h => by
    simp only [any, Bool.or_eq_false_iff] at h
    rw [replaceAggregates, replaceAggregates_of_none v e h.1.2,
      replaceAggregates_of_none v target h.2]
  | .array items, h => by
    rw [replaceAggregates, replaceInList_of_none v items h]
  | .object pairs, h => by
    rw [replaceAggregates, replaceInPairs_of_none v pairs h]
  | .index base i, h => by
    simp only [any, Bool.or_eq_false_iff] at h
    rw [replaceAggregates, replaceAggregates_of_none v base h.1.2,
      replaceAggregates_of_none v i h.2]
  | .slice base start stop, h => by
    simp only [any, Bool.or_eq_false_iff] at h
    rw [replaceAggregates, replaceAggregates_of_none v base h.1.1.2,
      replaceInOption_of_none v start h.1.2, replaceInOption_of_none v stop h.2]
  | .fieldAccess base name, h => by
    rw [replaceAggregates, replaceAggregates_of_none v base h]
  | .range start stop, h => by
    simp only [any, Bool.or_eq_false_iff] at h
    rw [replaceAggregates, replaceAggregates_of_none v start h.1.2,
      replaceAggregates_of_none v stop h.2]
  | .search kind text children, h => by
    rw [replaceAggregates, replaceInList_of_none v children h]
  | .deferred kind text children, h => by
    rw [replaceAggregates, replaceInList_of_none v children h]

theorem replaceInList_of_none (v : AggregateCall → Value) :
    (es : List AstExpr) → anyIn isAggregate es = false → replaceInList v es = es
  | [], _ => rfl
  | e :: es, h => by
    simp only [anyIn, Bool.or_eq_false_iff] at h
    rw [replaceInList, replaceAggregates_of_none v e h.1, replaceInList_of_none v es h.2]

theorem replaceInPairs_of_none (v : AggregateCall → Value) :
    (pairs : List (String × AstExpr)) → anyInPairs isAggregate pairs = false →
      replaceInPairs v pairs = pairs
  | [], _ => rfl
  | (k, e) :: pairs, h => by
    simp only [anyInPairs, Bool.or_eq_false_iff] at h
    rw [replaceInPairs, replaceAggregates_of_none v e h.1, replaceInPairs_of_none v pairs h.2]

theorem replaceInOption_of_none (v : AggregateCall → Value) :
    (e : Option AstExpr) → anyInOption isAggregate e = false → replaceInOption v e = e
  | none, _ => rfl
  | some e, h => by rw [replaceInOption, replaceAggregates_of_none v e h]

end

/-! ## The rewritten expression -/

section Rewritten

variable [Numerics] (ctx : AstContext) (row : Row) (v : AggregateCall → Value)

/-- The row has the value of a call in the column of its name. -/
structure ColumnKept (call : AggregateCall) : Prop where
  value : evalField ctx.base row call.aggAlias = .ok (v call)
  present : AstContext.hasField row call.aggAlias = true

variable {ctx row v}

/-- `IS NONE` tells an aggregate from a missing field, whether it is a call or a column. -/
theorem evalAst_unary_extract {op : UnaryOp} (hop : op = .isNone ∨ op = .isNotNone) (e : AstExpr)
    (aggs : List ResolvedAggregate) (h : ∀ call ∈ e.reachedCalls, ColumnKept ctx row v call) :
    evalAst ctx row (.unaryOp op (e.extractAggregates aggs).1) =
      evalAst ctx row (.unaryOp op (e.replaceAggregates v)) := by
  cases e with
  | aggregate call =>
    have hpresent := (h call (List.mem_singleton_self call)).present
    rcases hop with rfl | rfl
    · show Except.ok (Value.bool !(AstContext.hasField row call.aggAlias)) = .ok (.bool false)
      rw [hpresent]
      rfl
    · show Except.ok (Value.bool (AstContext.hasField row call.aggAlias)) = .ok (.bool true)
      rw [hpresent]
  | _ => rcases hop with rfl | rfl <;> rfl

mutual

/-- The columns of a row stand for the calls that the walk gets to. -/
theorem evalAst_extract : (e : AstExpr) → (aggs : List ResolvedAggregate) →
    e.missesAggregate = false → (∀ call ∈ e.reachedCalls, ColumnKept ctx row v call) →
    evalAst ctx row (e.extractAggregates aggs).1 = evalAst ctx row (e.replaceAggregates v)
  | .aggregate call, _, _, h => (h call (List.mem_singleton_self call)).value
  | .literal _, _, _, _ | .field _, _, _, _ | .valueRef _, _, _, _ | .constant _ _, _, _, _
  | .variable _, _, _, _ => rfl
  | .binaryOp left op right, aggs, hmiss, h => by
    simp only [missesAggregate, Bool.or_eq_false_iff] at hmiss
    rw [reachedCalls, List.forall_mem_append] at h
    show evalAst ctx row (.binaryOp (left.extractAggregates aggs).1 op
      (right.extractAggregates (left.extractAggregates aggs).2).1) = _
    rw [replaceAggregates, evalAst, evalAst, evalAst_extract left aggs hmiss.1 h.1,
      evalAst_extract right _ hmiss.2 h.2]
  | .unaryOp op e, aggs, hmiss, h => by
    show evalAst ctx row (.unaryOp op (e.extractAggregates aggs).1) = _
    have heval := evalAst_extract e aggs hmiss h
    rw [replaceAggregates]
    cases op with
    | isNone => exact evalAst_unary_extract (Or.inl rfl) e aggs h
    | isNotNone => exact evalAst_unary_extract (Or.inr rfl) e aggs h
    | _ =>
      rw [evalAst, evalAst, heval] <;> simp
  | .functionCall ns name args, aggs, hmiss, h => by
    show evalAst ctx row (.functionCall ns name (extractFromList args aggs).1) = _
    rw [replaceAggregates, evalAst, evalAst, evalAsts_extract args aggs hmiss h]
  | .array items, aggs, hmiss, h => by
    show evalAst ctx row (.array (extractFromList items aggs).1) = _
    rw [replaceAggregates, evalAst, evalAst, evalAsts_extract items aggs hmiss h]
  | .object pairs, aggs, hmiss, h => by
    show evalAst ctx row (.object (extractFromPairs pairs aggs).1) = _
    rw [replaceAggregates, evalAst, evalAst, evalAstPairs_extract pairs aggs hmiss h]
  | .inList e list negated, _, hmiss, _ => by rw [replaceAggregates_of_none v _ hmiss]; rfl
  | .inExpr e target negated, _, hmiss, _ => by rw [replaceAggregates_of_none v _ hmiss]; rfl
  | .index base i, _, hmiss, _ => by rw [replaceAggregates_of_none v _ hmiss]; rfl
  | .slice base start stop, _, hmiss, _ => by rw [replaceAggregates_of_none v _ hmiss]; rfl
  | .fieldAccess base name, _, hmiss, _ => by rw [replaceAggregates_of_none v _ hmiss]; rfl
  | .range start stop, _, hmiss, _ => by rw [replaceAggregates_of_none v _ hmiss]; rfl
  -- these have no value, whatever is inside
  | .search kind text children, _, _, _ => rfl
  | .deferred kind text children, _, _, _ => rfl

theorem evalAsts_extract : (es : List AstExpr) → (aggs : List ResolvedAggregate) →
    missesInList es = false → (∀ call ∈ reachedInList es, ColumnKept ctx row v call) →
    evalAsts ctx row (extractFromList es aggs).1 = evalAsts ctx row (replaceInList v es)
  | [], _, _, _ => rfl
  | e :: es, aggs, hmiss, h => by
    simp only [missesInList, Bool.or_eq_false_iff] at hmiss
    rw [reachedInList, List.forall_mem_append] at h
    show evalAsts ctx row ((e.extractAggregates aggs).1 ::
      (extractFromList es (e.extractAggregates aggs).2).1) = _
    rw [replaceInList, evalAsts, evalAsts, evalAst_extract e aggs hmiss.1 h.1,
      evalAsts_extract es _ hmiss.2 h.2]

theorem evalAstPairs_extract : (pairs : List (String × AstExpr)) →
    (aggs : List ResolvedAggregate) → missesInPairs pairs = false →
    (∀ call ∈ reachedInPairs pairs, ColumnKept ctx row v call) →
    evalAstPairs ctx row (extractFromPairs pairs aggs).1 = evalAstPairs ctx row (replaceInPairs v pairs)
  | [], _, _, _ => rfl
  | (k, e) :: pairs, aggs, hmiss, h => by
    simp only [missesInPairs, Bool.or_eq_false_iff] at hmiss
    rw [reachedInPairs, List.forall_mem_append] at h
    show evalAstPairs ctx row ((k, (e.extractAggregates aggs).1) ::
      (extractFromPairs pairs (e.extractAggregates aggs).2).1) = _
    rw [replaceInPairs, evalAstPairs, evalAstPairs, evalAst_extract e aggs hmiss.1 h.1,
      evalAstPairs_extract pairs _ hmiss.2 h.2]

end

theorem evalAst_zip_extract (es : List AstExpr) (aggs : List ResolvedAggregate)
    (hmiss : missesInList es = false)
    (h : ∀ call ∈ reachedInList es, ColumnKept ctx row v call) :
    ∀ e ∈ es.zip (extractFromList es aggs).1,
      evalAst ctx row e.2 = evalAst ctx row (e.1.replaceAggregates v) := by
  induction es generalizing aggs with
  | nil => nofun
  | cons e es ih =>
    simp only [missesInList, Bool.or_eq_false_iff] at hmiss
    rw [reachedInList, List.forall_mem_append] at h
    show ∀ p ∈ (e, (e.extractAggregates aggs).1) ::
      es.zip (extractFromList es (e.extractAggregates aggs).2).1, _
    rw [List.forall_mem_cons]
    exact ⟨evalAst_extract e aggs hmiss.1 h.1, ih _ hmiss.2 h.2⟩

end Rewritten

/-! ## The aggregates that are collected -/

mutual

/-- The walk adds the calls it gets to, one after the other. -/
theorem extractAggregates_aggs : (e : AstExpr) → (aggs : List ResolvedAggregate) →
    (e.extractAggregates aggs).2 = e.reachedCalls.foldl (fun aggs call => addAggregate call aggs) aggs
  | .aggregate _, _ => rfl
  | .literal _, _ | .field _, _ | .valueRef _, _ | .constant _ _, _ | .variable _, _ => rfl
  | .inList _ _ _, _ | .inExpr _ _ _, _ | .index _ _, _ | .slice _ _ _, _ => rfl
  | .fieldAccess _ _, _ | .range _ _, _ | .search _ _ _, _ | .deferred _ _ _, _ => rfl
  | .binaryOp left op right, aggs => by
    show (right.extractAggregates (left.extractAggregates aggs).2).2 = _
    rw [reachedCalls, List.foldl_append, extractAggregates_aggs right,
      extractAggregates_aggs left]
  | .unaryOp op e, aggs => extractAggregates_aggs e aggs
  | .functionCall ns name args, aggs => extractFromList_aggs args aggs
  | .array items, aggs => extractFromList_aggs items aggs
  | .object pairs, aggs => extractFromPairs_aggs pairs aggs

theorem extractFromList_aggs : (es : List AstExpr) → (aggs : List ResolvedAggregate) →
    (extractFromList es aggs).2 =
      (reachedInList es).foldl (fun aggs call => addAggregate call aggs) aggs
  | [], _ => rfl
  | e :: es, aggs => by
    show (extractFromList es (e.extractAggregates aggs).2).2 = _
    rw [reachedInList, List.foldl_append, extractFromList_aggs es, extractAggregates_aggs e]

theorem extractFromPairs_aggs : (pairs : List (String × AstExpr)) →
    (aggs : List ResolvedAggregate) → (extractFromPairs pairs aggs).2 =
      (reachedInPairs pairs).foldl (fun aggs call => addAggregate call aggs) aggs
  | [], _ => rfl
  | (k, e) :: pairs, aggs => by
    show (extractFromPairs pairs (e.extractAggregates aggs).2).2 = _
    rw [reachedInPairs, List.foldl_append, extractFromPairs_aggs pairs, extractAggregates_aggs e]

end

/-- Aggregates collected from calls: one for each name, the one of the first call of that name. -/
structure Collected (calls : List AggregateCall) (aggs : List ResolvedAggregate) : Prop where
  nodup : (aggs.map (·.aliasName)).Nodup
  resolved : ∀ agg ∈ aggs, ∃ call ∈ calls, call.resolve = some agg
  named : ∀ call ∈ calls, call.resolve.isSome = true → ∃ agg ∈ aggs, agg.aliasName = call.aggAlias

theorem aliasName_of_resolve {call : AggregateCall} {agg : ResolvedAggregate}
    (h : call.resolve = some agg) : agg.aliasName = call.aggAlias := by
  unfold AggregateCall.resolve at h
  obtain ⟨function, -, rfl⟩ := Option.map_eq_some_iff.mp h
  rfl

theorem Collected.addAggregate {calls : List AggregateCall} {aggs : List ResolvedAggregate}
    (h : Collected calls aggs) (call : AggregateCall) :
    Collected (calls ++ [call]) (addAggregate call aggs) := by
  have hcalls : ∀ {c : AggregateCall}, c ∈ calls → c ∈ calls ++ [call] := fun hc =>
    List.mem_append_left _ hc
  unfold StellarDb.addAggregate
  split
  · next htaken =>
    refine ⟨h.nodup, fun agg hagg => ?_, fun c hc hknown => ?_⟩
    · obtain ⟨c, hc, hres⟩ := h.resolved agg hagg
      exact ⟨c, hcalls hc, hres⟩
    · rcases List.mem_append.mp hc with hc | hc
      · exact h.named c hc hknown
      · obtain rfl := List.mem_singleton.mp hc
        obtain ⟨agg, hagg, hname⟩ := List.any_eq_true.mp htaken
        exact ⟨agg, hagg, of_decide_eq_true hname⟩
  · next hfree =>
    have hnew : ∀ agg ∈ aggs, agg.aliasName ≠ call.aggAlias := fun agg hagg hname =>
      hfree (List.any_eq_true.mpr ⟨agg, hagg, decide_eq_true hname⟩)
    cases hres : call.resolve with
    | none =>
      rw [Option.toList_none, List.append_nil]
      refine ⟨h.nodup, fun agg hagg => ?_, fun c hc hknown => ?_⟩
      · obtain ⟨c, hc, hres⟩ := h.resolved agg hagg
        exact ⟨c, hcalls hc, hres⟩
      · rcases List.mem_append.mp hc with hc | hc
        · exact h.named c hc hknown
        · obtain rfl := List.mem_singleton.mp hc
          rw [hres] at hknown
          cases hknown
    | some new =>
      rw [Option.toList_some]
      refine ⟨?_, fun agg hagg => ?_, fun c hc hknown => ?_⟩
      · rw [List.map_append, List.nodup_append]
        refine ⟨h.nodup, List.nodup_singleton _, fun name hname name' hname' heq => ?_⟩
        obtain ⟨agg, hagg, rfl⟩ := List.mem_map.mp hname
        obtain rfl := List.mem_singleton.mp hname'
        exact hnew agg hagg (heq.trans (aliasName_of_resolve hres))
      · rcases List.mem_append.mp hagg with hagg | hagg
        · obtain ⟨c, hc, hres⟩ := h.resolved agg hagg
          exact ⟨c, hcalls hc, hres⟩
        · obtain rfl := List.mem_singleton.mp hagg
          exact ⟨call, by simp, hres⟩
      · rcases List.mem_append.mp hc with hc | hc
        · obtain ⟨agg, hagg, hname⟩ := h.named c hc hknown
          exact ⟨agg, List.mem_append_left _ hagg, hname⟩
        · obtain rfl := List.mem_singleton.mp hc
          exact ⟨new, by simp, aliasName_of_resolve hres⟩

theorem collected_foldl (calls : List AggregateCall) :
    Collected calls (calls.foldl (fun aggs call => StellarDb.addAggregate call aggs) []) := by
  induction calls using List.reverseRecOn with
  | nil => exact ⟨List.nodup_nil, nofun, nofun⟩
  | append_singleton calls call ih =>
    rw [List.foldl_append]
    exact ih.addAggregate call

theorem collected_extract (es : List AstExpr) :
    Collected (reachedInList es) (extractFromList es []).2 := by
  rw [extractFromList_aggs]
  exact collected_foldl _

end AstExpr

/-! ## The row of the operator -/

section Operator

/-- A row as it is in the source: no map inside has a key twice. -/
def Row.WellFormed (row : Row) : Prop := ∀ v, row.scalarValue = some v → v.wf = true

theorem Row.wf_getField {row : Row} (h : row.WellFormed) {name : String} {v : Value}
    (hv : row.getField name = some v) : v.wf = true := by
  have hfield : ∀ w, row.doc.fields.lookup name = some w → w.wf = true := fun w hw =>
    row.doc.wf_of_lookup hw
  unfold Row.getField at hv
  cases hscalar : row.scalarValue with
  | none =>
    rw [hscalar] at hv
    dsimp only at hv
    split at hv
    · obtain rfl := Option.some.inj hv
      rfl
    · exact hfield v hv
  | some scalar =>
    rw [hscalar] at hv
    dsimp only at hv
    split at hv
    · obtain rfl := Option.some.inj hv
      exact h scalar hscalar
    · split at hv
      · obtain rfl := Option.some.inj hv
        rfl
      · exact hfield v hv

/-- What an accumulator holds was fed to it. -/
structure Accumulator.WellFormed (acc : Accumulator) : Prop where
  min : ∀ v, acc.min = some v → v.wf = true
  max : ∀ v, acc.max = some v → v.wf = true

variable [Arithmetic]

theorem Accumulator.wellFormed_feedNumeric {acc : Accumulator} (h : acc.WellFormed) (v : Value) :
    (acc.feedNumeric v).WellFormed := by
  have hmin : (acc.feedNumeric v).min = acc.min := by cases v <;> rfl
  have hmax : (acc.feedNumeric v).max = acc.max := by cases v <;> rfl
  exact ⟨fun w hw => h.min w (hmin ▸ hw), fun w hw => h.max w (hmax ▸ hw)⟩

variable [Numerics]

theorem Accumulator.wellFormed_feedValue {acc : Accumulator} (h : acc.WellFormed)
    {value : Option Value} (hv : ∀ v, value = some v → v.wf = true) :
    (acc.feedValue value).WellFormed := by
  unfold Accumulator.feedValue
  split
  any_goals exact h
  · exact ⟨h.min, h.max⟩
  · exact wellFormed_feedNumeric h _
  · exact wellFormed_feedNumeric h _
  · split
    · exact ⟨fun w hw => hv w hw, h.max⟩
    · exact h
  · split
    · exact ⟨h.min, fun w hw => hv w hw⟩
    · exact h

variable [External] [ValueText]

theorem Accumulator.wellFormed_feed {acc : Accumulator} (h : acc.WellFormed)
    {value : Option Value} (hv : ∀ v, value = some v → v.wf = true) :
    (acc.feed value).WellFormed := by
  unfold Accumulator.feed
  split
  · split
    any_goals exact h
    · split
      · exact h
      · apply wellFormed_feedValue _ hv
        exact ⟨h.min, h.max⟩
  · exact wellFormed_feedValue h hv

namespace ResolvedAggregate

theorem wellFormed_foldl (agg : ResolvedAggregate) {rows : List Row}
    (hrows : ∀ row ∈ rows, row.WellFormed) {acc : Accumulator} (h : acc.WellFormed) :
    (rows.foldl agg.feed acc).WellFormed := by
  induction rows generalizing acc with
  | nil => exact h
  | cons row rows ih =>
    rw [List.forall_mem_cons] at hrows
    rw [List.foldl_cons]
    apply ih hrows.2
    unfold ResolvedAggregate.feed
    split
    · exact ⟨h.min, h.max⟩
    · exact Accumulator.wellFormed_feed h fun v hv => Row.wf_getField hrows.1 hv

theorem wf_value (agg : ResolvedAggregate) {rows : List Row}
    (hrows : ∀ row ∈ rows, row.WellFormed) : (agg.value rows).wf = true := by
  have hnew : (Accumulator.new agg.function agg.distinct).WellFormed := ⟨nofun, nofun⟩
  have h := wellFormed_foldl agg hrows hnew
  unfold ResolvedAggregate.value Accumulator.result
  generalize rows.foldl agg.feed (.new agg.function agg.distinct) = acc at h
  cases acc.function with
  | count => rfl
  | sum =>
    dsimp only
    split
    · rfl
    · cases acc.numericMode <;> rfl
  | avg =>
    dsimp only
    split
    · rfl
    · cases acc.numericMode <;> rfl
  | min =>
    cases hmin : acc.min with
    | none => rfl
    | some v => exact h.min v hmin
  | max =>
    cases hmax : acc.max with
    | none => rfl
    | some v => exact h.max v hmax

end ResolvedAggregate

omit [External] [ValueText] [Arithmetic] [Numerics] in
theorem storeField_ok (doc : Document) (name : String) {value : Value} (h : value.wf = true) :
    storeField doc name value = .ok (doc.insertField name value h) := dif_pos h

/-- Each aggregate ends up in the column of its name. -/
theorem storeAggregates_ok {rows : List Row} (hrows : ∀ row ∈ rows, row.WellFormed)
    (aggs : List ResolvedAggregate) (hnodup : (aggs.map (·.aliasName)).Nodup) (doc : Document) :
    ∃ doc', storeAggregates rows doc aggs = .ok doc' ∧
      (∀ agg ∈ aggs, doc'.fields.lookup agg.aliasName = some (agg.value rows)) ∧
      ∀ name, name ∉ aggs.map (·.aliasName) → doc'.fields.lookup name = doc.fields.lookup name := by
  induction aggs generalizing doc with
  | nil => exact ⟨doc, rfl, nofun, fun _ _ => rfl⟩
  | cons agg aggs ih =>
    rw [List.map_cons, List.nodup_cons] at hnodup
    obtain ⟨doc', hstore, haggs, hrest⟩ := ih hnodup.2
      (doc.insertField agg.aliasName (agg.value rows) (agg.wf_value hrows))
    refine ⟨doc', ?_, ?_, fun name hname => ?_⟩
    · rw [storeAggregates, storeField_ok _ _ (agg.wf_value hrows)]
      exact hstore
    · rw [List.forall_mem_cons]
      refine ⟨?_, haggs⟩
      rw [hrest _ hnodup.1, Document.lookup_insertField, if_pos rfl]
    · rw [List.map_cons, List.mem_cons, not_or] at hname
      rw [hrest name hname.2, Document.lookup_insertField, if_neg (Ne.symm hname.1)]

omit [External] [ValueText] [Arithmetic] [Numerics] in
theorem storeFields_ok (entries : List (String × Value)) (h : ∀ e ∈ entries, e.2.wf = true)
    (doc : Document) : ∃ doc', storeFields doc entries = .ok doc' := by
  induction entries generalizing doc with
  | nil => exact ⟨doc, rfl⟩
  | cons e entries ih =>
    rw [List.forall_mem_cons] at h
    rw [storeFields, storeField_ok _ _ h.1]
    exact ih h.2 _

/-- `aggregateOp` yields one row, with each aggregate in the column of its name. -/
theorem aggregateOp_ok {rows : List Row} (hrows : ∀ row ∈ rows, row.WellFormed)
    {aggs : List ResolvedAggregate} (hnodup : (aggs.map (·.aliasName)).Nodup) :
    ∃ doc, aggregateOp aggs rows = .ok [.fromDoc doc] ∧
      ∀ agg ∈ aggs, doc.fields.lookup agg.aliasName = some (agg.value rows) := by
  obtain ⟨doc, hstore, haggs, -⟩ := storeAggregates_ok hrows aggs hnodup ⟨"", [], by decide⟩
  exact ⟨doc, by rw [aggregateOp, hstore]; rfl, haggs⟩

/-- So does `groupAggregateOp` for each group. -/
theorem groupRow_ok {group : List Row} (hrows : ∀ row ∈ group, row.WellFormed)
    {aggs : List ResolvedAggregate} (hnodup : (aggs.map (·.aliasName)).Nodup)
    (fields : List String) :
    ∃ doc, groupRow fields aggs group = .ok (.fromDoc doc) ∧
      ∀ agg ∈ aggs, doc.fields.lookup agg.aliasName = some (agg.value group) := by
  have hvalues : ∀ v ∈ ((group.head?).map (groupValues fields)).getD [], v.wf = true := by
    intro v hv
    cases group with
    | nil => cases hv
    | cons row rows =>
      obtain ⟨f, -, rfl⟩ := List.mem_map.mp hv
      cases hget : row.getField f with
      | none => rfl
      | some w => exact Row.wf_getField (hrows row List.mem_cons_self) hget
  obtain ⟨doc, hfields⟩ := storeFields_ok
    (fields.zip (((group.head?).map (groupValues fields)).getD []))
    (fun e he => hvalues e.2 (List.of_mem_zip he).2) ⟨"", [], by decide⟩
  obtain ⟨doc', hstore, haggs, -⟩ := storeAggregates_ok hrows aggs hnodup doc
  refine ⟨doc', ?_, haggs⟩
  unfold groupRow
  dsimp only
  rw [hfields]
  show (storeAggregates group doc aggs).map Row.fromDoc = _
  rw [hstore]
  rfl

/-! ## The columns are the calls -/

/-- A row with the aggregates in their columns keeps a call whose name is no path and is not
shared by a call of another value. -/
theorem columnKept (ctx : AstContext) {calls : List AggregateCall} {aggs : List ResolvedAggregate}
    (h : AstExpr.Collected calls aggs) {rows : List Row} {doc : Document}
    (hdoc : ∀ agg ∈ aggs, doc.fields.lookup agg.aliasName = some (agg.value rows))
    {call : AggregateCall} (hcall : call ∈ calls) (hknown : call.resolve.isSome = true)
    (hdot : '.' ∉ call.aggAlias.toList)
    (hnames : ∀ call' ∈ calls, call'.aggAlias = call.aggAlias → call'.value rows = call.value rows) :
    AstExpr.ColumnKept ctx (.fromDoc doc) (·.value rows) call := by
  obtain ⟨agg, hagg, hname⟩ := h.named call hcall hknown
  obtain ⟨call', hcall', hres⟩ := h.resolved agg hagg
  have halias : call'.aggAlias = call.aggAlias :=
    (AstExpr.aliasName_of_resolve hres).symm.trans hname
  -- the column has the value of the first call of the name
  have hlookup : doc.fields.lookup call.aggAlias = some (call.value rows) := by
    rw [← hname, hdoc agg hagg, ← hnames call' hcall' halias, AggregateCall.value, hres]
    rfl
  have hid : call.aggAlias ≠ "id" := by
    intro heq
    have hparen : '(' ∈ call.aggAlias.toList := by
      unfold AggregateCall.aggAlias
      cases call.arg <;> simp
    rw [heq] at hparen
    exact absurd hparen (by decide)
  have hget : (Row.fromDoc doc).getField call.aggAlias = some (call.value rows) := by
    show (if call.aggAlias = "id" then _ else doc.fields.lookup call.aggAlias) = _
    rw [if_neg hid, hlookup]
  constructor
  · rw [evalField_plain hdot, hget]
    rfl
  · unfold AstContext.hasField
    rw [if_neg hdot]
    show (_ || (doc.fields.lookup call.aggAlias).isSome) = true
    rw [hlookup]
    simp

open AstExpr in
/-- The condition on the aggregates of some expressions, over the rows they are computed from:
the walk gets to all of them, no name has a dot, and calls of one name have one value. -/
structure AggregatesApart (exprs : List AstExpr) (rows : List Row) : Prop where
  reached : missesInList exprs = false
  undotted : ∀ call ∈ reachedInList exprs, '.' ∉ call.aggAlias.toList
  named : ∀ call ∈ reachedInList exprs, ∀ call' ∈ reachedInList exprs,
    call.aggAlias = call'.aggAlias → call.value rows = call'.value rows

/-- On a row, every rewritten expression has the value of the expression it stands for, with each
call replaced by its own value over the rows. -/
def KeepsAggregates (ctx : AstContext) (exprs : List AstExpr) (rows : List Row) (row : Row) : Prop :=
  ∀ e ∈ exprs.zip (AstExpr.extractFromList exprs []).1,
    evalAst ctx row e.2 = evalAst ctx row (e.1.replaceAggregates (·.value rows))

end Operator

/-! ## Two sales -/

namespace Sales

local instance : External := .standIn

local instance : Numerics := .standIn

local instance : ValueText := .standIn

local instance : Arithmetic := .standIn

def sale (id : String) : Document where
  id := id
  fields := [("price", .int 3)]
  wf := rfl

/-- Two sales of one price. -/
def rows : List Row := [.fromDoc (sale "sales:1"), .fromDoc (sale "sales:2")]

def context : AstContext where
  base := People.context
  callFunction _ _ _ := .error (.other "unknown function")
  constant _ _ := .error (.other "unknown constant")
  scope _ := .error (.other "undefined variable")

def count (field : String) (distinct : Bool) : AstExpr := .aggregate ⟨none, "COUNT", .field field, distinct⟩

/-- `[COUNT(price)]` -/
def counted : AstExpr := .array [count "price" false]

/-- What an expression gives as a column expression, and what it means. -/
def given (e : AstExpr) : Except ExecuteError Value :=
  match aggregateOp (e.extractAggregates []).2 rows with
  | .ok [row] => evalAst context row (e.extractAggregates []).1
  | .ok _ => .error (.other "rows")
  | .error err => .error err

def meant (e : AstExpr) : Except ExecuteError Value :=
  evalAst context (.fromDoc ⟨"", [], Value.wf_no_fields⟩) (e.replaceAggregates (·.value rows))

def equals (v w : Value) : Bool := v.beq w

end Sales

end StellarDb
