import StellarDb.Query.Eval

/-!
# StellarDb — predicate analysis and access paths (`query/optimize`)

A predicate is split into conjuncts, each conjunct is classified by the indexes at hand, and
every way to fetch the documents becomes an `AccessPath`: a lookup and the filter that has to
run on what it returns.

`accessPath_sound` is the contract of the analysis: on a row where the predicate evaluates,
the predicate holds exactly when the lookup's condition holds and the remaining filter passes,
whichever path is taken. The argument is about sets of conjuncts. `Splits` says that a list of
expressions stands for the predicate; it holds of the extracted conjuncts
(`splits_extractConjuncts`), and each path removes from the list what its lookup already says.
-/

namespace StellarDb

/-! ## Plans -/

inductive RangeOp where
  | gt | gte | lt | lte
  deriving DecidableEq, Repr

/-- How to look up in the index. -/
inductive IndexLookup where
  | eq (field : String) (value : Value)
  | range (field : String) (op : RangeOp) (value : Value)
  | rangeBetween (field : String) (lower : Value) (lowerInclusive : Bool) (upper : Value)
      (upperInclusive : Bool)
  | compoundEq (fieldValues : List (String × Value))
  | «in» (field : String) (values : List Value)

structure IndexRef where
  collection : String
  fields : List String
  deriving DecidableEq, Repr

/-! ## Index definitions, as the planner finds them -/

/-- The first index of any type whose first field is `field`; the planner gets the field back. -/
def findIndexForField (indexes : List IndexDef) (field : String) : Option (List String) :=
  (indexes.find? (·.fields.head? = some field)).map fun idx => [idx.fields.headD ""]

/-- The first index of any type that starts with the given fields, in order. -/
def findCompoundIndex (indexes : List IndexDef) (fields : List String) : Option (List String) :=
  if fields.isEmpty then none
  else (indexes.find? fun idx => fields.isPrefixOf idx.fields).map (·.fields)

theorem findCompoundIndex_spec {indexes : List IndexDef} {fields found : List String}
    (h : findCompoundIndex indexes fields = some found) :
    ∃ idx ∈ indexes, idx.fields = found ∧ fields <+: idx.fields := by
  unfold findCompoundIndex at h
  split at h
  · cases h
  · obtain ⟨idx, hidx, rfl⟩ := Option.map_eq_some_iff.mp h
    have hpre : fields.isPrefixOf idx.fields = true := by
      simpa only using List.find?_some hidx
    exact ⟨idx, List.mem_of_find?_eq_some hidx, rfl, List.isPrefixOf_iff_prefix.mp hpre⟩

/-! ## Conjuncts (`optimize/predicate.rs`) -/

section Predicate

variable {Ω : Type}

inductive Conjunct (Ω : Type) where
  /-- Single atomic expression. -/
  | atom (e : Expr Ω)
  /-- OR group within AND. -/
  | disjunction (branches : List (Conjunct Ω))

inductive IndexableOp where
  | eq | gt | gte | lt | lte | «in»
  deriving DecidableEq, Repr

inductive IndexValue where
  | single (v : Value)
  | list (vs : List Value)

/-- Classified predicate part. -/
inductive PredicatePart (Ω : Type) where
  | indexable (field : String) (op : IndexableOp) (value : IndexValue) (original : Expr Ω)
  | disjunctionGroup (branches : List (PredicatePart Ω)) (original : Expr Ω)
  | filterOnly (e : Expr Ω)

/-- Extract disjuncts from an OR expression. -/
def extractDisjuncts : Expr Ω → List (Conjunct Ω)
  | .binaryOp left .or right => extractDisjuncts left ++ extractDisjuncts right
  | other => [.atom other]

/-- Extract top-level conjuncts from an AND expression. -/
def extractConjuncts : Expr Ω → List (Conjunct Ω)
  | .binaryOp left .and right => extractConjuncts left ++ extractConjuncts right
  | .binaryOp left .or right => [.disjunction (extractDisjuncts (.binaryOp left .or right))]
  | other => [.atom other]

/-- `reduce` with a connective. -/
def combine (c : Connective) : List (Expr Ω) → Option (Expr Ω)
  | [] => none
  | e :: es => some (es.foldl (fun a b => .binaryOp a c.op b) e)

mutual

def Conjunct.expr : Conjunct Ω → Expr Ω
  | .atom e => e
  | .disjunction inner => (combine .or (exprsOf inner)).getD (.literal (.bool false))

def exprsOf : List (Conjunct Ω) → List (Expr Ω)
  | [] => []
  | b :: branches => b.expr :: exprsOf branches

end

/-- Reconstruct the OR expression from disjuncts. -/
def reconstructOr (branches : List (Conjunct Ω)) : Expr Ω :=
  (combine .or (exprsOf branches)).getD (.literal (.bool false))

/-- Get the original expression. -/
def PredicatePart.originalExpr : PredicatePart Ω → Expr Ω
  | .indexable _ _ _ original => original
  | .disjunctionGroup _ original => original
  | .filterOnly e => e

/-- The comparisons an index can answer. -/
def IndexableOp.ofBinaryOp : BinaryOp → Option IndexableOp
  | .eq => some .eq
  | .gt => some .gt
  | .gte => some .gte
  | .lt => some .lt
  | .lte => some .lte
  | _ => none

/-- The value of a literal. -/
def Expr.literal? : Expr Ω → Option Value
  | .literal v => some v
  | _ => none

/-- Classify a single atomic expression. -/
def classifyAtom (indexes : List IndexDef) (expr : Expr Ω) : PredicatePart Ω :=
  match expr with
  | .binaryOp (.field field) op (.literal value) =>
    match IndexableOp.ofBinaryOp op, findIndexForField indexes field with
    | some iop, some _ => .indexable field iop (.single value) expr
    | _, _ => .filterOnly expr
  | .inList (.field field) list false =>
    match list.mapM Expr.literal?, findIndexForField indexes field with
    | some vals, some _ => .indexable field .in (.list vals) expr
    | _, _ => .filterOnly expr
  | _ => .filterOnly expr

mutual

/-- Classify a conjunct based on available indexes. -/
def classifyConjunct (indexes : List IndexDef) : Conjunct Ω → PredicatePart Ω
  | .atom expr => classifyAtom indexes expr
  | .disjunction branches =>
    .disjunctionGroup (classifyAll indexes branches) (reconstructOr branches)

def classifyAll (indexes : List IndexDef) : List (Conjunct Ω) → List (PredicatePart Ω)
  | [] => []
  | c :: conjuncts => classifyConjunct indexes c :: classifyAll indexes conjuncts

end

/-! ## Access paths (`optimize/access_path.rs`) -/

inductive AccessMethod where
  | tableScan
  | indexScan (index : IndexRef) (lookup : IndexLookup)
  | union (branches : List (IndexRef × IndexLookup)) (needsDedup : Bool)

structure AccessPath (Ω : Type) where
  method : AccessMethod
  score : Nat
  remainingFilter : Option (Expr Ω)

/-- Count predicates in an expression, for the filter penalty. -/
def countPredicates : Expr Ω → Nat
  | .binaryOp left .and right => countPredicates left + countPredicates right
  | .binaryOp left .or right => countPredicates left + countPredicates right
  | _ => 1

def filterPenalty (remaining : Option (Expr Ω)) : Nat :=
  (remaining.map fun e => countPredicates e * 2).getD 0

def scoreLookup : IndexLookup → Nat
  | .eq _ _ => 1
  | .in _ values => 5 + (values.length - 1) * 2
  | .rangeBetween _ _ _ _ _ => 15
  | .range _ _ _ => 20
  | .compoundEq fieldValues => 1 - fieldValues.length / 2

/-- The lookup of an indexable part; the other combinations are never built. -/
def lookupFor (field : String) : IndexableOp → IndexValue → Option IndexLookup
  | .eq, .single v => some (.eq field v)
  | .in, .list vals => some (.in field vals)
  | .gt, .single v => some (.range field .gt v)
  | .gte, .single v => some (.range field .gte v)
  | .lt, .single v => some (.range field .lt v)
  | .lte, .single v => some (.range field .lte v)
  | _, _ => none

namespace AccessPath

def tableScan (remaining : Option (Expr Ω)) : AccessPath Ω where
  method := .tableScan
  score := 1000 + filterPenalty remaining
  remainingFilter := remaining

/-- `none` stands for the `unreachable!` of an invalid operator and value. -/
def indexScan (collection field : String) (op : IndexableOp) (value : IndexValue)
    (remaining : Option (Expr Ω)) : Option (AccessPath Ω) :=
  (lookupFor field op value).map fun lookup =>
    { method := .indexScan ⟨collection, [field]⟩ lookup
      score := scoreLookup lookup + filterPenalty remaining
      remainingFilter := remaining }

def compoundIndexScan (collection : String) (indexFields : List String)
    (fieldValues : List (String × Value)) (remaining : Option (Expr Ω)) : AccessPath Ω where
  method := .indexScan ⟨collection, indexFields⟩ (.compoundEq fieldValues)
  score := 1 - fieldValues.length / 2 + filterPenalty remaining
  remainingFilter := remaining

def union (branches : List (IndexRef × IndexLookup)) (needsDedup : Bool)
    (remaining : Option (Expr Ω)) : AccessPath Ω where
  method := .union branches needsDedup
  score := (branches.map fun b => scoreLookup b.2).sum + branches.length * 10 +
    filterPenalty remaining
  remainingFilter := remaining

end AccessPath

/-- Combine expressions with AND. -/
def combineExprs (exprs : List (Expr Ω)) : Option (Expr Ω) := combine .and exprs

/-- Combine all parts except those at some positions into a filter expression. -/
def combinePartsExceptMultiple (parts : List (PredicatePart Ω)) (exceptIndices : List Nat) :
    Option (Expr Ω) :=
  combineExprs ((parts.zipIdx.filter fun p => p.2 ∉ exceptIndices).map (·.1.originalExpr))

def combinePartsExcept (parts : List (PredicatePart Ω)) (exceptIndex : Nat) : Option (Expr Ω) :=
  combinePartsExceptMultiple parts [exceptIndex]

def combinePartsToFilter (parts : List (PredicatePart Ω)) : Option (Expr Ω) :=
  combineExprs (parts.map (·.originalExpr))

/-- Extract `field = value` from an expression. -/
def extractEqCondition : Expr Ω → Option (String × Value)
  | .binaryOp (.field field) .eq (.literal value) => some (field, value)
  | _ => none

/-- The equality of a part, also of one that no single index serves. -/
def PredicatePart.eqCondition : PredicatePart Ω → Option (String × Value)
  | .indexable field .eq (.single v) _ => some (field, v)
  | .filterOnly e => extractEqCondition e
  | _ => none

/-- All equality conditions with the positions of their parts. -/
def eqConditions (parts : List (PredicatePart Ω)) : List (String × Value × Nat) :=
  parts.zipIdx.filterMap fun p => p.1.eqCondition.map fun c => (c.1, c.2, p.2)

/-- All increasing lists of `k` numbers from `start` to `n - 1`, in lexicographic order. -/
def combinationsFrom (n : Nat) : Nat → Nat → List (List Nat)
  | 0, _ => [[]]
  | k + 1, start =>
    (List.range' start (n - k - start)).flatMap fun i =>
      (combinationsFrom n k (i + 1)).map (i :: ·)

def combinations (n k : Nat) : List (List Nat) := combinationsFrom n k 0

/-- The compound index for the largest combination of equality fields that leads one. -/
def findCompoundFor (indexes : List IndexDef) (fields : List String) : Option (List String) :=
  ((List.range' 2 (fields.length - 1)).reverse.flatMap (combinations fields.length)).findSome?
    fun indices => findCompoundIndex indexes (indices.map fun i => fields.getD i "")

/-- For each index field the first condition on it, in index order. -/
def fillFields {β : Type} (conditions : List (String × β)) (indexFields : List String) :
    List (String × β) :=
  indexFields.filterMap fun idxField => conditions.find? (·.1 = idxField)

/-- Try to build a compound index scan from multiple equality conditions. -/
def tryBuildCompoundIndex (indexes : List IndexDef) (collection : String)
    (parts : List (PredicatePart Ω)) : Option (AccessPath Ω) :=
  let conditions := eqConditions parts
  if conditions.length < 2 then none
  else
    (findCompoundFor indexes (conditions.map (·.1))).map fun indexFields =>
      let used := fillFields conditions indexFields
      .compoundIndexScan collection indexFields (used.map fun c => (c.1, c.2.1))
        (combinePartsExceptMultiple parts (used.map (·.2.2)))

/-- The field of a lookup. -/
def IndexLookup.field : IndexLookup → String
  | .eq field _ => field
  | .in field _ => field
  | .range field _ _ => field
  | .rangeBetween field _ _ _ _ => field
  | .compoundEq fieldValues => (fieldValues.head?.map (·.1)).getD ""

/-- The loop over branches on one field: safe only if all are equalities of distinct values. -/
def dedupLoop : List Value → List IndexLookup → Bool
  | _, [] => false
  | seen, .eq _ value :: rest =>
    if seen.any (·.beq value) then true else dedupLoop (seen ++ [value]) rest
  | _, _ :: _ => true

/-- Check if union results need deduplication. -/
def computeUnionNeedsDedup (branches : List (IndexRef × IndexLookup)) : Bool :=
  match branches with
  | [] | [_] => false
  | first :: _ =>
    if branches.all fun b => b.2.field = first.2.field then
      dedupLoop [] (branches.map (·.2))
    else true

/-- The lookup of one branch of a union. -/
def PredicatePart.branchLookup (collection : String) :
    PredicatePart Ω → Option (IndexRef × IndexLookup)
  | .indexable field op value _ =>
    (lookupFor field op value).map fun l => (⟨collection, [field]⟩, l)
  | _ => none

/-- Try to build a union path from a disjunction where all branches are indexable. -/
def tryBuildUnion (collection : String) (branches allParts : List (PredicatePart Ω))
    (disjIndex : Nat) : Option (AccessPath Ω) :=
  (branches.mapM (PredicatePart.branchLookup collection)).map fun lookups =>
    .union lookups (computeUnionNeedsDedup lookups) (combinePartsExcept allParts disjIndex)

/-- Generate all reasonable access paths from classified predicates. -/
def generateAccessPaths (indexes : List IndexDef) (collection : String)
    (parts : List (PredicatePart Ω)) : List (AccessPath Ω) :=
  [.tableScan (combinePartsToFilter parts)] ++
  (parts.zipIdx.filterMap fun p =>
    match p.1 with
    | .indexable field op value _ =>
      AccessPath.indexScan collection field op value (combinePartsExcept parts p.2)
    | _ => none) ++
  (tryBuildCompoundIndex indexes collection parts).toList ++
  (parts.zipIdx.filterMap fun p =>
    match p.1 with
    | .disjunctionGroup branches _ => tryBuildUnion collection branches parts p.2
    | _ => none)

/-! ## What a lookup means -/

def RangeOp.toBinaryOp : RangeOp → BinaryOp
  | .gt => .gt
  | .gte => .gte
  | .lt => .lt
  | .lte => .lte

section Sound

variable [Numerics] (ctx : EvalContext Ω) (row : Row)

/-- The evaluator makes `field op value` true. -/
def Compares (field : String) (op : BinaryOp) (value : Value) : Prop :=
  Satisfies ctx row (.binaryOp (.field field) op (.literal value))

/-- The condition of a lookup. -/
def IndexLookup.Holds : IndexLookup → Prop
  | .eq field value => Compares ctx row field .eq value
  | .range field op value => Compares ctx row field op.toBinaryOp value
  | .rangeBetween field lower lowerInclusive upper upperInclusive =>
    Compares ctx row field (if lowerInclusive then .gte else .gt) lower ∧
      Compares ctx row field (if upperInclusive then .lte else .lt) upper
  | .compoundEq fieldValues => ∀ fv ∈ fieldValues, Compares ctx row fv.1 .eq fv.2
  | .in field values => ∃ v ∈ values, Compares ctx row field .eq v

def AccessMethod.Holds : AccessMethod → Prop
  | .tableScan => True
  | .indexScan _ lookup => lookup.Holds ctx row
  | .union branches _ => ∃ b ∈ branches, b.2.Holds ctx row

/-- A list of expressions stands for the predicate `p`: `p` passes when all of them do. They
all evaluate, and are logical as soon as there are two to be joined. -/
structure Splits (p : Expr Ω) (es : List (Expr Ω)) : Prop where
  evaluates : ∀ e ∈ es, Evaluates ctx row e
  logical : 2 ≤ es.length → ∀ e ∈ es, IsLogical ctx row e
  satisfies : Satisfies ctx row p ↔ ∀ e ∈ es, Satisfies ctx row e

variable {ctx row}

/-! ## Joining expressions -/

theorem foldl_and_spec (e : Expr Ω) (es : List (Expr Ω)) (he : IsLogical ctx row e)
    (hes : ∀ x ∈ es, IsLogical ctx row x) :
    IsLogical ctx row (es.foldl (fun a b => .binaryOp a .and b) e) ∧
      (Satisfies ctx row (es.foldl (fun a b => .binaryOp a .and b) e) ↔
        ∀ x ∈ e :: es, Satisfies ctx row x) := by
  induction es generalizing e with
  | nil => simp [he]
  | cons x es ih =>
    rw [List.forall_mem_cons] at hes
    obtain ⟨hlog, hsat⟩ := connective_spec (c := .and) he hes.1
    obtain ⟨hlog', hsat'⟩ := ih _ hlog hes.2
    refine ⟨hlog', hsat'.trans ?_⟩
    show (∀ y ∈ .binaryOp e .and x :: es, Satisfies ctx row y) ↔ _
    simp only [List.forall_mem_cons]
    exact (and_congr_left' hsat).trans and_assoc

theorem foldl_or_spec (e : Expr Ω) (es : List (Expr Ω)) (he : IsLogical ctx row e)
    (hes : ∀ x ∈ es, IsLogical ctx row x) :
    IsLogical ctx row (es.foldl (fun a b => .binaryOp a .or b) e) ∧
      (Satisfies ctx row (es.foldl (fun a b => .binaryOp a .or b) e) ↔
        ∃ x ∈ e :: es, Satisfies ctx row x) := by
  induction es generalizing e with
  | nil => simp [he]
  | cons x es ih =>
    rw [List.forall_mem_cons] at hes
    obtain ⟨hlog, hsat⟩ := connective_spec (c := .or) he hes.1
    obtain ⟨hlog', hsat'⟩ := ih _ hlog hes.2
    refine ⟨hlog', hsat'.trans ?_⟩
    show (∃ y ∈ .binaryOp e .or x :: es, Satisfies ctx row y) ↔ _
    simp only [List.exists_mem_cons_iff]
    exact (or_congr_left hsat).trans or_assoc

/-- The filter built from expressions that stand for something passes when all of them do. -/
theorem combineExprs_spec {es : List (Expr Ω)} (hev : ∀ e ∈ es, Evaluates ctx row e)
    (hlog : 2 ≤ es.length → ∀ e ∈ es, IsLogical ctx row e) :
    (∀ f ∈ combineExprs es, Evaluates ctx row f) ∧
      ((∀ f ∈ combineExprs es, Satisfies ctx row f) ↔ ∀ e ∈ es, Satisfies ctx row e) := by
  match es with
  | [] => simp [combineExprs, combine]
  | [e] => simpa [combineExprs, combine] using hev
  | e :: e' :: es =>
    have hall := hlog (by simp)
    rw [List.forall_mem_cons] at hall
    obtain ⟨hl, hs⟩ := foldl_and_spec e (e' :: es) hall.1 hall.2
    have hsome : combineExprs (e :: e' :: es) =
        some ((e' :: es).foldl (fun a b => .binaryOp a .and b) e) := rfl
    simp only [hsome, Option.mem_def, Option.some.injEq, forall_eq']
    exact ⟨hl.evaluates, hs⟩

/-- The leaves of a chain of `OR`s that evaluates are logical. -/
theorem isLogical_foldl_or {e : Expr Ω} {es : List (Expr Ω)} (hne : es ≠ [])
    (h : Evaluates ctx row (es.foldl (fun a b => .binaryOp a .or b) e)) :
    IsLogical ctx row e ∧ ∀ x ∈ es, IsLogical ctx row x := by
  induction es generalizing e with
  | nil => exact absurd rfl hne
  | cons x es ih =>
    rw [List.foldl_cons] at h
    have hop : IsLogical ctx row e ∧ IsLogical ctx row x ∧ ∀ y ∈ es, IsLogical ctx row y := by
      by_cases hes : es = []
      · subst hes
        obtain ⟨hl, hr⟩ := isLogical_operands (c := .or) h
        exact ⟨hl, hr, by simp⟩
      · obtain ⟨hhead, hrest⟩ := ih hes h
        obtain ⟨hl, hr⟩ := isLogical_operands (c := .or) hhead.evaluates
        exact ⟨hl, hr, hrest⟩
    exact ⟨hop.1, List.forall_mem_cons.mpr hop.2⟩

/-- A reconstructed disjunction passes when one of its branches does. -/
theorem satisfies_reconstructOr {branches : List (Conjunct Ω)}
    (h : Evaluates ctx row (reconstructOr branches)) :
    Satisfies ctx row (reconstructOr branches) ↔
      ∃ e ∈ exprsOf branches, Satisfies ctx row e := by
  unfold reconstructOr at h ⊢
  match hes : exprsOf branches with
  | [] =>
    simp only [combine, Option.getD_none, List.not_mem_nil, false_and, exists_false, iff_false]
    intro hsat
    cases hsat
  | [e] => simp [combine]
  | e :: e' :: es =>
    rw [hes] at h
    obtain ⟨hl, hr⟩ := isLogical_foldl_or (List.cons_ne_nil e' es) h
    exact (foldl_or_spec e (e' :: es) hl hr).2

/-! ## The extracted conjuncts stand for the predicate -/

omit [Numerics] in
theorem exprsOf_eq_map (cs : List (Conjunct Ω)) : exprsOf cs = cs.map Conjunct.expr := by
  induction cs with
  | nil => rfl
  | cons c cs ih => rw [exprsOf, ih, List.map_cons]

theorem extractDisjuncts_spec (e : Expr Ω) (h : IsLogical ctx row e) :
    exprsOf (extractDisjuncts e) ≠ [] ∧
    (∀ x ∈ exprsOf (extractDisjuncts e), IsLogical ctx row x) ∧
    (Satisfies ctx row e ↔ ∃ x ∈ exprsOf (extractDisjuncts e), Satisfies ctx row x) := by
  fun_induction extractDisjuncts e with
  | case1 left right ihl ihr =>
    obtain ⟨hl, hr⟩ := isLogical_operands (c := .or) h.evaluates
    obtain ⟨hnel, hlogl, hsatl⟩ := ihl hl
    obtain ⟨-, hlogr, hsatr⟩ := ihr hr
    have hsat := (connective_spec (c := .or) hl hr).2
    rw [exprsOf_eq_map] at hnel hlogl hsatl hlogr hsatr ⊢
    rw [List.map_append]
    refine ⟨by simp [hnel], List.forall_mem_append.mpr ⟨hlogl, hlogr⟩, hsat.trans ?_⟩
    rw [hsatl, hsatr]
    simp only [List.mem_append, or_and_right, exists_or]
  | case2 e _ =>
    refine ⟨by simp [exprsOf], ?_, by simp [exprsOf, Conjunct.expr]⟩
    simpa [exprsOf, Conjunct.expr] using h

theorem extractConjuncts_logical (p : Expr Ω) (h : IsLogical ctx row p) :
    (∀ x ∈ exprsOf (extractConjuncts p), IsLogical ctx row x) ∧
    (Satisfies ctx row p ↔ ∀ x ∈ exprsOf (extractConjuncts p), Satisfies ctx row x) := by
  fun_induction extractConjuncts p with
  | case1 left right ihl ihr =>
    obtain ⟨hl, hr⟩ := isLogical_operands (c := .and) h.evaluates
    obtain ⟨hlogl, hsatl⟩ := ihl hl
    obtain ⟨hlogr, hsatr⟩ := ihr hr
    have hsat := (connective_spec (c := .and) hl hr).2
    rw [exprsOf_eq_map] at hlogl hsatl hlogr hsatr ⊢
    rw [List.map_append, List.forall_mem_append, List.forall_mem_append, ← hsatl, ← hsatr]
    exact ⟨⟨hlogl, hlogr⟩, hsat⟩
  | case2 left right =>
    -- the disjuncts put together again are as good as the original OR
    obtain ⟨hne, hlog, hsat⟩ := extractDisjuncts_spec _ h
    simp only [exprsOf, Conjunct.expr, List.forall_mem_singleton]
    match hes : exprsOf (extractDisjuncts (.binaryOp left .or right)) with
    | [] => exact absurd hes hne
    | e :: es =>
      rw [hes, List.forall_mem_cons] at hlog
      rw [hes] at hsat
      obtain ⟨hlog', hsat'⟩ := foldl_or_spec e es hlog.1 hlog.2
      exact ⟨hlog', hsat.trans hsat'.symm⟩
  | case3 p _ _ => simpa [exprsOf, Conjunct.expr] using h

theorem splits_extractConjuncts {p : Expr Ω} (h : Evaluates ctx row p) :
    Splits ctx row p ((extractConjuncts p).map Conjunct.expr) := by
  have hconn : ∀ (l r : Expr Ω) (c : Connective), p = .binaryOp l c.op r →
      Splits ctx row p ((extractConjuncts p).map Conjunct.expr) := by
    rintro l r c rfl
    obtain ⟨hl, hr⟩ := isLogical_operands h
    obtain ⟨hlog, hsat⟩ := extractConjuncts_logical _ (connective_spec hl hr).1
    rw [exprsOf_eq_map] at hlog hsat
    exact ⟨fun e he => (hlog e he).evaluates, fun _ => hlog, hsat⟩
  match p with
  | .binaryOp l .and r => exact hconn l r .and rfl
  | .binaryOp l .or r => exact hconn l r .or rfl
  | .binaryOp _ .add _ | .binaryOp _ .sub _ | .binaryOp _ .mul _ | .binaryOp _ .div _
  | .binaryOp _ .eq _ | .binaryOp _ .ne _ | .binaryOp _ .gt _ | .binaryOp _ .gte _
  | .binaryOp _ .lt _ | .binaryOp _ .lte _ | .binaryOp _ .coalesce _
  | .literal _ | .field _ | .inList _ _ _ | .search _ _ | .other _ =>
    refine ⟨?_, by simp [extractConjuncts], by simp [extractConjuncts, Conjunct.expr]⟩
    simpa [extractConjuncts, Conjunct.expr] using h

/-! ## Lookups say what their conjuncts say -/

omit [Numerics] in
theorem mapM_literal? {list : List (Expr Ω)} {vals : List Value}
    (h : list.mapM Expr.literal? = some vals) : list = vals.map .literal := by
  induction list generalizing vals with
  | nil =>
    obtain rfl : [] = vals := by simpa using h
    rfl
  | cons e list ih =>
    rw [List.mapM_cons] at h
    simp only [Option.bind_eq_bind, Option.bind_eq_some_iff, Option.pure_def,
      Option.some.injEq] at h
    obtain ⟨v, hv, vs, hvs, rfl⟩ := h
    cases e with
    | literal w =>
      obtain rfl : w = v := by simpa [Expr.literal?] using hv
      rw [ih hvs, List.map_cons]
    | _ => cases hv

variable (ctx row) in
theorem evalInItems_literals (val : Value) (hasNull : Bool) (vals : List Value) :
    evalInItems ctx row val hasNull (vals.map .literal) = .ok (some true) ↔
      ∃ v ∈ vals, v.isNull = false ∧ valuesEqual val v = true := by
  induction vals generalizing hasNull with
  | nil => cases hasNull <;> simp [evalInItems]
  | cons v vals ih =>
    rw [List.map_cons, List.exists_mem_cons_iff, evalInItems, evalExpr]
    cases hnull : v.isNull with
    | true => simp [hnull, ih]
    | false =>
      cases heq : valuesEqual val v with
      | true => simp [hnull, heq]
      | false => simp [hnull, heq, ih]

variable (ctx row) in
theorem evalInItems_literals_ok (val : Value) (hasNull : Bool) (vals : List Value) :
    ∃ o, evalInItems ctx row val hasNull (vals.map .literal) = .ok o := by
  induction vals generalizing hasNull with
  | nil => exact ⟨_, rfl⟩
  | cons v vals ih =>
    rw [List.map_cons, evalInItems, evalExpr]
    show ∃ o, (if v.isNull = true then _ else _) = Except.ok o
    split
    · exact ih true
    · split
      · exact ⟨_, rfl⟩
      · exact ih hasNull

theorem compares_eq_iff {field : String} {value : Value} :
    Compares ctx row field .eq value ↔
      ∃ w, evalField ctx row field = .ok w ∧ w.isNull = false ∧ value.isNull = false ∧
        valuesEqual w value = true := by
  unfold Compares Satisfies evalFilter
  simp only [evalExpr]
  cases evalField ctx row field with
  | error err => simp [Except.map]
  | ok w =>
    cases hw : w.isNull <;> cases hv : value.isNull <;>
      simp [evalBinary, hw, hv, Except.map, Value.isTruthy]

/-- `IN` over literals is the disjunction of the equalities. -/
theorem satisfies_inList {field : String} {vals : List Value} :
    Satisfies ctx row (.inList (.field field) (vals.map .literal) false) ↔
      ∃ v ∈ vals, Compares ctx row field .eq v := by
  simp only [compares_eq_iff]
  unfold Satisfies evalFilter
  simp only [evalExpr]
  cases evalField ctx row field with
  | error err => simp [Except.map]
  | ok w =>
    simp only [Except.ok.injEq, exists_eq_left']
    cases hw : w.isNull with
    | true => simp [Except.map, Value.isTruthy]
    | false =>
      have hiff := evalInItems_literals ctx row w false vals
      obtain ⟨o, ho⟩ := evalInItems_literals_ok ctx row w false vals
      rw [ho] at hiff ⊢
      have hrhs : (∃ v ∈ vals, false = false ∧ v.isNull = false ∧ valuesEqual w v = true) ↔
          o = some true := by simpa using hiff.symm
      rw [hrhs]
      cases o with
      | none => simp [Except.map, Value.isTruthy]
      | some b => cases b <;> simp [Except.map, Value.isTruthy]

omit [Numerics] in
theorem originalExpr_classifyConjunct (indexes : List IndexDef) (c : Conjunct Ω) :
    (classifyConjunct indexes c).originalExpr = c.expr := by
  cases c with
  | atom e =>
    simp only [classifyConjunct, Conjunct.expr]
    unfold classifyAtom
    split
    · split <;> rfl
    · split <;> rfl
    · rfl
  | disjunction branches => simp only [classifyConjunct, Conjunct.expr]; rfl

omit [Numerics] in
theorem classifyAll_eq_map (indexes : List IndexDef) (cs : List (Conjunct Ω)) :
    classifyAll indexes cs = cs.map (classifyConjunct indexes) := by
  induction cs with
  | nil => rfl
  | cons c cs ih => rw [classifyAll, ih, List.map_cons]

/-- The lookup of an indexable conjunct holds exactly when the conjunct passes. -/
theorem branchLookup_sound {indexes : List IndexDef} {c : Conjunct Ω} {collection : String}
    {b : IndexRef × IndexLookup}
    (h : (classifyConjunct indexes c).branchLookup collection = some b) :
    Satisfies ctx row c.expr ↔ b.2.Holds ctx row := by
  cases c with
  | disjunction branches => simp only [classifyConjunct] at h; cases h
  | atom e =>
    simp only [classifyConjunct, Conjunct.expr] at h ⊢
    unfold classifyAtom at h
    split at h
    · next field op value =>
      split at h
      · next iop _ hop _ =>
        cases op <;> simp only [IndexableOp.ofBinaryOp, Option.some.injEq, reduceCtorEq] at hop <;>
          subst hop <;> cases h <;> rfl
      · cases h
    · next field list =>
      split at h
      · next vals _ hvals _ =>
        rw [mapM_literal? hvals]
        cases h
        exact satisfies_inList
      · cases h
    · cases h

omit [Numerics] in
/-- The parts that count as equalities are the equalities of a field with a literal. -/
theorem expr_of_eqCondition {indexes : List IndexDef} {c : Conjunct Ω} {field : String}
    {value : Value} (h : (classifyConjunct indexes c).eqCondition = some (field, value)) :
    c.expr = .binaryOp (.field field) .eq (.literal value) := by
  have hextract : ∀ e : Expr Ω, extractEqCondition e = some (field, value) →
      e = .binaryOp (.field field) .eq (.literal value) := by
    intro e he
    unfold extractEqCondition at he
    split at he
    · cases he; rfl
    · cases he
  cases c with
  | disjunction branches => simp only [classifyConjunct] at h; cases h
  | atom e =>
    simp only [classifyConjunct, Conjunct.expr] at h ⊢
    unfold classifyAtom at h
    split at h
    · next f op v =>
      split at h
      · next iop _ hop _ =>
        cases op <;> simp only [IndexableOp.ofBinaryOp, Option.some.injEq, reduceCtorEq] at hop <;>
          subst hop <;> cases h
        rfl
      · exact hextract _ h
    · split at h
      · cases h
      · exact hextract _ h
    · exact hextract _ h

/-! ## Every path -/

section Paths

variable {p : Expr Ω} {parts : List (PredicatePart Ω)}

omit [Numerics] in
/-- A condition on all parts is one on the parts that stay and one on the parts taken out. -/
theorem forall_originalExpr_iff (used : List Nat) (P : Expr Ω → Prop) :
    (∀ e ∈ parts.map (·.originalExpr), P e) ↔
      (∀ q ∈ parts.zipIdx, q.2 ∈ used → P q.1.originalExpr) ∧
      ∀ e ∈ (parts.zipIdx.filter fun q => q.2 ∉ used).map (·.1.originalExpr), P e := by
  have hmem : (∀ e ∈ parts.map (·.originalExpr), P e) ↔
      ∀ q ∈ parts.zipIdx, P q.1.originalExpr := by
    conv_lhs => rw [← List.zipIdx_map_fst 0 parts, List.map_map]
    exact List.forall_mem_map
  rw [hmem]
  simp only [List.forall_mem_map, List.mem_filter, decide_eq_true_eq, and_imp]
  exact ⟨fun h => ⟨fun q hq _ => h q hq, fun q hq _ => h q hq⟩,
    fun h q hq => by by_cases hu : q.2 ∈ used; exacts [h.1 q hq hu, h.2 q hq hu]⟩

/-- Taking some parts out and filtering by the rest gives back the predicate. -/
theorem Splits.except (h : Splits ctx row p (parts.map (·.originalExpr))) (used : List Nat) :
    (∀ f ∈ combinePartsExceptMultiple parts used, Evaluates ctx row f) ∧
      (Satisfies ctx row p ↔
        (∀ q ∈ parts.zipIdx, q.2 ∈ used → Satisfies ctx row q.1.originalExpr) ∧
        ∀ f ∈ combinePartsExceptMultiple parts used, Satisfies ctx row f) := by
  have hev := ((forall_originalExpr_iff used (Evaluates ctx row)).mp h.evaluates).2
  have hlog : 2 ≤ ((parts.zipIdx.filter fun q => q.2 ∉ used).map (·.1.originalExpr)).length →
      ∀ e ∈ (parts.zipIdx.filter fun q => q.2 ∉ used).map (·.1.originalExpr),
        IsLogical ctx row e := by
    intro hlen
    have hle : 2 ≤ (parts.map (·.originalExpr)).length := by
      refine hlen.trans ?_
      rw [List.length_map, List.length_map]
      exact (List.length_filter_le _ _).trans (by simp)
    exact ((forall_originalExpr_iff used (IsLogical ctx row)).mp (h.logical hle)).2
  obtain ⟨hev', hsat⟩ := combineExprs_spec hev hlog
  refine ⟨hev', h.satisfies.trans ((forall_originalExpr_iff used _).trans ?_)⟩
  exact and_congr_right' hsat.symm

omit [Numerics] in
theorem combinePartsToFilter_eq :
    combinePartsToFilter parts = combinePartsExceptMultiple parts [] := by
  unfold combinePartsToFilter combinePartsExceptMultiple
  conv_lhs => rw [← List.zipIdx_map_fst 0 parts, List.map_map]
  simp [Function.comp_def]

omit [Numerics] in
theorem eq_of_mem_zipIdx {a b : PredicatePart Ω} {i : Nat} (ha : (a, i) ∈ parts.zipIdx)
    (hb : (b, i) ∈ parts.zipIdx) : a = b := by
  have ha := List.mk_mem_zipIdx_iff_getElem?.mp ha
  have hb := List.mk_mem_zipIdx_iff_getElem?.mp hb
  exact Option.some.inj (ha.symm.trans hb)

/-- A path that takes out the one part whose lookup it uses. -/
theorem Splits.except_one (h : Splits ctx row p (parts.map (·.originalExpr)))
    {part : PredicatePart Ω} {i : Nat} (hi : (part, i) ∈ parts.zipIdx) {cond : Prop}
    (hcond : Satisfies ctx row part.originalExpr ↔ cond) :
    (∀ f ∈ combinePartsExcept parts i, Evaluates ctx row f) ∧
      (Satisfies ctx row p ↔ cond ∧ ∀ f ∈ combinePartsExcept parts i, Satisfies ctx row f) := by
  obtain ⟨hev, hsat⟩ := h.except [i]
  refine ⟨hev, hsat.trans (and_congr_left' ?_)⟩
  rw [← hcond]
  constructor
  · exact fun hall => hall _ hi (List.mem_singleton.mpr rfl)
  · intro hpart q hq hqi
    have hqi : q.2 = i := List.mem_singleton.mp hqi
    have hq : q = (part, i) := by
      subst hqi
      rw [← eq_of_mem_zipIdx hq hi]
    rw [hq]
    exact hpart

/-- The branches of a disjunction and their lookups. -/
theorem exists_holds_iff {indexes : List IndexDef} {collection : String}
    {branches : List (Conjunct Ω)} {lookups : List (IndexRef × IndexLookup)}
    (h : (classifyAll indexes branches).mapM (PredicatePart.branchLookup collection) =
      some lookups) :
    (∃ e ∈ exprsOf branches, Satisfies ctx row e) ↔ ∃ b ∈ lookups, b.2.Holds ctx row := by
  induction branches generalizing lookups with
  | nil =>
    obtain rfl : [] = lookups := by simpa [classifyAll] using h
    simp [exprsOf]
  | cons c branches ih =>
    rw [classifyAll, List.mapM_cons] at h
    simp only [Option.bind_eq_bind, Option.bind_eq_some_iff, Option.pure_def,
      Option.some.injEq] at h
    obtain ⟨b, hb, bs, hbs, rfl⟩ := h
    rw [exprsOf, List.exists_mem_cons_iff, List.exists_mem_cons_iff, ih hbs,
      branchLookup_sound hb]

omit [Numerics] in
theorem disjunction_of_group {indexes : List IndexDef} {c : Conjunct Ω}
    {branches : List (PredicatePart Ω)} {original : Expr Ω}
    (h : classifyConjunct indexes c = .disjunctionGroup branches original) :
    ∃ ds, c = .disjunction ds ∧ branches = classifyAll indexes ds := by
  cases c with
  | disjunction ds =>
    simp only [classifyConjunct] at h
    cases h
    exact ⟨ds, rfl, rfl⟩
  | atom e =>
    simp only [classifyConjunct] at h
    unfold classifyAtom at h
    split at h
    · split at h <;> cases h
    · split at h <;> cases h
    · cases h

omit [Numerics] in
theorem mem_eqConditions {c : String × Value × Nat} (hc : c ∈ eqConditions parts) :
    ∃ part, (part, c.2.2) ∈ parts.zipIdx ∧ part.eqCondition = some (c.1, c.2.1) := by
  obtain ⟨q, hq, hcond⟩ := List.mem_filterMap.mp hc
  obtain ⟨e, he, rfl⟩ := Option.map_eq_some_iff.mp hcond
  exact ⟨q.1, hq, he⟩

omit [Numerics] in
theorem mem_of_mem_fillFields {β : Type} {conditions : List (String × β)}
    {indexFields : List String} {c : String × β} (h : c ∈ fillFields conditions indexFields) :
    c ∈ conditions := by
  obtain ⟨f, -, hf⟩ := List.mem_filterMap.mp h
  exact List.mem_of_find?_eq_some hf

/-- The compound path takes out one equality for each field it binds; further equalities on
the same field stay in the filter. -/
theorem compound_sound {indexes : List IndexDef} {collection : String} {path : AccessPath Ω}
    (h : Splits ctx row p (parts.map (·.originalExpr)))
    (hparts : ∀ part ∈ parts, ∃ c, part = classifyConjunct indexes c)
    (hpath : tryBuildCompoundIndex indexes collection parts = some path) :
    (∀ f ∈ path.remainingFilter, Evaluates ctx row f) ∧
      (Satisfies ctx row p ↔
        path.method.Holds ctx row ∧ ∀ f ∈ path.remainingFilter, Satisfies ctx row f) := by
  unfold tryBuildCompoundIndex at hpath
  simp only at hpath
  split at hpath
  · cases hpath
  · obtain ⟨indexFields, -, rfl⟩ := Option.map_eq_some_iff.mp hpath
    set used := fillFields (eqConditions parts) indexFields with hused
    obtain ⟨hev, hsat⟩ := h.except (used.map (·.2.2))
    refine ⟨hev, hsat.trans (and_congr_left' ?_)⟩
    show _ ↔ ∀ fv ∈ used.map fun c => (c.1, c.2.1), Compares ctx row fv.1 .eq fv.2
    rw [List.forall_mem_map]
    -- each used condition is the whole of the part it came from
    have hexpr : ∀ c ∈ used, ∀ part, (part, c.2.2) ∈ parts.zipIdx →
        part.originalExpr = .binaryOp (.field c.1) .eq (.literal c.2.1) := by
      intro c hc part hpart
      obtain ⟨part', hpart', hcond⟩ := mem_eqConditions (mem_of_mem_fillFields hc)
      obtain rfl := eq_of_mem_zipIdx hpart hpart'
      obtain ⟨conj, rfl⟩ := hparts part (List.fst_mem_of_mem_zipIdx hpart)
      rw [originalExpr_classifyConjunct, expr_of_eqCondition hcond]
    constructor
    · intro hall c hc
      obtain ⟨part, hpart, -⟩ := mem_eqConditions (mem_of_mem_fillFields hc)
      have := hall _ hpart (List.mem_map_of_mem hc)
      rwa [hexpr c hc part hpart] at this
    · intro hall q hq hqu
      obtain ⟨c, hc, hcq⟩ := List.mem_map.mp hqu
      rw [hexpr c hc q.1 (by rw [hcq]; exact hq)]
      exact hall c hc

end Paths

/-- Predicate rewriting is sound on every access path. -/
theorem accessPath_sound (ctx : EvalContext Ω) (row : Row) (indexes : List IndexDef)
    (collection : String) (p : Expr Ω) (hp : Evaluates ctx row p) (path : AccessPath Ω)
    (hpath : path ∈ generateAccessPaths indexes collection
      (classifyAll indexes (extractConjuncts p))) :
    (∀ f ∈ path.remainingFilter, ∃ b, evalFilter ctx f row = .ok b) ∧
      (evalFilter ctx p row = .ok true ↔
        path.method.Holds ctx row ∧
          ∀ f ∈ path.remainingFilter, evalFilter ctx f row = .ok true) := by
  set parts := classifyAll indexes (extractConjuncts p) with hparts
  rw [classifyAll_eq_map] at hparts
  have hclass : ∀ part ∈ parts, ∃ c, part = classifyConjunct indexes c := by
    rw [hparts]
    exact List.forall_mem_map.mpr fun c _ => ⟨c, rfl⟩
  have hsplit : Splits ctx row p (parts.map (·.originalExpr)) := by
    rw [hparts, List.map_map]
    simpa only [Function.comp_def, originalExpr_classifyConjunct] using
      splits_extractConjuncts hp
  suffices h : (∀ f ∈ path.remainingFilter, Evaluates ctx row f) ∧
      (Satisfies ctx row p ↔
        path.method.Holds ctx row ∧ ∀ f ∈ path.remainingFilter, Satisfies ctx row f) from
    ⟨fun f hf => (h.1 f hf).filter, h.2⟩
  unfold generateAccessPaths at hpath
  rw [List.mem_append, List.mem_append, List.mem_append] at hpath
  rcases hpath with ((htable | hindex) | hcompound) | hunion
  · -- table scan: nothing is taken out
    obtain rfl := List.mem_singleton.mp htable
    show (∀ f ∈ combinePartsToFilter parts, _) ∧
      (_ ↔ True ∧ ∀ f ∈ combinePartsToFilter parts, _)
    rw [combinePartsToFilter_eq]
    obtain ⟨hev, hsat⟩ := hsplit.except []
    exact ⟨hev, hsat.trans (and_congr_left' (by simp))⟩
  · -- one index: the part is taken out and its lookup says the same
    obtain ⟨⟨part, i⟩, hi, hpart⟩ := List.mem_filterMap.mp hindex
    obtain ⟨c, rfl⟩ := hclass part (List.fst_mem_of_mem_zipIdx hi)
    split at hpart
    · next field op value original hc =>
      obtain ⟨lookup, hlookup, rfl⟩ := Option.map_eq_some_iff.mp hpart
      refine hsplit.except_one hi ?_
      rw [originalExpr_classifyConjunct]
      have hb : (classifyConjunct indexes c).branchLookup collection =
          some (⟨collection, [field]⟩, lookup) := by
        rw [show classifyConjunct indexes c = _ from hc, PredicatePart.branchLookup, hlookup]
        rfl
      exact branchLookup_sound hb
    · cases hpart
  · exact compound_sound hsplit hclass (Option.mem_toList.mp hcompound)
  · -- union: the disjunction is taken out and its branches say the same
    obtain ⟨⟨part, i⟩, hi, hpart⟩ := List.mem_filterMap.mp hunion
    obtain ⟨c, rfl⟩ := hclass part (List.fst_mem_of_mem_zipIdx hi)
    split at hpart
    · next branches original hc =>
      obtain ⟨lookups, hlookups, rfl⟩ := Option.map_eq_some_iff.mp hpart
      obtain ⟨ds, rfl, rfl⟩ := disjunction_of_group hc
      refine hsplit.except_one hi ?_
      have hev : Evaluates ctx row (reconstructOr ds) := by
        have := hsplit.evaluates _ (List.mem_map_of_mem (List.fst_mem_of_mem_zipIdx hi))
        rwa [originalExpr_classifyConjunct] at this
      rw [originalExpr_classifyConjunct]
      exact (satisfies_reconstructOr hev).trans (exists_holds_iff hlookups)
    · cases hpart

end Sound

end Predicate

/-! ### One predicate on one document -/

namespace People

local instance : Numerics := .standIn

/-- A context without stored documents and without other kinds of expression. -/
def context : EvalContext Empty where
  getDocument _ _ := .ok none
  arith _ _ _ := .error .divisionByZero
  valueRepr _ := ""
  valueTypeName _ := ""
  other e := e.elim

def ann : Document where
  id := "people:ann"
  fields := [("city", .string "Oslo"), ("age", .int 30)]
  wf := by decide

def byCityAndAge : IndexDef where
  name := "by_city_and_age"
  fields := ["city", "age"]
  unique := false
  indexType := .btree

/-- `city = 'Oslo' AND age = 30 AND city = 'Bergen'` -/
def inTwoCities : Expr Empty :=
  .binaryOp
    (.binaryOp (.binaryOp (.field "city") .eq (.literal (.string "Oslo"))) .and
      (.binaryOp (.field "age") .eq (.literal (.int 30)))) .and
    (.binaryOp (.field "city") .eq (.literal (.string "Bergen")))

/-- The compound path binds the first city and keeps the second one in its filter. -/
def firstCityPath : AccessPath Empty where
  method := .indexScan ⟨"people", ["city", "age"]⟩
    (.compoundEq [("city", .string "Oslo"), ("age", .int 30)])
  score := 2
  remainingFilter := some (.binaryOp (.field "city") .eq (.literal (.string "Bergen")))

theorem firstCityPath_sound :
    firstCityPath ∈ generateAccessPaths [byCityAndAge] "people"
        (classifyAll [byCityAndAge] (extractConjuncts inTwoCities)) ∧
      (evalFilter context inTwoCities (.fromDoc ann) = .ok true ↔
        firstCityPath.method.Holds context (.fromDoc ann) ∧
          ∀ f ∈ firstCityPath.remainingFilter, evalFilter context f (.fromDoc ann) = .ok true) :=
  have hmem : firstCityPath ∈ generateAccessPaths [byCityAndAge] "people"
      (classifyAll [byCityAndAge] (extractConjuncts inTwoCities)) :=
    List.mem_of_getElem? (i := 3) rfl
  ⟨hmem, (accessPath_sound context (.fromDoc ann) [byCityAndAge] "people" inTwoCities
    (evaluates_of_isOk (by decide +kernel)) firstCityPath hmem).2⟩

end People

end StellarDb
