import StellarDb.Query.Optimizer

/-!
# StellarDb — the input of aggregates

`PhysicalOp.rows` runs the access operators over a collection, given what each index lookup
returns. The question is when the input that the optimizer builds for an aggregate yields the
documents of a filtered full scan, each once.

The analysis behind aggregates does not keep all it has seen: of a predicate with a lower and
an upper bound on an indexed field only these two conjuncts survive, of several equalities on
a field of a compound index only the first, and of a branch of an `OR` only what is looked up.
`keptConjuncts` and `lookedUp` say what is left, and `aggregate_exact_iff` that nothing else
goes wrong: the input is right exactly when every document that passes what is left passes the
predicate, and no union without deduplication meets a document twice.
-/

namespace StellarDb

section Rows

variable {Ω Φ : Type} [Numerics] (ctx : EvalContext Ω)

/-- `FilterOp`: the rows that pass; the first error ends the scan. -/
def filterRows (predicate : Expr Ω) : List Document → Except ExecuteError (List Document)
  | [] => .ok []
  | d :: docs =>
    match evalFilter ctx predicate (.fromDoc d) with
    | .error e => .error e
    | .ok pass =>
      match filterRows predicate docs with
      | .error e => .error e
      | .ok rest => .ok (if pass then d :: rest else rest)

omit [Numerics] in
/-- `UnionOp` with a set of seen ids. -/
def dedupById : List String → List Document → List Document
  | _, [] => []
  | seen, d :: docs =>
    if d.id ∈ seen then dedupById seen docs else d :: dedupById (d.id :: seen) docs

variable (docs : List Document) (lookupDocs : IndexLookup → List Document)

mutual

/-- The rows of an access operator over a collection of documents. -/
def PhysicalOp.rows : PhysicalOp Ω Φ → Except ExecuteError (List Document)
  | .tableScan _ (some n) => .ok (docs.take n)
  | .tableScan _ none => .ok docs
  | .indexScan _ _ lookup => .ok (lookupDocs lookup)
  | .filter predicate input =>
    match input.rows with
    | .error e => .error e
    | .ok ds => filterRows ctx predicate ds
  | .union inputs needsDedup =>
    match rowsOfInputs inputs with
    | .error e => .error e
    | .ok ds => .ok (if needsDedup then dedupById [] ds else ds)
  | _ => .error (.other "not an access operator")

def PhysicalOp.rowsOfInputs : List (PhysicalOp Ω Φ) → Except ExecuteError (List Document)
  | [] => .ok []
  | input :: inputs =>
    match input.rows with
    | .error e => .error e
    | .ok ds =>
      match rowsOfInputs inputs with
      | .error e => .error e
      | .ok rest => .ok (ds ++ rest)

end

/-- Every index lookup returns exactly the documents that meet its condition. -/
structure ExactLookups : Prop where
  mem_iff : ∀ (lookup : IndexLookup) (d : Document),
    d ∈ lookupDocs lookup ↔ d ∈ docs ∧ lookup.Holds ctx (.fromDoc d)
  nodup : ∀ lookup : IndexLookup, (lookupDocs lookup).Nodup

/-! ## Filters and unions -/

variable {ctx docs lookupDocs}

theorem filterRows_ok {p : Expr Ω} (h : ∀ d ∈ docs, Evaluates ctx (.fromDoc d) p) :
    ∃ ds, filterRows ctx p docs = .ok ds ∧ ds.Sublist docs ∧
      ∀ d, d ∈ ds ↔ d ∈ docs ∧ Satisfies ctx (.fromDoc d) p := by
  induction docs with
  | nil => exact ⟨[], rfl, .slnil, by simp⟩
  | cons d docs ih =>
    rw [List.forall_mem_cons] at h
    obtain ⟨ds, hds, hsub, hmem⟩ := ih h.2
    obtain ⟨pass, hpass⟩ := h.1.filter
    rw [filterRows, hpass, hds]
    cases pass with
    | true =>
      refine ⟨d :: ds, rfl, hsub.cons_cons d, fun x => ?_⟩
      rw [List.mem_cons, List.mem_cons, hmem x]
      constructor
      · rintro (rfl | hx)
        exacts [⟨.inl rfl, hpass⟩, ⟨.inr hx.1, hx.2⟩]
      · rintro ⟨rfl | hx, hsat⟩
        exacts [.inl rfl, .inr ⟨hx, hsat⟩]
    | false =>
      refine ⟨ds, rfl, hsub.cons d, fun x => ?_⟩
      rw [List.mem_cons, hmem x]
      constructor
      · exact fun hx => ⟨.inr hx.1, hx.2⟩
      · rintro ⟨rfl | hx, hsat⟩
        · -- the dropped row did not pass
          rw [Satisfies, hpass] at hsat
          cases hsat
        · exact ⟨hx, hsat⟩

omit [Numerics] in
theorem dedupById_spec (seen : List String) (ds : List Document) :
    ((dedupById seen ds).map (·.id)).Nodup ∧
    (∀ d ∈ dedupById seen ds, d ∈ ds ∧ d.id ∉ seen) ∧
    ∀ d ∈ ds, d.id ∉ seen → ∃ d' ∈ dedupById seen ds, d'.id = d.id := by
  induction ds generalizing seen with
  | nil => simp [dedupById]
  | cons d ds ih =>
    rw [dedupById]
    split
    · next hseen =>
      obtain ⟨hnd, hsub, hcov⟩ := ih seen
      refine ⟨hnd, fun x hx => ⟨List.mem_cons_of_mem d (hsub x hx).1, (hsub x hx).2⟩, ?_⟩
      intro x hx hxs
      rcases List.mem_cons.mp hx with rfl | hx
      · exact absurd hseen hxs
      · exact hcov x hx hxs
    · next hseen =>
      obtain ⟨hnd, hsub, hcov⟩ := ih (d.id :: seen)
      refine ⟨?_, ?_, ?_⟩
      · rw [List.map_cons, List.nodup_cons]
        refine ⟨fun hmem => ?_, hnd⟩
        obtain ⟨x, hx, hxd⟩ := List.mem_map.mp hmem
        exact (hsub x hx).2 (by rw [hxd]; exact List.mem_cons_self)
      · intro x hx
        rcases List.mem_cons.mp hx with rfl | hx
        · exact ⟨List.mem_cons_self, hseen⟩
        · exact ⟨List.mem_cons_of_mem d (hsub x hx).1,
            fun hxs => (hsub x hx).2 (List.mem_cons_of_mem _ hxs)⟩
      · intro x hx hxs
        by_cases hxd : x.id = d.id
        · exact ⟨d, List.mem_cons_self, hxd.symm⟩
        · rcases List.mem_cons.mp hx with rfl | hx
          · exact absurd rfl hxd
          · obtain ⟨x', hx', hid⟩ := hcov x hx (by simp [hxd, hxs])
            exact ⟨x', List.mem_cons_of_mem d hx', hid⟩

theorem rowsOfInputs_indexScans (collection : String)
    (branches : List (IndexRef × IndexLookup)) :
    PhysicalOp.rowsOfInputs ctx docs lookupDocs
        (branches.map fun b => (.indexScan collection b.1 b.2 : PhysicalOp Ω Φ)) =
      .ok (branches.flatMap fun b => lookupDocs b.2) := by
  induction branches with
  | nil => rfl
  | cons b branches ih =>
    rw [List.map_cons, List.flatMap_cons, PhysicalOp.rowsOfInputs, ih, PhysicalOp.rows]

end Rows

/-! ## What is left of a predicate -/

section Kept

variable {Ω : Type}

/-- The conjuncts of a predicate. -/
def andLeaves : Expr Ω → List (Expr Ω)
  | .binaryOp left .and right => andLeaves left ++ andLeaves right
  | e => [e]

/-- The conjunct `field = value`. -/
def eqExpr (c : String × Value) : Expr Ω := .binaryOp (.field c.1) .eq (.literal c.2)

/-- The conjunct that sets a bound. -/
def RangeBound.expr (b : RangeBound) : Expr Ω :=
  .binaryOp (.field b.field)
    (if b.isLower then (if b.inclusive then .gte else .gt)
      else if b.inclusive then .lte else .lt)
    (.literal b.value)

/-- The bound a conjunct sets. -/
def boundOf (e : Expr Ω) : Option RangeBound :=
  (asSimpleCondition e).bind fun c => rangeBound c.1 c.2.1 c.2.2

/-- The conjuncts a lookup stands for. -/
def IndexLookup.conjuncts : IndexLookup → List (Expr Ω)
  | .eq field value => [eqExpr (field, value)]
  | .range field op value => [.binaryOp (.field field) op.toBinaryOp (.literal value)]
  | .rangeBetween field lower lowerInclusive upper upperInclusive =>
    [RangeBound.expr ⟨field, lower, lowerInclusive, true⟩,
      RangeBound.expr ⟨field, upper, upperInclusive, false⟩]
  | .compoundEq fieldValues => fieldValues.map eqExpr
  | .in field values => [.inList (.field field) (values.map .literal) false]

/-- One index answers the conjunct. -/
def answered (indexes : List IndexDef) (e : Expr Ω) : Bool :=
  match asSimpleCondition e with
  | some (field, op, value) =>
    (simpleLookup field op value).isSome && (findIndexForField indexes field).isSome
  | none => false

/-- The first two opposite bounds on an indexed field, fields in hash order. -/
def betweenOf (ord : HashOrder) (indexes : List IndexDef) (bounds : List RangeBound) :
    Option (RangeBound × RangeBound) :=
  (ord.iter (bounds.map (·.field)).dedup).findSome? fun field =>
    if (findIndexForField indexes field).isSome then boundsOn bounds field else none

/-- What becomes of the conjuncts of a predicate: those looked up in an index, and all that are
kept in the plan. A pair of bounds displaces everything else, and a compound index keeps one
equality for each of its fields. -/
def pushDown (ord : HashOrder) (indexes : List IndexDef) (p : Expr Ω) :
    Option (List (Expr Ω) × List (Expr Ω)) :=
  let leaves := andLeaves p
  match betweenOf ord indexes (leaves.filterMap boundOf) with
  | some (lower, upper) => some ([lower.expr, upper.expr], [lower.expr, upper.expr])
  | none =>
    let conditions := leaves.filterMap extractEqCondition
    match findPairIndex indexes (conditions.map (·.1)) with
    | some indexFields =>
      let equalities := (fillFields conditions indexFields).map eqExpr
      some (equalities, equalities ++ leaves.filter (!isEqualityOn indexFields ·))
    | none => (leaves.find? (answered indexes)).map fun e => ([e], leaves)

/-- The conjuncts that survive in the plan. -/
def keptConjuncts (ord : HashOrder) (indexes : List IndexDef) (p : Expr Ω) : List (Expr Ω) :=
  ((pushDown ord indexes p).map (·.2)).getD (andLeaves p)

/-- What is looked up for each branch of a top-level OR, if every branch has an index. -/
def lookedUp (ords : Nat → HashOrder) (indexes : List IndexDef) (p : Expr Ω) :
    Option (List (List (Expr Ω))) :=
  match p with
  | .binaryOp _ .or _ =>
    (flattenOr p).zipIdx.mapM fun b => (pushDown (ords b.2) indexes b.1).map (·.1)
  | _ => none

/-- All branches are equalities on one field, with values that differ as values. -/
def DistinctEqualities (branches : List (List (Expr Ω))) : Prop :=
  ∃ (field : String) (values : List Value),
    branches = values.map (fun v => [eqExpr (field, v)]) ∧
      values.Pairwise fun v w => v.beq w = false

/-! ### Conjuncts, bounds and equalities -/

theorem collectEqualityConditions_eq (p : Expr Ω) :
    collectEqualityConditions p = (andLeaves p).filterMap extractEqCondition := by
  fun_induction collectEqualityConditions p with
  | case1 field value => rfl
  | case2 left right ihl ihr => rw [andLeaves, List.filterMap_append, ihl, ihr]
  | case3 e heq hand =>
    have hleaf : andLeaves e = [e] := by unfold andLeaves; split <;> simp_all
    have hcond : extractEqCondition e = none := by unfold extractEqCondition; split <;> simp_all
    simp [hleaf, hcond]

theorem collectRangeBounds_eq (p : Expr Ω) :
    collectRangeBounds p = (andLeaves p).filterMap boundOf := by
  fun_induction collectRangeBounds p with
  | case1 field op value =>
    -- also for `AND` between a field and a literal, which sets no bound
    cases op <;> rfl
  | case2 left right _ ihl ihr => rw [andLeaves, List.filterMap_append, ihl, ihr]
  | case3 e hsimple hand =>
    have hleaf : andLeaves e = [e] := by unfold andLeaves; split <;> simp_all
    have hcond : boundOf e = none := by
      unfold boundOf asSimpleCondition
      split <;> simp_all
    simp [hleaf, hcond]

theorem expr_of_boundOf {e : Expr Ω} {b : RangeBound} (h : boundOf e = some b) :
    e = b.expr := by
  unfold boundOf asSimpleCondition at h
  split at h
  · next f op v =>
    cases op <;> simp only [Option.bind_some, rangeBound, reduceCtorEq, Option.some.injEq] at h <;>
      subst h <;> rfl
  · cases h

theorem expr_of_extractEqCondition {e : Expr Ω} {c : String × Value}
    (h : extractEqCondition e = some c) : e = eqExpr c := by
  unfold extractEqCondition at h
  split at h
  · cases h; rfl
  · cases h

theorem boundsOn_spec {bounds : List RangeBound} {field : String} {lower upper : RangeBound}
    (h : boundsOn bounds field = some (lower, upper)) :
    lower ∈ bounds ∧ lower.field = field ∧ lower.isLower = true ∧
      upper ∈ bounds ∧ upper.field = field ∧ upper.isLower = false := by
  unfold boundsOn at h
  split at h
  · next l u hl hu =>
    cases h
    have hlm := List.mem_filter.mp (List.mem_of_find?_eq_some hl)
    have hum := List.mem_filter.mp (List.mem_of_find?_eq_some hu)
    have hl' := List.find?_some hl
    have hu' := List.find?_some hu
    exact ⟨hlm.1, of_decide_eq_true hlm.2, hl', hum.1, of_decide_eq_true hum.2, by simpa using hu'⟩
  · cases h

/-- The code's search for a pair of bounds, in terms of the conjuncts. -/
theorem tryRangeBetween_eq (ord : HashOrder) (indexes : List IndexDef) (collection : String)
    (p : Expr Ω) :
    tryRangeBetween ord indexes collection p =
      (betweenOf ord indexes ((andLeaves p).filterMap boundOf)).map fun b =>
        .use ⟨collection, (findIndexForField indexes b.1.field).getD []⟩
          (.rangeBetween b.1.field b.1.value b.1.inclusive b.2.value b.2.inclusive) none := by
  unfold tryRangeBetween betweenOf
  rw [collectRangeBounds_eq]
  simp only
  set bounds := (andLeaves p).filterMap boundOf
  induction ord.iter (bounds.map (·.field)).dedup with
  | nil => rfl
  | cons field fields ih =>
    rw [List.findSome?_cons, List.findSome?_cons]
    cases hb : boundsOn bounds field with
    | none => simpa using ih
    | some b =>
      obtain ⟨lower, upper⟩ := b
      cases hi : findIndexForField indexes field with
      | none => simpa [hi] using ih
      | some indexFields =>
        obtain ⟨-, hl, -⟩ := boundsOn_spec hb
        simp [hi, hl]

theorem betweenOf_spec {ord : HashOrder} {indexes : List IndexDef} {bounds : List RangeBound}
    {lower upper : RangeBound} (h : betweenOf ord indexes bounds = some (lower, upper)) :
    lower ∈ bounds ∧ lower.isLower = true ∧ upper ∈ bounds ∧ upper.isLower = false ∧
      upper.field = lower.field := by
  obtain ⟨field, -, hf⟩ := List.exists_of_findSome?_eq_some h
  split at hf
  · obtain ⟨hlm, hlf, hl, hum, huf, hu⟩ := boundsOn_spec hf
    exact ⟨hlm, hl, hum, hu, huf.trans hlf.symm⟩
  · cases hf

/-- Both fields of a found pair are bound. -/
theorem length_fillFields_of_findPairIndex {indexes : List IndexDef}
    {conditions : List (String × Value)} {indexFields : List String}
    (h : findPairIndex indexes (conditions.map (·.1)) = some indexFields) :
    2 ≤ (fillFields conditions indexFields).length := by
  obtain ⟨⟨i, j⟩, hij, hfind⟩ := List.exists_of_findSome?_eq_some h
  have hij : i < conditions.length ∧ j < conditions.length := by
    have := (List.mem_filter.mp hij).1
    simpa [List.mem_product] using this
  have hget : ∀ k, k < conditions.length → ∃ c,
      conditions.find? (fun c => decide (c.1 = (conditions.map (·.1)).getD k "")) = some c := by
    intro k hk
    refine Option.isSome_iff_exists.mp
      (List.find?_isSome.mpr ⟨conditions.get ⟨k, hk⟩, List.get_mem _ _, ?_⟩)
    simp [hk]
  obtain ⟨idx, -, rfl, rest, hrest⟩ := findCompoundIndex_spec hfind
  obtain ⟨ci, hci⟩ := hget i hij.1
  obtain ⟨cj, hcj⟩ := hget j hij.2
  rw [← hrest]
  unfold fillFields
  simp only [List.cons_append, List.filterMap_cons, hci, hcj, List.length_cons]
  omega

/-! ### The analysis keeps what `pushDown` says -/

section Analysis

variable [Numerics] {ctx : EvalContext Ω} {row : Row}

theorem andLeaves_logical (p : Expr Ω) (h : IsLogical ctx row p) :
    (∀ e ∈ andLeaves p, IsLogical ctx row e) ∧
      (Satisfies ctx row p ↔ ∀ e ∈ andLeaves p, Satisfies ctx row e) := by
  fun_induction andLeaves p with
  | case1 left right ihl ihr =>
    obtain ⟨hl, hr⟩ := isLogical_operands (c := .and) h.evaluates
    obtain ⟨hlogl, hsatl⟩ := ihl hl
    obtain ⟨hlogr, hsatr⟩ := ihr hr
    rw [List.forall_mem_append, List.forall_mem_append, ← hsatl, ← hsatr]
    exact ⟨⟨hlogl, hlogr⟩, (connective_spec (c := .and) hl hr).2⟩
  | case2 e _ => simpa using h

/-- A predicate that evaluates passes exactly when all its conjuncts do. -/
theorem satisfies_andLeaves {p : Expr Ω} (h : Evaluates ctx row p) :
    Satisfies ctx row p ↔ ∀ e ∈ andLeaves p, Satisfies ctx row e := by
  match p with
  | .binaryOp l .and r =>
    obtain ⟨hl, hr⟩ := isLogical_operands (c := .and) h
    exact (andLeaves_logical _ (connective_spec (c := .and) hl hr).1).2
  | .binaryOp _ .or _ | .binaryOp _ .add _ | .binaryOp _ .sub _ | .binaryOp _ .mul _
  | .binaryOp _ .div _ | .binaryOp _ .eq _ | .binaryOp _ .ne _ | .binaryOp _ .gt _
  | .binaryOp _ .gte _ | .binaryOp _ .lt _ | .binaryOp _ .lte _ | .binaryOp _ .coalesce _
  | .literal _ | .field _ | .inList _ _ _ | .search _ _ | .other _ => simp [andLeaves]

theorem holds_conjuncts (lookup : IndexLookup) :
    lookup.Holds ctx row ↔ ∀ e ∈ lookup.conjuncts, Satisfies ctx row e := by
  cases lookup with
  | rangeBetween field lower li upper ui =>
    simp [IndexLookup.Holds, IndexLookup.conjuncts, RangeBound.expr, Compares]
  | «in» field values =>
    simp only [IndexLookup.Holds, IndexLookup.conjuncts, List.forall_mem_singleton,
      satisfies_inList]
  | compoundEq fieldValues => exact List.forall_mem_map.symm
  | _ => simp [IndexLookup.Holds, IndexLookup.conjuncts, eqExpr, Compares]

omit [Numerics] in
theorem conjuncts_simpleLookup {field : String} {op : BinaryOp} {value : Value}
    {lookup : IndexLookup} (h : simpleLookup field op value = some lookup) :
    lookup.conjuncts = [(.binaryOp (.field field) op (.literal value) : Expr Ω)] := by
  unfold simpleLookup at h
  split at h <;> cases h <;> rfl

/-- One looked-up conjunct, the others left in the filter. -/
theorem analyzeSingleField_spec (indexes : List IndexDef) (collection : String) (p : Expr Ω) :
    (∃ r, analyzeSingleField indexes collection p = .skip r ∧
      (andLeaves p).find? (answered indexes) = none) ∨
    ∃ ref lookup rem e, analyzeSingleField indexes collection p = .use ref lookup rem ∧
      (andLeaves p).find? (answered indexes) = some e ∧ lookup.conjuncts = [e] ∧
      ∀ (ctx : EvalContext Ω) (row : Row), Evaluates ctx row p →
        (∀ f ∈ rem, IsLogical ctx row f) ∧
        ((∀ x ∈ e :: rem.toList, Satisfies ctx row x) ↔
          ∀ x ∈ andLeaves p, Satisfies ctx row x) := by
  fun_induction analyzeSingleField indexes collection p with
  | case1 field op value =>
    unfold analyzeSimple
    cases hidx : findIndexForField indexes field with
    | none =>
      refine .inl ⟨_, rfl, ?_⟩
      cases op <;> simp [andLeaves, answered, asSimpleCondition, hidx]
    | some indexFields =>
      cases hl : simpleLookup field op value with
      | none =>
        refine .inl ⟨_, rfl, ?_⟩
        cases op <;> simp [andLeaves, answered, asSimpleCondition, hl]
      | some lookup =>
        have hleaf : andLeaves (.binaryOp (.field field) op (.literal value) : Expr Ω) =
            [.binaryOp (.field field) op (.literal value)] := by
          cases op <;> first | rfl | cases hl
        refine .inr ⟨_, lookup, none, _, rfl, ?_, conjuncts_simpleLookup hl, ?_⟩
        · rw [hleaf]
          simp [answered, asSimpleCondition, hl, hidx]
        · intro ctx row _
          rw [hleaf]
          simp
  | case2 left right _ ref lookup rem hleft ih =>
    -- the left side uses an index: the right side joins what remains
    obtain ⟨r, hr, -⟩ | ⟨ref', lookup', rem', e, huse, hfind, hconj, hsem⟩ := ih
    · rw [hleft] at hr; cases hr
    · rw [hleft] at huse
      cases huse
      refine .inr ⟨ref, lookup, _, e, rfl, ?_, hconj, ?_⟩
      · rw [andLeaves, List.find?_append, hfind]; rfl
      · intro ctx row hev
        obtain ⟨hl, hr⟩ := isLogical_operands (c := .and) hev
        obtain ⟨hlog, hsat⟩ := hsem ctx row hl.evaluates
        have hright := (andLeaves_logical right hr).2
        rw [andLeaves, List.forall_mem_append, ← hsat, ← hright]
        cases rem with
        | none => simpa using hr
        | some f =>
          obtain ⟨hlog', hsat'⟩ := connective_spec (c := .and) (hlog f rfl) hr
          refine ⟨fun g hg => by cases hg; exact hlog', ?_⟩
          simp only [Option.toList_some, List.forall_mem_cons, List.not_mem_nil,
            false_implies, implies_true, and_true, and_assoc]
          exact and_congr_right' hsat'
  | case3 left right _ reason hleft ref lookup rem hright ihl ihr =>
    obtain ⟨r, hr, hnone⟩ | ⟨ref', lookup', rem', e, huse, -⟩ := ihl
    · obtain ⟨r', hr', -⟩ | ⟨ref', lookup', rem', e, huse, hfind, hconj, hsem⟩ := ihr
      · rw [hright] at hr'; cases hr'
      · rw [hright] at huse
        cases huse
        refine .inr ⟨ref, lookup, _, e, rfl, ?_, hconj, ?_⟩
        · rw [andLeaves, List.find?_append, hnone, hfind]; rfl
        · intro ctx row hev
          obtain ⟨hl, hr⟩ := isLogical_operands (c := .and) hev
          obtain ⟨hlog, hsat⟩ := hsem ctx row hr.evaluates
          have hleft' := (andLeaves_logical left hl).2
          rw [andLeaves, List.forall_mem_append, ← hsat, ← hleft']
          cases rem with
          | none =>
            refine ⟨by simpa using hl, ?_⟩
            simp [and_comm]
          | some f =>
            obtain ⟨hlog', hsat'⟩ := connective_spec (c := .and) hl (hlog f rfl)
            refine ⟨fun g hg => by cases hg; exact hlog', ?_⟩
            simp only [Option.toList_some, List.forall_mem_cons, List.not_mem_nil,
              false_implies, implies_true, and_true]
            rw [show Satisfies ctx row (.binaryOp left .and f) ↔ _ from hsat']
            exact and_left_comm
    · rw [hleft] at huse; cases huse
  | case4 left right _ reason hleft reason' hright ihl ihr =>
    obtain ⟨r, hr, hnone⟩ | ⟨ref', lookup', rem', e, huse, -⟩ := ihl
    · obtain ⟨r', hr', hnone'⟩ | ⟨ref', lookup', rem', e, huse, -⟩ := ihr
      · refine .inl ⟨_, rfl, ?_⟩
        rw [andLeaves, List.find?_append, hnone, hnone']; rfl
      · rw [hright] at huse; cases huse
    · rw [hleft] at huse; cases huse
  | case5 left right hsimple =>
    refine .inl ⟨_, rfl, ?_⟩
    have hnone : asSimpleCondition (.binaryOp left .or right : Expr Ω) = none := by
      unfold asSimpleCondition; split <;> simp_all
    simp [andLeaves, answered, hnone]
  | case6 e hsimple hand hor =>
    refine .inl ⟨_, rfl, ?_⟩
    have hleaf : andLeaves e = [e] := by unfold andLeaves; split <;> simp_all
    have hnone : asSimpleCondition e = none := by unfold asSimpleCondition; split <;> simp_all
    simp [hleaf, answered, hnone]

omit [Numerics] in
theorem analyzeSingleField_ne_compound (indexes : List IndexDef) (collection : String)
    (p : Expr Ω) {ref : IndexRef} {fieldValues : List (String × Value)}
    {rem : Option (Expr Ω)} :
    analyzeSingleField indexes collection p ≠ .use ref (.compoundEq fieldValues) rem := by
  fun_induction analyzeSingleField indexes collection p generalizing rem with
  | case1 field op value =>
    unfold analyzeSimple simpleLookup
    cases findIndexForField indexes field <;> cases op <;> simp
  | case2 left right _ ref lookup rem hleft ih =>
    intro h
    cases h
    exact ih hleft
  | case3 left right _ reason hleft ref lookup rem hright ihl ihr =>
    intro h
    cases h
    exact ihr hright
  | _ => simp

/-- Without the equalities on its fields, the predicate of a compound lookup keeps the rest. -/
theorem computeCompoundRemaining_spec (usedFields : List String) (p : Expr Ω)
    (h : IsLogical ctx row p) :
    (∀ f ∈ computeCompoundRemaining usedFields p, IsLogical ctx row f) ∧
      ((∀ f ∈ computeCompoundRemaining usedFields p, Satisfies ctx row f) ↔
        ∀ e ∈ (andLeaves p).filter (!isEqualityOn usedFields ·), Satisfies ctx row e) := by
  have hjoin : ∀ {l r : Expr Ω}, IsLogical ctx row (.binaryOp l .and r) →
      IsLogical ctx row l ∧ IsLogical ctx row r :=
    fun h => isLogical_operands (c := .and) h.evaluates
  fun_induction computeCompoundRemaining usedFields p with
  | case1 left right hnr hnl ihl ihr =>
    have hl := ihl (hjoin h).1
    have hr := ihr (hjoin h).2
    rw [hnl] at hl
    rw [hnr] at hr
    rw [andLeaves, List.filter_append, List.forall_mem_append, ← hl.2, ← hr.2]
    simp
  | case2 left right l hnr hsl ihl ihr =>
    have hl := ihl (hjoin h).1
    have hr := ihr (hjoin h).2
    rw [hsl] at hl
    rw [hnr] at hr
    rw [andLeaves, List.filter_append, List.forall_mem_append, ← hl.2, ← hr.2]
    simpa using hl.1
  | case3 left right r hsr hnl ihl ihr =>
    have hl := ihl (hjoin h).1
    have hr := ihr (hjoin h).2
    rw [hnl] at hl
    rw [hsr] at hr
    rw [andLeaves, List.filter_append, List.forall_mem_append, ← hl.2, ← hr.2]
    simpa using hr.1
  | case4 left right l r hsr hsl ihl ihr =>
    have hl := ihl (hjoin h).1
    have hr := ihr (hjoin h).2
    rw [hsl] at hl
    rw [hsr] at hr
    obtain ⟨hlog, hsat⟩ := connective_spec (c := .and) (hl.1 l rfl) (hr.1 r rfl)
    rw [andLeaves, List.filter_append, List.forall_mem_append, ← hl.2, ← hr.2]
    refine ⟨fun g hg => by cases hg; exact hlog, ?_⟩
    simp only [Option.mem_def, Option.some.injEq, forall_eq']
    exact hsat
  | case5 e hand heq =>
    have hleaf : andLeaves e = [e] := by unfold andLeaves; split <;> simp_all
    simp [hleaf, heq]
  | case6 e hand heq =>
    have hleaf : andLeaves e = [e] := by unfold andLeaves; split <;> simp_all
    simpa [hleaf, heq] using h

omit [Numerics] in
/-- A single conjunct is no pair of bounds. -/
theorem betweenOf_singleton (ord : HashOrder) (indexes : List IndexDef) (e : Expr Ω) :
    betweenOf ord indexes ([e].filterMap boundOf) = none := by
  cases hb : betweenOf ord indexes ([e].filterMap boundOf) with
  | none => rfl
  | some b =>
    obtain ⟨lower, upper⟩ := b
    obtain ⟨hlm, hl, hum, hu, -⟩ := betweenOf_spec hb
    obtain ⟨x, hx, hxl⟩ := List.mem_filterMap.mp hlm
    obtain ⟨y, hy, hyu⟩ := List.mem_filterMap.mp hum
    rw [List.mem_singleton.mp hx] at hxl
    rw [List.mem_singleton.mp hy, hxl] at hyu
    cases hyu
    rw [hl] at hu
    cases hu

omit [Numerics] in
/-- A single conjunct is no pair of equalities. -/
theorem findPairIndex_singleton (indexes : List IndexDef) (e : Expr Ω) :
    findPairIndex indexes (([e].filterMap extractEqCondition).map (·.1)) = none := by
  cases hp : findPairIndex indexes (([e].filterMap extractEqCondition).map (·.1)) with
  | none => rfl
  | some found =>
    obtain ⟨⟨i, j⟩, hij, -⟩ := List.exists_of_findSome?_eq_some hp
    obtain ⟨hmem, hne⟩ := List.mem_filter.mp hij
    have hlen : ([e].filterMap extractEqCondition).length ≤ 1 := by
      cases he : extractEqCondition e <;> simp [he]
    rw [List.mem_product, List.mem_range, List.mem_range, List.length_map] at hmem
    have hne : i ≠ j := of_decide_eq_true hne
    omega

/-- The choice of the analysis against what becomes of the conjuncts: no index, or a lookup of
some conjuncts and a filter, which together pass exactly what is kept. -/
inductive Analyzed (p : Expr Ω) : IndexChoice Ω → Option (List (Expr Ω) × List (Expr Ω)) → Prop
  | skip (r : SkipReason) : Analyzed p (.skip r) none
  | use (ref : IndexRef) (lookup : IndexLookup) (rem : Option (Expr Ω)) (kept : List (Expr Ω))
      (compound : ∀ fieldValues, lookup = .compoundEq fieldValues → 2 ≤ fieldValues.length)
      (sound : ∀ (ctx : EvalContext Ω) (row : Row), Evaluates ctx row p →
        (∀ f ∈ rem, Evaluates ctx row f) ∧
        (lookup.Holds ctx row ∧ (∀ f ∈ rem, Satisfies ctx row f) ↔
          ∀ e ∈ kept, Satisfies ctx row e)) :
      Analyzed p (.use ref lookup rem) (some (lookup.conjuncts, kept))

/-- The single-field analysis, when the two special forms are not there. -/
theorem analyzed_single {ord : HashOrder} {indexes : List IndexDef} (collection : String)
    {p : Expr Ω} (hbet : betweenOf ord indexes ((andLeaves p).filterMap boundOf) = none)
    (hpair : findPairIndex indexes
      (((andLeaves p).filterMap extractEqCondition).map (·.1)) = none) :
    Analyzed p (analyzeSingleField indexes collection p) (pushDown ord indexes p) := by
  have hpush : pushDown ord indexes p =
      ((andLeaves p).find? (answered indexes)).map fun e => ([e], andLeaves p) := by
    unfold pushDown
    simp only [hbet, hpair]
  obtain ⟨r, hskip, hnone⟩ | ⟨ref, lookup, rem, e, huse, hfind, hconj, hsem⟩ :=
    analyzeSingleField_spec indexes collection p
  · rw [hskip, hpush, hnone]
    exact .skip r
  · rw [huse, hpush, hfind, Option.map_some, ← hconj]
    refine .use ref lookup rem (andLeaves p) ?_ ?_
    · rintro fieldValues rfl
      exact absurd huse (analyzeSingleField_ne_compound indexes collection p)
    · intro ctx row hev
      obtain ⟨hlog, hsat⟩ := hsem ctx row hev
      refine ⟨fun f hf => (hlog f hf).evaluates, Iff.trans ?_ hsat⟩
      rw [holds_conjuncts, hconj]
      simp

theorem analyzeForIndex_spec (ord : HashOrder) (indexes : List IndexDef) (collection : String)
    (p : Expr Ω) :
    Analyzed p (analyzeForIndex ord indexes collection p) (pushDown ord indexes p) := by
  by_cases hand : ∃ l r, p = .binaryOp l .and r
  · obtain ⟨l, r, rfl⟩ := hand
    simp only [analyzeForIndex, tryRangeBetween_eq, collectEqualityConditions_eq]
    cases hbet : betweenOf ord indexes ((andLeaves (.binaryOp l .and r)).filterMap boundOf) with
    | some b =>
      obtain ⟨lower, upper⟩ := b
      obtain ⟨-, hl, -, hu, hfield⟩ := betweenOf_spec hbet
      -- the pair is the lookup, and the lookup is all there is
      have hconj : ([lower.expr, upper.expr] : List (Expr Ω)) =
          (IndexLookup.rangeBetween lower.field lower.value lower.inclusive upper.value
            upper.inclusive).conjuncts := by
        simp only [IndexLookup.conjuncts, RangeBound.expr, hl, hu, hfield]
      have hpush : pushDown ord indexes (.binaryOp l .and r) =
          some ([lower.expr, upper.expr], [lower.expr, upper.expr]) := by
        unfold pushDown
        simp only [hbet]
      rw [hpush, hconj]
      refine .use _ _ none _ (by simp) fun ctx row _ => ⟨by simp, ?_⟩
      rw [holds_conjuncts]
      simp
    | none =>
      cases hpair : findPairIndex indexes
          (((andLeaves (.binaryOp l .and r)).filterMap extractEqCondition).map (·.1)) with
      | none => exact analyzed_single collection hbet hpair
      | some indexFields =>
        have hpush : pushDown ord indexes (.binaryOp l .and r) =
            some ((IndexLookup.compoundEq (fillFields ((andLeaves (.binaryOp l .and r)).filterMap
                extractEqCondition) indexFields)).conjuncts,
              (fillFields ((andLeaves (.binaryOp l .and r)).filterMap extractEqCondition)
                indexFields).map eqExpr ++
                (andLeaves (.binaryOp l .and r)).filter (!isEqualityOn indexFields ·)) := by
          unfold pushDown
          simp only [hbet, hpair]
          rfl
        rw [hpush]
        refine .use _ _ _ _ ?_ fun ctx row hev => ?_
        · rintro fieldValues h
          cases h
          exact length_fillFields_of_findPairIndex hpair
        · obtain ⟨hlogl, hlogr⟩ := isLogical_operands (c := .and) hev
          obtain ⟨hlog, hsat⟩ := computeCompoundRemaining_spec indexFields _
            (connective_spec (c := .and) hlogl hlogr).1
          refine ⟨fun f hf => (hlog f hf).evaluates, ?_⟩
          rw [List.forall_mem_append, holds_conjuncts]
          exact and_congr_right' hsat
  · have hleaf : andLeaves p = [p] := by unfold andLeaves; split <;> simp_all
    have han : analyzeForIndex ord indexes collection p =
        analyzeSingleField indexes collection p := by
      unfold analyzeForIndex; split <;> simp_all
    rw [han]
    refine analyzed_single collection ?_ ?_
    · rw [hleaf]; exact betweenOf_singleton ord indexes p
    · rw [hleaf]; exact findPairIndex_singleton indexes p

omit [Numerics] in
/-- What is kept is part of the predicate. -/
theorem kept_subset {ord : HashOrder} {indexes : List IndexDef} {p : Expr Ω}
    {looked kept : List (Expr Ω)} (h : pushDown ord indexes p = some (looked, kept)) :
    looked ⊆ andLeaves p ∧ kept ⊆ andLeaves p := by
  have hbound : ∀ b ∈ (andLeaves p).filterMap boundOf, b.expr ∈ andLeaves p := by
    intro b hb
    obtain ⟨e, he, heb⟩ := List.mem_filterMap.mp hb
    rwa [← expr_of_boundOf heb]
  have heqs : ∀ fields, (fillFields ((andLeaves p).filterMap extractEqCondition) fields).map
      eqExpr ⊆ andLeaves p := by
    intro fields e he
    obtain ⟨c, hc, rfl⟩ := List.mem_map.mp he
    obtain ⟨x, hx, hxc⟩ := List.mem_filterMap.mp (mem_of_mem_fillFields hc)
    rwa [← expr_of_extractEqCondition hxc]
  unfold pushDown at h
  simp only at h
  split at h
  · next lower upper hbet =>
    cases h
    obtain ⟨hl, -, hu, -⟩ := betweenOf_spec hbet
    have hpair : ([lower.expr, upper.expr] : List (Expr Ω)) ⊆ andLeaves p :=
      List.cons_subset.mpr ⟨hbound lower hl, List.cons_subset.mpr ⟨hbound upper hu, by simp⟩⟩
    exact ⟨hpair, hpair⟩
  · split at h
    · cases h
      exact ⟨heqs _, List.append_subset.mpr ⟨heqs _, List.filter_subset_self _⟩⟩
    · obtain ⟨e, he, heq⟩ := Option.map_eq_some_iff.mp h
      cases heq
      exact ⟨by simpa using List.mem_of_find?_eq_some he, List.Subset.refl _⟩

/-! ### Unions -/

theorem flattenOr_logical (p : Expr Ω) (h : IsLogical ctx row p) :
    (∀ b ∈ flattenOr p, IsLogical ctx row b) ∧
      (Satisfies ctx row p ↔ ∃ b ∈ flattenOr p, Satisfies ctx row b) := by
  fun_induction flattenOr p with
  | case1 left right ihl ihr =>
    obtain ⟨hl, hr⟩ := isLogical_operands (c := .or) h.evaluates
    obtain ⟨hlogl, hsatl⟩ := ihl hl
    obtain ⟨hlogr, hsatr⟩ := ihr hr
    refine ⟨List.forall_mem_append.mpr ⟨hlogl, hlogr⟩,
      (connective_spec (c := .or) hl hr).2.trans ?_⟩
    rw [hsatl, hsatr]
    simp only [List.mem_append, or_and_right, exists_or]
  | case2 e _ => simpa using h

omit [Numerics] in
theorem mapM_option_map {α β γ : Type} {f : α → Option β} {g : α → Option γ} (h : β → γ)
    (hfg : ∀ a, g a = (f a).map h) (l : List α) :
    l.mapM g = (l.mapM f).map (List.map h) := by
  induction l with
  | nil => rfl
  | cons a l ih =>
    rw [List.mapM_cons, List.mapM_cons, ih, hfg a]
    cases f a <;> cases l.mapM f <;> rfl

/-- The lookups of a union and what `lookedUp` says of them. -/
theorem lookedUp_eq (ords : Nat → HashOrder) (indexes : List IndexDef) (collection : String)
    (p : Expr Ω) :
    lookedUp ords indexes p =
      (analyzeOrForUnion ords indexes collection p).map
        (List.map fun b : IndexRef × IndexLookup => b.2.conjuncts) := by
  by_cases hor : ∃ left right, p = .binaryOp left .or right
  · obtain ⟨left, right, rfl⟩ := hor
    refine mapM_option_map _ (fun b => ?_) _
    have hspec := analyzeForIndex_spec (ords b.2) indexes collection b.1
    generalize analyzeForIndex (ords b.2) indexes collection b.1 = choice at hspec ⊢
    generalize pushDown (ords b.2) indexes b.1 = pushed at hspec ⊢
    cases hspec with
    | skip r => rfl
    | use ref lookup rem kept _ _ => rfl
  · -- any other predicate has no branches
    have hlooked : lookedUp ords indexes p = none := by
      unfold lookedUp
      split
      · next left right => exact absurd ⟨left, right, rfl⟩ hor
      · rfl
    have hanalyze : analyzeOrForUnion ords indexes collection p = none := by
      unfold analyzeOrForUnion
      split
      · next left right => exact absurd ⟨left, right, rfl⟩ hor
      · rfl
    rw [hlooked, hanalyze]
    rfl

omit [Numerics] in
theorem forall_of_mapM {α β : Type} {f : α → Option β} {l : List α} {bs : List β}
    (h : l.mapM f = some bs) {P : β → Prop} (hP : ∀ a b, f a = some b → P b) :
    (∀ b ∈ bs, P b) ∧ bs.length = l.length := by
  induction l generalizing bs with
  | nil =>
    obtain rfl : [] = bs := by simpa using h
    simp
  | cons a l ih =>
    rw [List.mapM_cons] at h
    simp only [Option.bind_eq_bind, Option.bind_eq_some_iff, Option.pure_def,
      Option.some.injEq] at h
    obtain ⟨b, hb, bs', hbs, rfl⟩ := h
    obtain ⟨hall, hlen⟩ := ih hbs
    exact ⟨List.forall_mem_cons.mpr ⟨hP a b hb, hall⟩, by simp [hlen]⟩

omit [Numerics] in
theorem exists_of_mapM {α β : Type} {f : α → Option β} {l : List α} {bs : List β}
    (h : l.mapM f = some bs) {a : α} (ha : a ∈ l) : ∃ b ∈ bs, f a = some b := by
  induction l generalizing bs with
  | nil => simp at ha
  | cons x l ih =>
    rw [List.mapM_cons] at h
    simp only [Option.bind_eq_bind, Option.bind_eq_some_iff, Option.pure_def,
      Option.some.injEq] at h
    obtain ⟨b, hb, bs', hbs, rfl⟩ := h
    rcases List.mem_cons.mp ha with rfl | ha
    · exact ⟨b, List.mem_cons_self, hb⟩
    · obtain ⟨b', hb', hfa⟩ := ih hbs ha
      exact ⟨b', List.mem_cons_of_mem b hb', hfa⟩

omit [Numerics] in
theorem one_le_length_flattenOr (p : Expr Ω) : 1 ≤ (flattenOr p).length := by
  fun_induction flattenOr p with
  | case1 left right ihl ihr => rw [List.length_append]; omega
  | case2 e _ => simp

/-- A union has at least two lookups, and its compound lookups bind at least two fields. -/
theorem analyzeOrForUnion_spec {ords : Nat → HashOrder} {indexes : List IndexDef}
    {collection : String} {p : Expr Ω} {branches : List (IndexRef × IndexLookup)}
    (h : analyzeOrForUnion ords indexes collection p = some branches) :
    (∃ l r, p = .binaryOp l .or r) ∧ 2 ≤ branches.length ∧
      ∀ b ∈ branches, ∀ fieldValues, b.2 = .compoundEq fieldValues → 2 ≤ fieldValues.length := by
  unfold analyzeOrForUnion at h
  split at h
  · next l r =>
    obtain ⟨hall, hlen⟩ := forall_of_mapM h
      (P := fun b : IndexRef × IndexLookup =>
        ∀ fieldValues, b.2 = .compoundEq fieldValues → 2 ≤ fieldValues.length)
      (fun b c hbc => by
        have hspec := analyzeForIndex_spec (ords b.2) indexes collection b.1
        split at hbc
        · next ref lookup rem huse =>
          rw [huse] at hspec
          generalize pushDown (ords b.2) indexes b.1 = pushed at hspec
          cases hbc
          cases hspec with
          | use _ _ _ _ hcompound _ => exact hcompound
        · cases hbc)
    refine ⟨⟨l, r, rfl⟩, ?_, hall⟩
    rw [hlen, List.length_zipIdx, flattenOr, List.length_append]
    have := one_le_length_flattenOr l
    have := one_le_length_flattenOr r
    omega
  · cases h

omit [Numerics] in
theorem dedupLoop_eq_false (seen : List Value) (lookups : List IndexLookup) :
    dedupLoop seen lookups = false ↔
      ∃ fieldValues : List (String × Value),
        lookups = fieldValues.map (fun fv => .eq fv.1 fv.2) ∧
        (∀ fv ∈ fieldValues, ∀ v ∈ seen, v.beq fv.2 = false) ∧
        fieldValues.Pairwise fun fv gv => fv.2.beq gv.2 = false := by
  induction lookups generalizing seen with
  | nil => simp [dedupLoop]
  | cons lookup lookups ih =>
    cases lookup with
    | eq field value =>
      rw [dedupLoop]
      have hseen : (seen.any fun x => x.beq value) = false ↔
          ∀ v ∈ seen, v.beq value = false := by simp
      constructor
      · intro h
        split at h
        · cases h
        · next hany =>
          obtain ⟨fvs, rfl, hfvs, hpw⟩ := (ih _).mp h
          refine ⟨(field, value) :: fvs, rfl, ?_, ?_⟩
          · refine List.forall_mem_cons.mpr ⟨hseen.mp (by simpa using hany), fun fv hfv v hv => ?_⟩
            exact hfvs fv hfv v (List.mem_append_left _ hv)
          · exact List.pairwise_cons.mpr ⟨fun fv hfv => hfvs fv hfv value (by simp), hpw⟩
      · rintro ⟨fvs, hmap, hfvs, hpw⟩
        cases fvs with
        | nil => cases hmap
        | cons fv fvs =>
          rw [List.map_cons] at hmap
          cases hmap
          rw [List.forall_mem_cons] at hfvs
          rw [List.pairwise_cons] at hpw
          rw [if_neg (by simpa using hfvs.1)]
          refine (ih _).mpr ⟨fvs, rfl, fun gv hgv v hv => ?_, hpw.2⟩
          rcases List.mem_append.mp hv with hv | hv
          · exact hfvs.2 gv hgv v hv
          · rw [List.mem_singleton.mp hv]
            exact hpw.1 gv hgv
    | _ =>
      simp only [dedupLoop, Bool.true_eq_false, false_iff]
      rintro ⟨fvs, hmap, -⟩
      cases fvs <;> cases hmap

omit [Numerics] in
theorem eq_of_conjuncts {lookup : IndexLookup} {c : String × Value}
    (hcompound : ∀ fieldValues, lookup = .compoundEq fieldValues → 2 ≤ fieldValues.length)
    (h : lookup.conjuncts = [(eqExpr c : Expr Ω)]) : lookup = .eq c.1 c.2 := by
  cases lookup with
  | eq field value => cases h; rfl
  | range field op value => cases op <;> cases h
  | compoundEq fieldValues =>
    have hlen := hcompound fieldValues rfl
    have := congrArg List.length h
    simp only [IndexLookup.conjuncts, List.length_map, List.length_singleton] at this
    omega
  | rangeBetween => simpa [IndexLookup.conjuncts] using congrArg List.length h
  | «in» => cases h

omit [Numerics] in
/-- A union goes without deduplication exactly when its branches are distinct equalities. -/
theorem computeNeedsDedup_eq_false {branches : List (IndexRef × IndexLookup)}
    (hlen : 2 ≤ branches.length)
    (hcompound : ∀ b ∈ branches, ∀ fieldValues, b.2 = .compoundEq fieldValues →
      2 ≤ fieldValues.length) :
    computeNeedsDedup branches = false ↔
      DistinctEqualities
        (branches.map fun b => (b.2.conjuncts : List (Expr Ω))) := by
  match branches, hlen with
  | b :: b' :: rest, _ =>
    set bs := b :: b' :: rest with hbs
    have hdef : computeNeedsDedup bs =
        if bs.all fun x => decide (x.2.field = b.2.field) then dedupLoop [] (bs.map (·.2))
        else true := rfl
    rw [hdef]
    constructor
    · intro h
      split at h
      · next hall =>
        obtain ⟨fvs, hmap, -, hpw⟩ := (dedupLoop_eq_false _ _).mp h
        have hfield : ∀ fv ∈ fvs, fv.1 = b.2.field := by
          intro fv hfv
          have hmem : IndexLookup.eq fv.1 fv.2 ∈ bs.map (·.2) := by
            rw [hmap]; exact List.mem_map_of_mem hfv
          obtain ⟨x, hx, hxe⟩ := List.mem_map.mp hmem
          have := of_decide_eq_true (List.all_eq_true.mp hall x hx)
          rwa [hxe] at this
        refine ⟨b.2.field, fvs.map (·.2), ?_, List.pairwise_map.mpr hpw⟩
        have hconj : bs.map (fun x => (x.2.conjuncts : List (Expr Ω))) =
            (bs.map (·.2)).map IndexLookup.conjuncts := by rw [List.map_map]; rfl
        rw [hconj, hmap, List.map_map, List.map_map]
        refine List.map_congr_left fun fv hfv => ?_
        simp only [Function.comp_apply, IndexLookup.conjuncts, ← hfield fv hfv]
      · cases h
    · rintro ⟨field, values, hmap, hpw⟩
      have hlook : bs.map (·.2) = values.map fun v => .eq field v := by
        refine List.ext_getElem ?_ fun i hi hi' => ?_
        · simpa using congrArg List.length hmap
        · rw [List.length_map] at hi hi'
          have hget := congrArg (·[i]?) hmap
          simp only [List.getElem?_map, List.getElem?_eq_getElem hi,
            List.getElem?_eq_getElem hi', Option.map_some, Option.some.injEq] at hget
          rw [List.getElem_map, List.getElem_map]
          exact eq_of_conjuncts (hcompound _ (List.getElem_mem hi)) hget
      have hsame : ∀ x ∈ bs, x.2.field = field := by
        intro x hx
        have hmem : x.2 ∈ bs.map (·.2) := List.mem_map_of_mem hx
        rw [hlook] at hmem
        obtain ⟨v, -, hv⟩ := List.mem_map.mp hmem
        rw [← hv]
        rfl
      have hall : (bs.all fun x => decide (x.2.field = b.2.field)) = true := by
        refine List.all_eq_true.mpr fun x hx => decide_eq_true ?_
        rw [hsame x hx, hsame b List.mem_cons_self]
      rw [if_pos hall, hlook]
      refine (dedupLoop_eq_false _ _).mpr ⟨values.map fun v => (field, v), ?_, by simp, ?_⟩
      · rw [List.map_map]; rfl
      · exact List.pairwise_map.mpr hpw

end Analysis

end Kept

/-! ## When the input of an aggregate is right -/

section Exact

variable {Ω Φ : Type} [Numerics] (ctx : EvalContext Ω) (opt : Optimizer) (collection : String)
  (docs : List Document) (p : Expr Ω)

/-- Every document that passes what the plan kept of the predicate passes the predicate, and a
union of distinct equalities, which is not deduplicated, meets no document twice. -/
def NothingLost : Prop :=
  match lookedUp opt.orders (opt.indexes collection) p with
  | some branches =>
    (∀ d ∈ docs, ∀ es ∈ branches, (∀ e ∈ es, Satisfies ctx (.fromDoc d) e) →
      Satisfies ctx (.fromDoc d) p) ∧
    (DistinctEqualities branches → branches.Pairwise fun es es' =>
      ∀ d ∈ docs, ¬((∀ e ∈ es, Satisfies ctx (.fromDoc d) e) ∧
        ∀ e ∈ es', Satisfies ctx (.fromDoc d) e))
  | none =>
    ∀ d ∈ docs, (∀ e ∈ keptConjuncts (opt.orders 0) (opt.indexes collection) p,
      Satisfies ctx (.fromDoc d) e) → Satisfies ctx (.fromDoc d) p

omit [Numerics] in
/-- The input under the aggregate of a plan. -/
def PhysicalOp.aggregateSource : PhysicalOp Ω Φ → Option (PhysicalOp Ω Φ)
  | .aggregate _ input => some input
  | .groupAggregate _ _ input => some input
  | .project _ input => input.aggregateSource
  | .sort _ input => input.aggregateSource
  | _ => none

/-- An aggregate, grouped or not, over the documents of a collection that pass `p`. -/
inductive LogicalPlan.Aggregates (collection : String) (p : Expr Ω) : LogicalPlan Ω Φ → Prop
  | aggregate (aggregates : Φ) (postProjection : Option Φ) :
      Aggregates collection p (.aggregate collection (some p) aggregates postProjection)
  | groupAggregate (groupFields : List String) (aggregates : Φ)
      (postProjection order : Option Φ) :
      Aggregates collection p
        (.groupAggregate collection (some p) groupFields aggregates postProjection order)

variable {ctx opt collection docs p} {lookupDocs : IndexLookup → List Document}

omit [Numerics] in
theorem aggregateSource_optimize {plan : LogicalPlan Ω Φ}
    (h : plan.Aggregates collection p) :
    (opt.optimize plan).aggregateSource = some (opt.aggregateInput collection (some p)) := by
  cases h with
  | aggregate aggregates postProjection => cases postProjection <;> rfl
  | groupAggregate groupFields aggregates postProjection order =>
    cases postProjection <;> cases order <;> rfl

omit [Numerics] in
/-- A list is a permutation of a duplicate-free one when it has the same members once. -/
theorem perm_iff_of_nodup {xs ys : List Document} (hys : ys.Nodup) :
    xs.Perm ys ↔ xs.Nodup ∧ ∀ d, d ∈ xs ↔ d ∈ ys :=
  ⟨fun h => ⟨h.nodup_iff.mpr hys, fun _ => h.mem_iff⟩,
    fun h => (List.perm_ext_iff_of_nodup h.1 hys).mpr h.2⟩

/-- One lookup with a filter, or the filtered table. -/
theorem single_exact_iff (heval : ∀ d ∈ docs, Evaluates ctx (.fromDoc d) p)
    (hnd : docs.Nodup) (hexact : ExactLookups ctx docs lookupDocs)
    (ord : HashOrder) (indexes : List IndexDef) {full : List Document} (hfull : full.Nodup)
    (hmem : ∀ d, d ∈ full ↔ d ∈ docs ∧ Satisfies ctx (.fromDoc d) p) :
    ∃ rows, (match analyzeForIndex ord indexes collection p with
        | .use indexRef lookup remaining =>
          withFilter (.indexScan collection indexRef lookup) remaining
        | .skip _ => (.filter p (.tableScan collection none) : PhysicalOp Ω Φ)).rows
          ctx docs lookupDocs = .ok rows ∧
      (rows.Perm full ↔ ∀ d ∈ docs, (∀ e ∈ keptConjuncts ord indexes p,
        Satisfies ctx (.fromDoc d) e) → Satisfies ctx (.fromDoc d) p) := by
  have hspec := analyzeForIndex_spec ord indexes collection p
  have hsub : ∀ looked kept, pushDown ord indexes p = some (looked, kept) →
      kept ⊆ andLeaves p := fun _ _ h => (kept_subset h).2
  unfold keptConjuncts
  generalize analyzeForIndex ord indexes collection p = choice at hspec ⊢
  generalize pushDown ord indexes p = pushed at hspec hsub ⊢
  cases hspec with
  | skip r =>
    -- the filtered table is the reference itself
    obtain ⟨rows, hrows, hsubl, hrmem⟩ := filterRows_ok heval
    refine ⟨rows, hrows, iff_of_true ?_ ?_⟩
    · exact (perm_iff_of_nodup hfull).mpr ⟨hsubl.nodup hnd, fun d => (hrmem d).trans (hmem d).symm⟩
    · intro d hd hleaves
      exact (satisfies_andLeaves (heval d hd)).mpr hleaves
  | use ref lookup rem kept _ sound =>
    have hkept : kept ⊆ andLeaves p := hsub _ _ rfl
    -- the rows are the documents that meet lookup and filter
    have hrows : ∃ rows, (withFilter (.indexScan collection ref lookup) rem :
          PhysicalOp Ω Φ).rows ctx docs lookupDocs = .ok rows ∧ rows.Nodup ∧
        ∀ d, d ∈ rows ↔ d ∈ docs ∧ ∀ e ∈ kept, Satisfies ctx (.fromDoc d) e := by
      cases rem with
      | none =>
        refine ⟨lookupDocs lookup, rfl, hexact.nodup lookup, fun d => ?_⟩
        rw [hexact.mem_iff lookup d]
        refine and_congr_right fun hd => ?_
        simpa using (sound ctx (.fromDoc d) (heval d hd)).2
      | some f =>
        have hev : ∀ d ∈ lookupDocs lookup, Evaluates ctx (.fromDoc d) f := fun d hd =>
          have hdocs := ((hexact.mem_iff lookup d).mp hd).1
          (sound ctx (.fromDoc d) (heval d hdocs)).1 f rfl
        obtain ⟨rows, hrows, hsubl, hrmem⟩ := filterRows_ok hev
        refine ⟨rows, hrows, hsubl.nodup (hexact.nodup lookup), fun d => ?_⟩
        rw [hrmem d, hexact.mem_iff lookup d, and_assoc]
        refine and_congr_right fun hd => ?_
        simpa using (sound ctx (.fromDoc d) (heval d hd)).2
    obtain ⟨rows, hrows, hrnd, hrmem⟩ := hrows
    refine ⟨rows, hrows, ?_⟩
    rw [perm_iff_of_nodup hfull]
    simp only [Option.map_some, Option.getD_some]
    constructor
    · rintro ⟨-, hsame⟩ d hd hall
      exact ((hmem d).mp ((hsame d).mp ((hrmem d).mpr ⟨hd, hall⟩))).2
    · refine fun hcover => ⟨hrnd, fun d => ?_⟩
      rw [hrmem d, hmem d]
      refine and_congr_right fun hd => ⟨hcover d hd, fun hsat e he => ?_⟩
      exact (satisfies_andLeaves (heval d hd)).mp hsat e (hkept he)

/-- A document that passes an `OR` passes what one of its branches looks up. -/
theorem exists_looked {ords : Nat → HashOrder} {indexes : List IndexDef}
    {branches : List (List (Expr Ω))} {row : Row} (hev : Evaluates ctx row p)
    (h : lookedUp ords indexes p = some branches) (hsat : Satisfies ctx row p) :
    ∃ es ∈ branches, ∀ e ∈ es, Satisfies ctx row e := by
  unfold lookedUp at h
  split at h
  · next l r =>
    obtain ⟨hl, hr⟩ := isLogical_operands (c := .or) hev
    obtain ⟨hlog, hiff⟩ := flattenOr_logical _ (connective_spec (c := .or) hl hr).1
    obtain ⟨b, hb, hbsat⟩ := hiff.mp hsat
    obtain ⟨i, hi⟩ := List.mem_iff_getElem?.mp hb
    obtain ⟨es, hes, hlook⟩ := exists_of_mapM h (List.mk_mem_zipIdx_iff_getElem?.mpr hi)
    obtain ⟨⟨looked, kept⟩, hpush, rfl⟩ := Option.map_eq_some_iff.mp hlook
    refine ⟨looked, hes, fun e he => ?_⟩
    exact (satisfies_andLeaves (hlog b hb).evaluates).mp hbsat e ((kept_subset hpush).1 he)
  · cases h

/-- A union of lookups. -/
theorem union_exact_iff (heval : ∀ d ∈ docs, Evaluates ctx (.fromDoc d) p)
    (hids : (docs.map (·.id)).Nodup) (hexact : ExactLookups ctx docs lookupDocs)
    {ords : Nat → HashOrder} {indexes : List IndexDef}
    {branches : List (IndexRef × IndexLookup)}
    (hunion : analyzeOrForUnion ords indexes collection p = some branches)
    {full : List Document} (hfull : full.Nodup)
    (hmem : ∀ d, d ∈ full ↔ d ∈ docs ∧ Satisfies ctx (.fromDoc d) p) :
    ∃ rows, (.union (branches.map fun b => .indexScan collection b.1 b.2)
        (computeNeedsDedup branches) : PhysicalOp Ω Φ).rows ctx docs lookupDocs = .ok rows ∧
      (rows.Perm full ↔
        (∀ d ∈ docs, ∀ b ∈ branches, b.2.Holds ctx (.fromDoc d) →
          Satisfies ctx (.fromDoc d) p) ∧
        (computeNeedsDedup branches = false → branches.Pairwise fun b b' =>
          ∀ d ∈ docs, ¬(b.2.Holds ctx (.fromDoc d) ∧ b'.2.Holds ctx (.fromDoc d)))) := by
  set found := branches.flatMap fun b => lookupDocs b.2 with hfound
  have hfmem : ∀ d, d ∈ found ↔ d ∈ docs ∧ ∃ b ∈ branches, b.2.Holds ctx (.fromDoc d) := by
    intro d
    rw [hfound, List.mem_flatMap]
    constructor
    · rintro ⟨b, hb, hd⟩
      have := (hexact.mem_iff b.2 d).mp hd
      exact ⟨this.1, b, hb, this.2⟩
    · rintro ⟨hd, b, hb, hh⟩
      exact ⟨b, hb, (hexact.mem_iff b.2 d).mpr ⟨hd, hh⟩⟩
  have hlooked : ∀ d ∈ docs, Satisfies ctx (.fromDoc d) p →
      ∃ b ∈ branches, b.2.Holds ctx (.fromDoc d) := by
    intro d hd hsat
    obtain ⟨es, hes, hall⟩ := exists_looked (heval d hd)
      ((lookedUp_eq ords indexes collection p).trans (by rw [hunion]; rfl)) hsat
    obtain ⟨b, hb, rfl⟩ := List.mem_map.mp hes
    exact ⟨b, hb, (holds_conjuncts b.2).mpr hall⟩
  -- the rows have the members of the union in either case
  have hcover : (∀ d, d ∈ found ↔ d ∈ full) ↔ ∀ d ∈ docs, ∀ b ∈ branches,
      b.2.Holds ctx (.fromDoc d) → Satisfies ctx (.fromDoc d) p := by
    constructor
    · intro hsame d hd b hb hh
      exact ((hmem d).mp ((hsame d).mp ((hfmem d).mpr ⟨hd, b, hb, hh⟩))).2
    · intro hall d
      rw [hfmem d, hmem d]
      refine and_congr_right fun hd => ⟨fun ⟨b, hb, hh⟩ => hall d hd b hb hh, hlooked d hd⟩
  have hrows : (.union (branches.map fun b => .indexScan collection b.1 b.2)
      (computeNeedsDedup branches) : PhysicalOp Ω Φ).rows ctx docs lookupDocs =
        .ok (if computeNeedsDedup branches then dedupById [] found else found) := by
    rw [PhysicalOp.rows, rowsOfInputs_indexScans]
  refine ⟨_, hrows, ?_⟩
  rw [perm_iff_of_nodup hfull]
  cases computeNeedsDedup branches with
  | true =>
    obtain ⟨hnd, hsub, hcov⟩ := dedupById_spec [] found
    have hdmem : ∀ d, d ∈ dedupById [] found ↔ d ∈ found := by
      refine fun d => ⟨fun hd => (hsub d hd).1, fun hd => ?_⟩
      obtain ⟨d', hd', hid⟩ := hcov d hd (by simp)
      have heq := List.inj_on_of_nodup_map hids ((hfmem d').mp (hsub d' hd').1).1
        ((hfmem d).mp hd).1 hid
      rwa [← heq]
    simp only [if_true, hdmem, hcover, Bool.true_eq_false, false_implies, and_true]
    exact and_iff_right (hnd.of_map _)
  | false =>
    have hnd : found.Nodup ↔ branches.Pairwise fun b b' => ∀ d ∈ docs,
        ¬(b.2.Holds ctx (.fromDoc d) ∧ b'.2.Holds ctx (.fromDoc d)) := by
      rw [hfound, List.nodup_flatMap]
      rw [and_iff_right fun (b : IndexRef × IndexLookup) _ => hexact.nodup b.2]
      have hdisj : ∀ b b' : IndexRef × IndexLookup,
          Function.onFun List.Disjoint (fun b : IndexRef × IndexLookup => lookupDocs b.2) b b' ↔
            ∀ d ∈ docs, ¬(b.2.Holds ctx (.fromDoc d) ∧ b'.2.Holds ctx (.fromDoc d)) := by
        intro b b'
        simp only [Function.onFun, List.Disjoint, hexact.mem_iff]
        exact ⟨fun h d hd hh => h ⟨hd, hh.1⟩ ⟨hd, hh.2⟩,
          fun h d hb hb' => h d hb.1 ⟨hb.2, hb'.2⟩⟩
      exact List.Pairwise.iff hdisj
    simp only [Bool.false_eq_true, if_false, true_implies, hnd, hcover]
    exact and_comm

end Exact

/-- The input of an aggregate yields the documents of the filtered full scan, each once,
exactly when nothing is lost. -/
theorem aggregate_exact_iff {Ω Φ : Type} [Numerics] (ctx : EvalContext Ω) (opt : Optimizer)
    (collection : String) (p : Expr Ω) (plan : LogicalPlan Ω Φ)
    (hplan : plan.Aggregates collection p) (docs : List Document)
    (hids : (docs.map (·.id)).Nodup) (heval : ∀ d ∈ docs, Evaluates ctx (.fromDoc d) p)
    (lookupDocs : IndexLookup → List Document) (hexact : ExactLookups ctx docs lookupDocs) :
    ∃ input, (opt.optimize plan).aggregateSource = some input ∧
      ((∃ rows full, input.rows ctx docs lookupDocs = .ok rows ∧
        (PhysicalOp.filter p (.tableScan collection none) : PhysicalOp Ω Φ).rows
          ctx docs lookupDocs = .ok full ∧ rows.Perm full) ↔
        NothingLost ctx opt collection docs p) := by
  refine ⟨_, aggregateSource_optimize hplan, ?_⟩
  have hnd : docs.Nodup := hids.of_map _
  obtain ⟨full, hfull, hsubl, hmem⟩ := filterRows_ok heval
  have hscan : (PhysicalOp.filter p (.tableScan collection none) : PhysicalOp Ω Φ).rows
      ctx docs lookupDocs = .ok full := hfull
  have hreduce : ∀ (op : PhysicalOp Ω Φ) {cond : Prop},
      (∃ rows, op.rows ctx docs lookupDocs = .ok rows ∧ (rows.Perm full ↔ cond)) →
      ((∃ rows full', op.rows ctx docs lookupDocs = .ok rows ∧
        (PhysicalOp.filter p (.tableScan collection none) : PhysicalOp Ω Φ).rows
          ctx docs lookupDocs = .ok full' ∧ rows.Perm full') ↔ cond) := by
    rintro op cond ⟨rows, hrows, hiff⟩
    rw [hscan, hrows, ← hiff]
    simp
  unfold NothingLost
  rw [lookedUp_eq opt.orders _ collection]
  cases hunion : analyzeOrForUnion opt.orders (opt.indexes collection) collection p with
  | none =>
    simp only [Optimizer.aggregateInput, hunion, Option.map_none]
    exact hreduce _ (single_exact_iff heval hnd hexact (opt.orders 0) _ (hsubl.nodup hnd) hmem)
  | some branches =>
    simp only [Optimizer.aggregateInput, hunion, Option.map_some]
    refine (hreduce _ (union_exact_iff heval hids hexact hunion (hsubl.nodup hnd) hmem)).trans ?_
    obtain ⟨-, hlen, hcompound⟩ := analyzeOrForUnion_spec hunion
    rw [computeNeedsDedup_eq_false (Ω := Ω) hlen hcompound]
    simp only [List.forall_mem_map, List.pairwise_map, holds_conjuncts]

/-! ### A third conjunct next to a pair of bounds -/

namespace People

local instance : Numerics := .standIn

def byAge : IndexDef where
  name := "by_age"
  fields := ["age"]
  unique := false
  indexType := .btree

def planner : Optimizer where
  indexes _ := [byAge]
  orders _ := .insertion

/-- `age >= 20 AND age <= 40 AND city = 'Bergen'` -/
def adultsInBergen : Expr Empty :=
  .binaryOp
    (.binaryOp (.binaryOp (.field "age") .gte (.literal (.int 20))) .and
      (.binaryOp (.field "age") .lte (.literal (.int 40)))) .and
    (.binaryOp (.field "city") .eq (.literal (.string "Bergen")))

/-- `age >= 20 AND age <= 40` -/
def adults : Expr Empty :=
  .binaryOp (.binaryOp (.field "age") .gte (.literal (.int 20))) .and
    (.binaryOp (.field "age") .lte (.literal (.int 40)))

/-- `SELECT COUNT(*)` under a filter. -/
def countWhere (p : Expr Empty) : LogicalPlan Empty Unit := .aggregate "people" (some p) () none

open Classical in
/-- Lookups over a collection that holds Ann alone. -/
noncomputable def annLookups (lookup : IndexLookup) : List Document :=
  if lookup.Holds context (.fromDoc ann) then [ann] else []

theorem annLookups_exact : ExactLookups context [ann] annLookups where
  mem_iff lookup d := by
    unfold annLookups
    rw [List.mem_singleton]
    split
    · next h => exact ⟨fun hd => ⟨List.mem_singleton.mp hd, by rwa [List.mem_singleton.mp hd]⟩,
        fun hd => List.mem_singleton.mpr hd.1⟩
    · next h =>
      refine ⟨fun hd => absurd hd List.not_mem_nil, ?_⟩
      rintro ⟨rfl, hd⟩
      exact absurd hd h
  nodup lookup := by unfold annLookups; split <;> simp

theorem annLookups_of_holds {lookup : IndexLookup} (h : lookup.Holds context (.fromDoc ann)) :
    annLookups lookup = [ann] := if_pos h

/-- The plan keeps the two bounds and forgets the city, so Ann of Oslo is counted. -/
theorem adultsInBergen_counts_ann :
    ExactLookups context [ann] annLookups ∧
    ∃ input, (planner.optimize (countWhere adultsInBergen)).aggregateSource = some input ∧
      input.rows context [ann] annLookups = .ok [ann] ∧
      (PhysicalOp.filter adultsInBergen (.tableScan "people" none) :
        PhysicalOp Empty Unit).rows context [ann] annLookups = .ok [] ∧
      ¬ [ann].Perm [] := by
  refine ⟨annLookups_exact, _, rfl, ?_, ?_, by simp⟩
  · have hholds : (IndexLookup.rangeBetween "age" (.int 20) true (.int 40) true).Holds context
        (.fromDoc ann) := ⟨by unfold Compares Satisfies; decide +kernel, by unfold Compares Satisfies; decide +kernel⟩
    exact congrArg Except.ok (annLookups_of_holds hholds)
  · have hfail : evalFilter context adultsInBergen (.fromDoc ann) = .ok false := by decide +kernel
    simp only [PhysicalOp.rows, filterRows, hfail]
    rfl

/-- Without a third conjunct the pair of bounds is the predicate. -/
theorem adults_exact :
    ∃ input, (planner.optimize (countWhere adults)).aggregateSource = some input ∧
      ((∃ rows full, input.rows context [ann] annLookups = .ok rows ∧
        (PhysicalOp.filter adults (.tableScan "people" none) :
          PhysicalOp Empty Unit).rows context [ann] annLookups = .ok full ∧ rows.Perm full) ↔
        NothingLost context planner "people" [ann] adults) :=
  aggregate_exact_iff context planner "people" adults (countWhere adults) (.aggregate () none)
    [ann] (by decide) (by simpa using evaluates_of_isOk (by decide +kernel)) annLookups
    annLookups_exact

end People

end StellarDb
