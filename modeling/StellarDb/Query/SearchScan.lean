import StellarDb.Lib.Window
import StellarDb.Query.Pipeline

/-!
# StellarDb — full-text and nearest-neighbour conditions

`scanAccess` takes every search condition out of the predicate and scans with one of them: the
first nearest-neighbour condition, else the first full-text one. The others of that kind are
dropped; full-text conditions beside a nearest-neighbour one stay in the filter, which cannot
evaluate them. A full-text scan also gets the statement's `LIMIT`, below the filter, the sort and
the offset.

`searches_exact_iff` says for which searches and clauses the rows are nevertheless those of the
documents that meet all conditions.
-/

namespace StellarDb

open Pulling Windows

section Searches

variable {Ω : Type}

/-- The conjuncts of a predicate that are searches, the one that is scanned first. -/
def searchesOf (p : Expr Ω) : List (SearchKind × Ω) :=
  (analyzeForKnn p).1.map (.knn, ·) ++ (analyzeForFts p).1.map (.fts, ·)

/-- The conjuncts of a predicate that are no searches. -/
def ordinaryConditions (p : Expr Ω) : Option (Expr Ω) :=
  (analyzeForKnn p).2.bind fun rest => (analyzeForFts rest).2

/-! ## Taking the searches out -/

theorem extractSearchFromAnd_none {kind : SearchKind} {p : Expr Ω}
    (h : (extractSearchFromAnd kind p).1 = []) : (extractSearchFromAnd kind p).2 = some p := by
  induction p using extractSearchFromAnd.induct kind with
  | case1 e =>
    rw [extractSearchFromAnd, if_pos rfl] at h
    cases h
  | case2 kind' e hkind => rw [extractSearchFromAnd, if_neg hkind]
  | case3 left right ihl ihr =>
    rw [extractSearchFromAnd] at h ⊢
    obtain ⟨hl, hr⟩ := List.append_eq_nil_iff.mp h
    dsimp only
    rw [ihl hl, ihr hr]
  | case4 e hsearch hand => rw [extractSearchFromAnd] <;> assumption

/-- Taking one kind out leaves the searches of the other kind. -/
theorem extractSearchFromAnd_other {kind kind' : SearchKind} (hne : kind' ≠ kind) (p : Expr Ω) :
    (((extractSearchFromAnd kind p).2.map fun rest => (extractSearchFromAnd kind' rest).1).getD [])
      = (extractSearchFromAnd kind' p).1 := by
  induction p using extractSearchFromAnd.induct kind with
  | case1 e =>
    rw [extractSearchFromAnd, if_pos rfl, extractSearchFromAnd, if_neg (Ne.symm hne)]
    rfl
  | case2 k e hkind =>
    rw [extractSearchFromAnd, if_neg hkind]
    rfl
  | case3 left right ihl ihr =>
    rw [extractSearchFromAnd, extractSearchFromAnd, ← ihl, ← ihr]
    cases (extractSearchFromAnd kind left).2 <;> cases (extractSearchFromAnd kind right).2 <;>
      simp [extractSearchFromAnd]
  | case4 e hsearch hand =>
    rw [extractSearchFromAnd] <;> first | assumption | rfl

theorem ordinaryConditions_of_knn {p : Expr Ω} (h : (analyzeForFts p).1 = []) :
    ordinaryConditions p = (analyzeForKnn p).2 := by
  have hother := extractSearchFromAnd_other (show SearchKind.fts ≠ .knn by decide) p
  unfold ordinaryConditions
  cases hrest : (analyzeForKnn p).2 with
  | none => rfl
  | some rest =>
    have hnone : (extractSearchFromAnd .fts rest).1 = [] := by
      unfold analyzeForKnn at hrest
      rw [hrest] at hother
      exact hother.trans h
    exact extractSearchFromAnd_none hnone

theorem ordinaryConditions_of_fts {p : Expr Ω} (h : (analyzeForKnn p).1 = []) :
    ordinaryConditions p = (analyzeForFts p).2 := by
  unfold ordinaryConditions analyzeForKnn
  rw [extractSearchFromAnd_none h]
  rfl

/-- A filter with a search among its conjuncts fails on every row. -/
theorem evalExpr_search_error [Numerics] (ctx : EvalContext Ω) (row : Row) {kind : SearchKind}
    {p : Expr Ω} (h : (extractSearchFromAnd kind p).1 ≠ []) :
    ∃ err, evalExpr ctx row p = .error err := by
  induction p using extractSearchFromAnd.induct kind with
  | case1 e => cases kind <;> exact ⟨_, rfl⟩
  | case2 k e hkind => cases k <;> exact ⟨_, rfl⟩
  | case3 left right ihl ihr =>
    rw [extractSearchFromAnd] at h
    have hsome : (extractSearchFromAnd kind left).1 ≠ [] ∨
        (extractSearchFromAnd kind right).1 ≠ [] := by
      by_contra hno
      rw [not_or, not_not, not_not] at hno
      exact h (by simp [hno.1, hno.2])
    rw [show BinaryOp.and = Connective.and.op from rfl, evalExpr_connective]
    cases hl : evalExpr ctx row left with
    | error err => exact ⟨err, rfl⟩
    | ok l =>
      cases hr : evalExpr ctx row right with
      | error err => exact ⟨err, rfl⟩
      | ok r =>
        -- one side has the search, and would have failed
        rcases hsome with hsome | hsome
        · obtain ⟨err, herr⟩ := ihl hsome
          rw [herr] at hl
          cases hl
        · obtain ⟨err, herr⟩ := ihr hsome
          rw [herr] at hr
          cases hr
  | case4 e hsearch hand =>
    rw [extractSearchFromAnd] at h <;> first | assumption | exact absurd rfl h

end Searches

/-! ## The rows that are asked for -/

section Asked

variable {Ω : Type} [Numerics] (ctx : OperatorContext Ω) (collection : String) (p : Expr Ω)
  (found : SearchKind × Ω → List Document)

/-- What the scans of the searches of a predicate return: each of its documents once, and under a
limit the first of them. A full-text scan with limit zero may fail. -/
structure SearchResults : Prop where
  knn : ∀ e, (.knn, e) ∈ searchesOf p →
    ctx.knnRows collection e = .ok ((found (.knn, e)).map .fromDoc)
  fts : ∀ e, (.fts, e) ∈ searchesOf p →
    ctx.ftsRows collection e none = .ok ((found (.fts, e)).map .fromDoc)
  limited : ∀ e n, (.fts, e) ∈ searchesOf p →
    ctx.ftsRows collection e (some (n + 1)) = .ok (((found (.fts, e)).take (n + 1)).map .fromDoc)
  zero : ∀ e rows, (.fts, e) ∈ searchesOf p → ctx.ftsRows collection e (some 0) = .ok rows →
    rows = []
  nodup : ∀ c ∈ searchesOf p, ((found c).map (·.id)).Nodup

/-- What the scan returns without a limit. -/
def scanned : List Document := ((searchesOf p).head?.map found).getD []

/-- The document is among the results of every search. -/
def inEverySearch (d : Document) : Bool :=
  (searchesOf p).all fun c => (found c).any (·.id = d.id)

/-- The document meets the ordinary conditions. -/
def meetsOrdinary (d : Document) : Bool :=
  (ordinaryConditions p).all fun e => ((evalFilter ctx.eval e (.fromDoc d)).toOption).getD false

/-- The documents of the scan that meet the ordinary conditions. -/
def searchCandidates : List Document := (scanned p found).filter (meetsOrdinary ctx p)

/-- The documents that meet all conditions. -/
def answers : List Document := (searchCandidates ctx p found).filter (inEverySearch p found)

end Asked

namespace SelectAst

variable {Ω : Type} [Numerics] (ctx : OperatorContext Ω) (s : SelectAst Ω)

/-- `SELECT *`: nothing but an order, an offset and a limit. -/
structure SelectsAll (s : SelectAst Ω) : Prop where
  projection : s.projection = .all
  distinct : s.distinct = false
  valueMode : s.valueMode = false

def orderItems : List (OrderItem Ω) := s.order.getD []

/-- The keys by which a document is sorted. -/
def sortKeys (d : Document) : Except ExecuteError (List Value) :=
  s.orderItems.mapM fun item => evalExpr ctx.eval (.fromDoc d) item.expr

/-- The order of the statement. -/
def precedes (d d' : Document) : Prop :=
  compareKeys (s.orderItems.map (·.direction)) ((s.sortKeys ctx d).toOption.getD [])
    ((s.sortKeys ctx d').toOption.getD []) ≠ .gt

instance : DecidableRel (s.precedes ctx) := fun _ _ => inferInstanceAs (Decidable (_ ≠ _))

def sorted (docs : List Document) : List Document := docs.insertionSort (s.precedes ctx)

def skipped : Nat := s.offset.getD 0

variable {ctx s}

theorem ordered_docs {docs : List Document} (h : ∀ d ∈ docs, (s.sortKeys ctx d).isOk = true) :
    s.ordered ctx (docs.map .fromDoc) = .ok ((s.sorted ctx docs).map .fromDoc) := by
  cases hitems : s.order with
  | none =>
    -- without keys no document precedes another one strictly
    have hall : ∀ d d', s.precedes ctx d d' := by
      intro d d'
      show compareKeys (s.orderItems.map (·.direction)) _ _ ≠ .gt
      unfold orderItems
      rw [hitems]
      exact nofun
    have hsorted : s.sorted ctx docs = docs :=
      List.Pairwise.insertionSort_eq (List.pairwise_of_forall hall)
    unfold ordered
    rw [hitems, hsorted]
  | some items =>
    have horder : s.orderItems = items := by
      unfold orderItems
      rw [hitems]
      rfl
    set keyed : Document → Row × List Value :=
      fun d => (.fromDoc d, (s.sortKeys ctx d).toOption.getD []) with hkeyed
    have hrows : (docs.map Row.fromDoc).mapM (keyedRow ctx.eval items) =
        .ok (docs.map keyed) := by
      rw [← Pull.collect_mapM_ofList, Pull.mapM_ofList (g := fun row => keyed row.doc),
        Pull.collect_ofList, List.map_map]
      · rfl
      · intro row hrow
        obtain ⟨d, hd, rfl⟩ := List.mem_map.mp hrow
        have hok := h d hd
        unfold sortKeys at hok
        rw [horder] at hok
        show ((items.mapM fun item => evalExpr ctx.eval (.fromDoc d) item.expr).map fun keys =>
          (Row.fromDoc d, keys)) = .ok (.fromDoc d, (s.sortKeys ctx d).toOption.getD [])
        unfold sortKeys
        rw [horder]
        cases hm : items.mapM fun item => evalExpr ctx.eval (.fromDoc d) item.expr with
        | error e => rw [hm] at hok; cases hok
        | ok keys => rfl
    have hsort : sortByKeys (items.map (·.direction)) (docs.map keyed) =
        (s.sorted ctx docs).map keyed := by
      refine (List.map_insertionSort _ _ _ _ fun d _ d' _ => ?_).symm
      show s.precedes ctx d d' ↔ compareKeys (items.map (·.direction)) _ _ ≠ .gt
      unfold precedes
      rw [horder]
    unfold ordered
    rw [hitems]
    show ((docs.map Row.fromDoc).mapM (keyedRow ctx.eval items)).map _ = _
    rw [hrows]
    show Except.ok ((sortByKeys (items.map (·.direction)) (docs.map keyed)).map (·.1)) = _
    rw [hsort, List.map_map]
    rfl

variable [External] [ValueText]

/-- The rows of a `SELECT *` over documents. -/
theorem reference_docs (hs : s.SelectsAll) {docs : List Document}
    (h : ∀ d ∈ docs, (s.sortKeys ctx d).isOk = true) :
    s.reference ctx (docs.map .fromDoc) =
      .ok ((window s.skipped s.limit (s.sorted ctx docs)).map .fromDoc) := by
  unfold reference
  rw [ordered_docs h]
  show (s.yields ctx _).collect = _
  have hshape : ((Pull.ofList ((s.sorted ctx docs).map Row.fromDoc)).mapM (s.shape ctx)) =
      .ofList ((s.sorted ctx docs).map Row.fromDoc) := by
    rw [Pull.mapM_ofList (g := id), List.map_id]
    intro row hrow
    obtain ⟨d, -, rfl⟩ := List.mem_map.mp hrow
    unfold shape
    rw [hs.valueMode, hs.projection]
    rfl
  unfold yields skipped
  rw [hshape, hs.distinct]
  cases s.offset <;> cases s.limit <;> simp [window, List.map_drop, List.map_take]

variable [Arithmetic]

/-- An input that fails at once: only a statement that asks for no row does not notice. -/
theorem collectAll_fail (hs : s.SelectsAll) {input : PhysicalOp Ω (Clause Ω)} {err : ExecuteError}
    (h : openOp ctx input = .ok (.fail err)) :
    collectAll ctx (applyOffsetAndLimit (applyProjectionAndOrder input s.clauses) s.clauses) =
      if s.order.isNone ∧ s.limit = some 0 then .ok [] else .error err := by
  obtain ⟨projection, distinct, valueMode, filter, group, order, limit, offset⟩ := s
  obtain ⟨rfl, rfl, rfl⟩ := hs
  cases order with
  | some items =>
    -- the sort reads its input while it is opened
    rw [if_neg (by simp)]
    show collectAll ctx (applyOffsetAndLimit
      (.project (.projection .all) (.sort (.order items) input)) _) = _
    unfold collectAll applyOffsetAndLimit SelectAst.clauses
    cases offset <;> cases limit <;> simp only [openOp, h] <;> rfl
  | none =>
    show collectAll ctx (applyOffsetAndLimit (.project (.projection .all) input) _) = _
    have hshape : (Pull.fail err : Pull ExecuteError Row).mapM
        (projectRow ctx.kinds ctx.eval .all) = .fail err := rfl
    have hdrop : ∀ count, (Pull.fail err : Pull ExecuteError Row).drop count = .fail err := by
      intro count
      cases count <;> rfl
    unfold collectAll applyOffsetAndLimit SelectAst.clauses
    cases limit with
    | none =>
      cases offset <;> simp only [openOp, h, Except.map, hshape, hdrop] <;> rfl
    | some n =>
      cases n <;> cases offset <;> simp only [openOp, h, Except.map, hshape, hdrop] <;> rfl

/-- An input that cannot be opened. -/
theorem collectAll_error (hs : s.SelectsAll) {input : PhysicalOp Ω (Clause Ω)} {err : ExecuteError}
    (h : openOp ctx input = .error err) :
    collectAll ctx (applyOffsetAndLimit (applyProjectionAndOrder input s.clauses) s.clauses) =
      .error err := by
  obtain ⟨projection, distinct, valueMode, filter, group, order, limit, offset⟩ := s
  obtain ⟨rfl, rfl, rfl⟩ := hs
  show collectAll ctx (applyOffsetAndLimit (.project (.projection .all)
    (withOrder input (order.map .order))) _) = _
  unfold collectAll applyOffsetAndLimit SelectAst.clauses withOrder
  cases order <;> cases offset <;> cases limit <;>
    simp only [Option.map, openOp, h, Except.map]

end SelectAst

/-! ## The plan -/

section Exact

variable {Ω : Type} [Numerics] (ctx : OperatorContext Ω) (collection : String) (p : Expr Ω)
  (found : SearchKind × Ω → List Document) (s : SelectAst Ω)

/-- What the statement shows of the candidates is in every search. -/
def ShowsAnswers : Prop :=
  s.limit = some 0 ∨ (searchCandidates ctx p found).length ≤ s.skipped ∨
    ∀ d ∈ upTo s.skipped s.limit (s.sorted ctx (searchCandidates ctx p found)),
      inEverySearch p found d = true

/-- The candidates among the first documents of the scan. -/
def frontCandidates (n : Nat) : List Document :=
  ((scanned p found).take n).filter (meetsOrdinary ctx p)

/-- The first `n` documents of the scan are enough for the statement: the offset skips all that
there is; or it skips all in which their candidates differ from the answers; or there is no
offset, and they are `n` answers that no other answer precedes. -/
def FrontSuffices (n : Nat) : Prop :=
  ((frontCandidates ctx p found n).length ≤ s.skipped ∧
    (answers ctx p found).length ≤ s.skipped) ∨
  ((frontCandidates ctx p found n).length = (answers ctx p found).length ∧
    (∀ d ∈ frontCandidates ctx p found n, inEverySearch p found d = false →
      d ∈ (s.sorted ctx (frontCandidates ctx p found n)).take s.skipped) ∧
    ∀ d ∈ answers ctx p found, d ∉ frontCandidates ctx p found n →
      d ∈ (s.sorted ctx (answers ctx p found)).take s.skipped) ∨
  (s.skipped = 0 ∧ (frontCandidates ctx p found n).length = n ∧
    (∀ d ∈ frontCandidates ctx p found n, inEverySearch p found d = true) ∧
    ∀ d d', [d, d'].Sublist (s.sorted ctx (searchCandidates ctx p found)) →
      inEverySearch p found d = true → d ∉ frontCandidates ctx p found n →
      d' ∉ frontCandidates ctx p found n)

/-- The condition under which the rows are right. -/
def SearchPlanExact : Prop :=
  match (analyzeForKnn p).1, (analyzeForFts p).1 with
  | _ :: _, [] => ShowsAnswers ctx p found s
  -- the filter cannot evaluate a full-text condition
  | e :: _, _ :: _ => found (.knn, e) = [] ∨ (s.order.isNone ∧ s.limit = some 0)
  | [], e :: _ =>
    match s.limit with
    | none => ShowsAnswers ctx p found s
    | some 0 => (ctx.ftsRows collection e (some 0)).isOk = true
    | some (n + 1) => FrontSuffices ctx p found s (n + 1)
  | [], [] => True

variable {ctx collection p found s}

/-- What the theorem asks of a statement and its store: `SELECT *` with a predicate that has a
search among its conjuncts, whose ordinary conditions and sort keys evaluate on what is scanned,
and keys that are ordered. -/
structure SearchStatement (ctx : OperatorContext Ω) (collection : String) (p : Expr Ω)
    (found : SearchKind × Ω → List Document) (s : SelectAst Ω) : Prop where
  all : s.SelectsAll
  filter : s.filter = some p
  searches : searchesOf p ≠ []
  results : SearchResults ctx collection p found
  conditions : ∀ e, ordinaryConditions p = some e → ∀ d ∈ scanned p found,
    Evaluates ctx.eval (.fromDoc d) e
  keys : ∀ d ∈ scanned p found, (s.sortKeys ctx d).isOk = true
  ordered : Orders (s.precedes ctx) (scanned p found)

theorem sorted_filter (h : SearchStatement ctx collection p found s) {docs : List Document}
    (hsub : ∀ d ∈ docs, d ∈ scanned p found) (q : Document → Bool) :
    s.sorted ctx (docs.filter q) = (s.sorted ctx docs).filter q :=
  (filter_insertionSort (h.ordered.subset hsub) q).symm

theorem scanned_nodup (h : SearchStatement ctx collection p found s) :
    ((scanned p found).map (·.id)).Nodup := by
  unfold scanned
  cases hc : searchesOf p with
  | nil => exact absurd hc h.searches
  | cons c cs => exact h.results.nodup c (by rw [hc]; exact List.mem_cons_self)

theorem sorted_nodup (h : SearchStatement ctx collection p found s) :
    (s.sorted ctx (searchCandidates ctx p found)).Nodup := by
  have hcandidates : (searchCandidates ctx p found).Nodup :=
    ((scanned_nodup h).of_map _).filter _
  exact (List.perm_insertionSort _ _).nodup_iff.mpr hcandidates

theorem mem_scanned_of_searchCandidates {d : Document} (hd : d ∈ searchCandidates ctx p found) :
    d ∈ scanned p found :=
  List.mem_of_mem_filter hd

/-- The filter of the ordinary conditions passes the candidates. -/
theorem openOp_withFilter [External] [ValueText] [Arithmetic]
    (h : SearchStatement ctx collection p found s) {input : PhysicalOp Ω (Clause Ω)}
    {docs : List Document} (hsub : ∀ d ∈ docs, d ∈ scanned p found)
    (hinput : openOp ctx input = .ok (.ofList (docs.map .fromDoc))) :
    openOp ctx (withFilter input (ordinaryConditions p)) =
      .ok (.ofList ((docs.filter (meetsOrdinary ctx p)).map .fromDoc)) := by
  have hmeets := h.conditions
  unfold meetsOrdinary
  cases hcond : ordinaryConditions p with
  | none => simpa [withFilter] using hinput
  | some e =>
    show openOp ctx (.filter e input) = _
    rw [openOp, hinput]
    show Except.ok ((Pull.ofList (docs.map Row.fromDoc)).filterM (evalFilter ctx.eval e)) = _
    have hpass : ∀ row ∈ docs.map Row.fromDoc, evalFilter ctx.eval e row =
        .ok (((evalFilter ctx.eval e row).toOption).getD false) := by
      intro row hrow
      obtain ⟨d, hd, rfl⟩ := List.mem_map.mp hrow
      obtain ⟨b, hb⟩ := (hmeets e hcond d (hsub d hd)).filter
      rw [hb]
      rfl
    rw [Pull.filterM_ofList hpass, List.filter_map]
    rfl

theorem reference_answers [External] [ValueText] (h : SearchStatement ctx collection p found s) :
    s.reference ctx ((answers ctx p found).map .fromDoc) =
      .ok ((window s.skipped s.limit (s.sorted ctx (answers ctx p found))).map .fromDoc) := by
  apply SelectAst.reference_docs h.all
  intro d hd
  exact h.keys d (mem_scanned_of_searchCandidates (List.mem_of_mem_filter hd))

/-- A plan over documents of the scan shows a window of them. -/
theorem plan_exact_iff [External] [ValueText] [Arithmetic]
    (h : SearchStatement ctx collection p found s) {input : PhysicalOp Ω (Clause Ω)}
    {docs : List Document} (hsub : ∀ d ∈ docs, d ∈ scanned p found)
    (hinput : openOp ctx input = .ok (.ofList (docs.map .fromDoc))) :
    collectAll ctx (applyOffsetAndLimit (applyProjectionAndOrder input s.clauses) s.clauses) =
        s.reference ctx ((answers ctx p found).map .fromDoc) ↔
      window s.skipped s.limit (s.sorted ctx docs) =
        window s.skipped s.limit (s.sorted ctx (answers ctx p found)) := by
  rw [collectAll_clauses s hinput, SelectAst.reference_docs h.all fun d hd => h.keys d (hsub d hd),
    reference_answers h, Except.ok.injEq]
  constructor
  · intro heq
    apply List.map_injective_iff.mpr _ heq
    intro d d' hrow
    exact congrArg Row.doc hrow
  · exact congrArg _

/-- A scan without a limit. -/
theorem showsAnswers_iff (h : SearchStatement ctx collection p found s) :
    window s.skipped s.limit (s.sorted ctx (searchCandidates ctx p found)) =
        window s.skipped s.limit (s.sorted ctx (answers ctx p found)) ↔
      ShowsAnswers ctx p found s := by
  unfold answers
  rw [sorted_filter h fun d => mem_scanned_of_searchCandidates, eq_comm,
    window_filter_iff (sorted_nodup h)]
  unfold ShowsAnswers SelectAst.sorted
  rw [List.length_insertionSort]

/-- A scan that stops at the limit of the statement. -/
theorem frontSuffices_iff (h : SearchStatement ctx collection p found s) {n : Nat} (hn : 0 < n)
    (hlimit : s.limit = some n) :
    window s.skipped s.limit (s.sorted ctx (frontCandidates ctx p found n)) =
        window s.skipped s.limit (s.sorted ctx (answers ctx p found)) ↔
      FrontSuffices ctx p found s n := by
  classical
  set front := frontCandidates ctx p found n with hfront
  set sorted := s.sorted ctx (searchCandidates ctx p found) with hsorted
  -- the candidates of the front are those candidates that are in it
  have hfilter : (searchCandidates ctx p found).filter (fun d => decide (d ∈ front)) = front := by
    have hsplit : searchCandidates ctx p found =
        front ++ ((scanned p found).drop n).filter (meetsOrdinary ctx p) := by
      unfold searchCandidates
      rw [hfront, frontCandidates, ← List.filter_append, List.take_append_drop]
    have hnodup : (searchCandidates ctx p found).Nodup := ((scanned_nodup h).of_map _).filter _
    rw [hsplit, List.nodup_append] at hnodup
    rw [hsplit, List.filter_append, List.filter_eq_self.mpr fun d hd => decide_eq_true hd,
      List.filter_eq_nil_iff.mpr, List.append_nil]
    intro d hd hmem
    exact hnodup.2.2 d (of_decide_eq_true hmem) d hd rfl
  have hsub : ∀ d ∈ searchCandidates ctx p found, d ∈ scanned p found := fun d =>
    mem_scanned_of_searchCandidates
  have hsortedFront : s.sorted ctx front = sorted.filter fun d => decide (d ∈ front) := by
    rw [← sorted_filter h hsub, hfilter]
  have hsortedAnswers : s.sorted ctx (answers ctx p found) =
      sorted.filter (inEverySearch p found) :=
    sorted_filter h hsub _
  have hlenFront : (s.sorted ctx front).length = front.length := List.length_insertionSort _ _
  have hlenAnswers : (s.sorted ctx (answers ctx p found)).length =
      (answers ctx p found).length := List.length_insertionSort _ _
  have hle : front.length ≤ n :=
    (List.length_filter_le _ _).trans ((List.length_take_le n _))
  have hwindow : window s.skipped s.limit (s.sorted ctx front) =
      (s.sorted ctx front).drop s.skipped := by
    rw [hlimit]
    apply List.take_of_length_le
    rw [List.length_drop, hlenFront]
    omega
  rw [hwindow, hlimit, hsortedFront, hsortedAnswers, drop_eq_window_iff _ _ _ hn (by
      rw [← hsortedFront, hlenFront]; exact hle),
    drop_filter_iff (sorted_nodup h)]
  rw [← hsortedFront, ← hsortedAnswers, hlenFront, hlenAnswers]
  unfold FrontSuffices
  simp only [← hfront, hsorted, decide_eq_false_iff_not, SelectAst.sorted,
    List.mem_insertionSort, or_assoc]

/-- A nearest-neighbour scan under a filter with a full-text condition. -/
theorem mixed_exact_iff [External] [ValueText] [Arithmetic]
    (h : SearchStatement ctx collection p found s) {e : Ω} {es : List Ω} {e' : Ω} {es' : List Ω}
    (hknn : (analyzeForKnn p).1 = e :: es) (hfts : (analyzeForFts p).1 = e' :: es') :
    collectAll ctx (applyOffsetAndLimit (applyProjectionAndOrder
        (withFilter (.knnScan collection e) (analyzeForKnn p).2) s.clauses) s.clauses) =
        s.reference ctx ((answers ctx p found).map .fromDoc) ↔
      found (.knn, e) = [] ∨ (s.order.isNone ∧ s.limit = some 0) := by
  have hsearches : searchesOf p = (.knn, e) :: (es.map (.knn, ·) ++ (e' :: es').map (.fts, ·)) := by
    unfold searchesOf
    rw [hknn, hfts]
    rfl
  have hscanned : scanned p found = found (.knn, e) := by
    unfold scanned
    rw [hsearches]
    rfl
  have hscan : openOp ctx (.knnScan collection e) =
      .ok (.ofList ((found (.knn, e)).map .fromDoc)) := by
    rw [openOp, h.results.knn e (by rw [hsearches]; exact List.mem_cons_self)]
    rfl
  -- what remains has the full-text conditions
  have hother := extractSearchFromAnd_other (show SearchKind.fts ≠ .knn by decide) p
  obtain ⟨rest, hrest⟩ : ∃ rest, (analyzeForKnn p).2 = some rest := by
    cases hrest : (analyzeForKnn p).2 with
    | some rest => exact ⟨rest, rfl⟩
    | none =>
      unfold analyzeForKnn at hrest
      unfold analyzeForFts at hfts
      rw [hrest, hfts] at hother
      cases hother
  have hsearch : (extractSearchFromAnd .fts rest).1 ≠ [] := by
    unfold analyzeForKnn at hrest
    unfold analyzeForFts at hfts
    rw [hrest, hfts] at hother
    show ((Option.map (fun rest => (extractSearchFromAnd .fts rest).1) (some rest)).getD []) ≠ []
    rw [hother]
    exact List.cons_ne_nil _ _
  rw [hrest]
  show collectAll ctx (applyOffsetAndLimit (applyProjectionAndOrder
    (.filter rest (.knnScan collection e)) s.clauses) s.clauses) = _ ↔ _
  have hfilter : openOp ctx (.filter rest (.knnScan collection e)) =
      .ok ((Pull.ofList ((found (.knn, e)).map Row.fromDoc)).filterM
        (evalFilter ctx.eval rest)) := by
    rw [openOp, hscan]
    rfl
  cases hfound : found (.knn, e) with
  | nil =>
    have hnone : answers ctx p found = [] := by
      unfold answers searchCandidates
      rw [hscanned, hfound]
      rfl
    rw [hfound] at hfilter
    have hnil : openOp ctx (.filter rest (.knnScan collection e)) = .ok (.ofList []) := hfilter
    rw [collectAll_clauses s hnil, hnone]
    simp
  | cons d docs =>
    obtain ⟨err, herr⟩ := evalExpr_search_error ctx.eval (.fromDoc d) hsearch
    have hfail : openOp ctx (.filter rest (.knnScan collection e)) = .ok (.fail err) := by
      have herr' : evalFilter ctx.eval rest (.fromDoc d) = .error err := by
        rw [evalFilter, herr]
        rfl
      rw [hfilter, hfound, List.map_cons, Pull.ofList, Pull.filterM_error _ herr']
    rw [SelectAst.collectAll_fail h.all hfail, reference_answers h]
    constructor
    · intro heq
      split at heq
      · next hno => exact Or.inr hno
      · cases heq
    · rintro (hnil | hno)
      · cases hnil
      · rw [if_pos hno, hno.2]
        simp [window]

/-- The rows of a statement with searches are those of the documents that meet all conditions,
ordered, offset and limited, if and only if the condition holds. -/
theorem searches_exact_iff [External] [ValueText] [Arithmetic] (opt : Optimizer)
    (h : SearchStatement ctx collection p found s) :
    collectAll ctx (opt.optimize (s.scanPlan collection none)) =
        s.reference ctx ((answers ctx p found).map .fromDoc) ↔
      SearchPlanExact ctx collection p found s := by
  have hplan : opt.optimize (s.scanPlan collection none) = applyOffsetAndLimit
      (applyProjectionAndOrder (opt.scanAccess collection p s.limit) s.clauses) s.clauses := by
    unfold SelectAst.scanPlan
    rw [h.filter]
    rfl
  rw [hplan]
  have hsub : ∀ d ∈ searchCandidates ctx p found, d ∈ scanned p found := fun d =>
    mem_scanned_of_searchCandidates
  unfold SearchPlanExact
  have hsearches := h.searches
  cases hknn : (analyzeForKnn p).1 with
  | cons e es =>
    cases hfts : (analyzeForFts p).1 with
    | cons e' es' =>
      have haccess : opt.scanAccess collection p s.limit =
          (withFilter (.knnScan collection e) (analyzeForKnn p).2 : PhysicalOp Ω (Clause Ω)) := by
        unfold Optimizer.scanAccess
        rw [← Prod.mk.eta (p := analyzeForKnn p), hknn]
      rw [haccess]
      exact mixed_exact_iff h hknn hfts
    | nil =>
      have hmem : (.knn, e) ∈ searchesOf p := by
        unfold searchesOf
        rw [hknn]
        exact List.mem_cons_self
      have hscanned : scanned p found = found (.knn, e) := by
        unfold scanned searchesOf
        rw [hknn]
        rfl
      have haccess : opt.scanAccess collection p s.limit = (withFilter (.knnScan collection e)
          (ordinaryConditions p) : PhysicalOp Ω (Clause Ω)) := by
        unfold Optimizer.scanAccess
        rw [ordinaryConditions_of_knn hfts, ← Prod.mk.eta (p := analyzeForKnn p), hknn]
      have hscan : openOp ctx (.knnScan collection e) =
          .ok (.ofList ((scanned p found).map .fromDoc)) := by
        rw [openOp, h.results.knn e hmem, hscanned]
        rfl
      rw [haccess, plan_exact_iff h hsub (openOp_withFilter h (fun _ => id) hscan)]
      exact showsAnswers_iff h
  | nil =>
    cases hfts : (analyzeForFts p).1 with
    | nil =>
      unfold searchesOf at hsearches
      rw [hknn, hfts] at hsearches
      exact absurd rfl hsearches
    | cons e es =>
      have hmem : (.fts, e) ∈ searchesOf p := by
        unfold searchesOf
        rw [hknn, hfts]
        exact List.mem_cons_self
      have hscanned : scanned p found = found (.fts, e) := by
        unfold scanned searchesOf
        rw [hknn, hfts]
        rfl
      have haccess : opt.scanAccess collection p s.limit =
          (withFilter (.ftsScan collection e s.limit) (ordinaryConditions p) :
            PhysicalOp Ω (Clause Ω)) := by
        unfold Optimizer.scanAccess
        rw [ordinaryConditions_of_fts hknn, ← Prod.mk.eta (p := analyzeForKnn p), hknn,
          ← Prod.mk.eta (p := analyzeForFts p), hfts]
      rw [haccess]
      cases hlimit : s.limit with
      | none =>
        have hscan : openOp ctx (.ftsScan collection e none) =
            .ok (.ofList ((scanned p found).map .fromDoc)) := by
          rw [openOp, h.results.fts e hmem, hscanned]
          rfl
        rw [plan_exact_iff h hsub (openOp_withFilter h (fun _ => id) hscan)]
        exact showsAnswers_iff h
      | some n =>
        cases n with
        | zero =>
          show _ ↔ (ctx.ftsRows collection e (some 0)).isOk = true
          cases hrows : ctx.ftsRows collection e (some 0) with
          | error err =>
            have hfail : openOp ctx (withFilter (.ftsScan collection e (some 0))
                (ordinaryConditions p)) = .error err := by
              cases ordinaryConditions p <;> simp only [withFilter, openOp, hrows, Except.map]
            rw [SelectAst.collectAll_error h.all hfail, reference_answers h]
            exact ⟨(fun h => by cases h), fun h => by cases h⟩
          | ok rows =>
            obtain rfl := h.results.zero e rows hmem hrows
            have hscan : openOp ctx (.ftsScan collection e (some 0)) =
                .ok (.ofList (([] : List Document).map .fromDoc)) := by
              rw [openOp, hrows]
              rfl
            have hnil : ∀ d ∈ ([] : List Document), d ∈ scanned p found := List.forall_mem_nil _
            rw [plan_exact_iff h hnil (openOp_withFilter h hnil hscan)]
            simp [hlimit, window, Except.isOk, Except.toBool]
        | succ n =>
          have hscan : openOp ctx (.ftsScan collection e (some (n + 1))) =
              .ok (.ofList (((scanned p found).take (n + 1)).map .fromDoc)) := by
            rw [openOp, h.results.limited e n hmem, hscanned]
            rfl
          have htake : ∀ d ∈ (scanned p found).take (n + 1), d ∈ scanned p found := fun d =>
            List.mem_of_mem_take
          rw [plan_exact_iff h (fun d hd => htake d (List.mem_of_mem_filter hd))
            (openOp_withFilter h htake hscan)]
          exact frontSuffices_iff h (Nat.succ_pos n) hlimit

end Exact

/-! ## Two letters -/

namespace Letters

local instance : External := .standIn

local instance : Numerics := .standIn

local instance : ValueText := .standIn

local instance : Arithmetic := .standIn

def letter (id : String) (published : Bool) : Document where
  id := id
  fields := [("published", .bool published)]
  wf := by cases published <;> rfl

/-- Both letters match every query; the one that is not published scores higher. -/
def letters : List Document := [letter "letters:1" false, letter "letters:2" true]

def found (_ : SearchKind × String) : List Document := letters

/-- A search engine that wants a positive limit. -/
def context : OperatorContext String where
  eval :=
    { getDocument := fun _ _ => .ok none
      arith := fun _ _ _ => .error .divisionByZero
      valueRepr := fun _ => ""
      valueTypeName := fun _ => ""
      other := fun _ _ => .error (.other "unexpected") }
  kinds := ⟨fun _ => false, fun _ => false, id⟩
  listDocumentsPaged _ _ _ := .ok ([], none)
  indexDocs _ _ := .ok []
  ftsRows _ _ limit :=
    match limit with
    | none => .ok (letters.map .fromDoc)
    | some 0 => .error (.other "Limit must be strictly greater than 0.")
    | some n => .ok ((letters.take n).map .fromDoc)
  knnRows _ _ := .ok (letters.map .fromDoc)
  fuel := 0

/-- `body @@ 'sea' AND published = true` -/
def publishedAtSea : Expr String :=
  .binaryOp (.search .fts "sea") .and
    (.binaryOp (.field "published") .eq (.literal (.bool true)))

/-- `SELECT * FROM letters WHERE body @@ 'sea' AND published = true LIMIT ..` -/
def select (limit : Option Nat) : SelectAst String where
  projection := .all
  distinct := false
  valueMode := false
  filter := some publishedAtSea
  group := none
  order := none
  limit := limit
  offset := none

def planner : Optimizer := ⟨fun _ => [], fun _ => .insertion⟩

theorem select_statement (limit : Option Nat) :
    SearchStatement context "letters" publishedAtSea found (select limit) where
  all := ⟨rfl, rfl, rfl⟩
  filter := rfl
  searches := List.cons_ne_nil _ _
  results := {
    knn := fun _ _ => rfl
    fts := fun _ _ => rfl
    limited := fun _ _ _ => rfl
    zero := fun _ _ _ h => by cases h
    nodup := fun _ _ => show (letters.map (·.id)).Nodup by decide }
  conditions := by
    intro e he d hd
    obtain rfl : .binaryOp (.field "published") .eq (.literal (.bool true)) = e :=
      Option.some.inj he
    apply evaluates_of_isOk
    have hd' : d ∈ letters := hd
    simp only [letters, List.mem_cons, List.not_mem_nil, or_false] at hd'
    rcases hd' with rfl | rfl <;> rfl
  keys := fun _ _ => rfl
  ordered := {
    total := fun _ _ _ _ => Or.inl nofun
    trans := fun _ _ _ _ _ _ _ _ => nofun }

theorem published_exact :
    collectAll context (planner.optimize ((select none).scanPlan "letters" none)) =
      (select none).reference context
        ((answers context publishedAtSea found).map .fromDoc) := by
  apply (searches_exact_iff planner (select_statement none)).mpr
  show ShowsAnswers context publishedAtSea found (select none)
  exact Or.inr (Or.inr (by decide +kernel))

/-- Under `LIMIT 1` the scan stops at the letter that is not published. -/
theorem published_lost :
    SearchStatement context "letters" publishedAtSea found (select (some 1)) ∧
      (collectAll context (planner.optimize ((select (some 1)).scanPlan "letters" none))).map
        (·.map (·.doc.id)) = .ok [] ∧
      ((select (some 1)).reference context
        ((answers context publishedAtSea found).map .fromDoc)).map (·.map (·.doc.id)) =
          .ok ["letters:2"] :=
  ⟨select_statement (some 1), by decide +kernel, by decide +kernel⟩

end Letters

end StellarDb
