import StellarDb.Query.Traversal

/-!
# StellarDb — the levels of a traversal

The loop works the search off level by level. Whatever the chunks, the map of a batch and the
order of the hasher do, a level ends with an empty bucket after every node of it was followed
(`yields_level`): the results `H` of the level are taken one after the other (`takeAll`), and
nothing else happens. A batch follows a node once, however often the node is in it; so `H` has
what the nodes of the bucket lead to, and has it as often as they do if no large bucket has a
node twice that leads anywhere (`Clean`).
-/

namespace StellarDb

open Levels

variable {Φ : Type}

/-! ## Depths -/

section Depths

variable {steps init : List (TraversalStep Φ)} {step : TraversalStep Φ} {depth stepIdx relDepth : Nat}

@[simp]
theorem maxDepth_cons (step : TraversalStep Φ) (rest : List (TraversalStep Φ)) :
    maxDepth (step :: rest) = step.levels + maxDepth rest := rfl

@[simp]
theorem maxDepth_nil : maxDepth ([] : List (TraversalStep Φ)) = 0 := rfl

theorem maxDepth_append (init rest : List (TraversalStep Φ)) :
    maxDepth (init ++ rest) = maxDepth init + maxDepth rest := by
  simp [maxDepth]

/-- The `Next` functions of the levels, one after the other. -/
def schedule (next : TraversalStep Φ → Next String Edge) (steps : List (TraversalStep Φ)) :
    List (Next String Edge) :=
  steps.flatMap fun step => List.replicate step.levels (next step)

theorem length_schedule (next : TraversalStep Φ → Next String Edge)
    (steps : List (TraversalStep Φ)) : (schedule next steps).length = maxDepth steps := by
  simp [schedule, maxDepth, List.length_flatMap]

theorem depthToStep_isSome : (depthToStep steps depth).isSome ↔ depth < maxDepth steps := by
  induction steps generalizing depth with
  | nil => simp [depthToStep]
  | cons step rest ih =>
    rw [depthToStep, maxDepth_cons]
    by_cases hlt : depth < step.levels
    · rw [if_pos hlt]
      simp only [Option.isSome_some, true_iff]
      omega
    · rw [if_neg hlt, Option.isSome_map, ih]
      omega

/-- A depth lies in its step, and the schedule has the step's function there. -/
theorem depthToStep_some (h : depthToStep steps depth = some (stepIdx, relDepth)) :
    ∃ step, steps[stepIdx]? = some step ∧ relDepth < step.levels ∧
      depth = maxDepth (steps.take stepIdx) + relDepth ∧
      ∀ next, (schedule next steps)[depth]? = some (next step) := by
  induction steps generalizing depth stepIdx with
  | nil => cases h
  | cons step rest ih =>
    rw [depthToStep] at h
    by_cases hlt : depth < step.levels
    · rw [if_pos hlt, Option.some.injEq, Prod.mk.injEq] at h
      obtain ⟨rfl, rfl⟩ := h
      refine ⟨step, rfl, hlt, (Nat.zero_add _).symm, fun next => ?_⟩
      rw [schedule, List.flatMap_cons, List.getElem?_append_left (by simpa using hlt)]
      exact List.getElem?_replicate_of_lt hlt
    · rw [if_neg hlt, Option.map_eq_some_iff] at h
      obtain ⟨⟨i, rel⟩, hr, heq⟩ := h
      rw [Prod.mk.injEq] at heq
      obtain ⟨rfl, rfl⟩ := heq
      obtain ⟨found, hfound, hrel, hdepth, hnext⟩ := ih hr
      refine ⟨found, hfound, hrel, ?_, fun next => ?_⟩
      · show depth = maxDepth ((step :: rest).take (i + 1)) + rel
        rw [List.take_succ_cons, maxDepth_cons]
        omega
      · have hlen : (List.replicate step.levels (next step)).length = step.levels :=
          List.length_replicate
        rw [schedule, List.flatMap_cons, List.getElem?_append_right (by omega), hlen]
        exact hnext next

/-- Rows are emitted at this depth: it lies in the last step, at its minimum or below. -/
def emitsAt (steps : List (TraversalStep Φ)) (depth : Nat) : Bool :=
  match depthToStep steps depth with
  | none => false
  | some (stepIdx, relDepth) =>
    decide (steps.length ≤ stepIdx + 1) && steps[stepIdx]?.any (·.stepMinDepth ≤ relDepth)

/-- Only the last level of the last step has no level after it. -/
theorem continues_of_lt (h : depthToStep steps depth = some (stepIdx, relDepth))
    (hstep : steps[stepIdx]? = some step) (hlast : steps.length ≤ stepIdx + 1)
    (hlt : depth + 1 < maxDepth steps) : relDepth + 1 < step.levels := by
  obtain ⟨found, hfound, -, hdepth, -⟩ := depthToStep_some h
  obtain rfl : found = step := Option.some.inj (hfound.symm.trans hstep)
  have hidx : stepIdx < steps.length := (List.getElem?_eq_some_iff.mp hstep).1
  have hsteps : steps = steps.take stepIdx ++ [found] := by
    conv_lhs => rw [← List.take_append_drop stepIdx steps]
    rw [List.drop_eq_getElem_cons hidx, (List.getElem?_eq_some_iff.mp hstep).2,
      List.drop_eq_nil_of_le hlast]
  have hmax : maxDepth steps = maxDepth (steps.take stepIdx) + found.levels := by
    conv_lhs => rw [hsteps]
    rw [maxDepth_append]
    rfl
  omega

/-- Rows are emitted from the minimum depth of the last step on. -/
theorem emitsAt_iff {lastStep : TraversalStep Φ} (hlt : depth < maxDepth (init ++ [lastStep])) :
    emitsAt (init ++ [lastStep]) depth = true ↔ maxDepth init + lastStep.stepMinDepth ≤ depth := by
  obtain ⟨⟨stepIdx, relDepth⟩, hdepth⟩ := Option.isSome_iff_exists.mp
    (depthToStep_isSome.mpr hlt)
  obtain ⟨step, hstep, hrel, hoffset, -⟩ := depthToStep_some hdepth
  have hidx : stepIdx < (init ++ [lastStep]).length := (List.getElem?_eq_some_iff.mp hstep).1
  rw [emitsAt, hdepth]
  simp only [hstep, Option.any_some, Bool.and_eq_true, decide_eq_true_eq]
  rw [List.length_append, List.length_singleton] at hidx ⊢
  rcases Nat.lt_or_ge stepIdx init.length with hinit | hinit
  · -- the depth lies in a step before
    have htake : (init ++ [lastStep]).take (stepIdx + 1) = init.take (stepIdx + 1) :=
      List.take_append_of_le_length hinit
    have hsucc : maxDepth ((init ++ [lastStep]).take (stepIdx + 1)) =
        maxDepth ((init ++ [lastStep]).take stepIdx) + step.levels := by
      rw [List.take_add_one, hstep, maxDepth_append]
      rfl
    have hle : maxDepth (init.take (stepIdx + 1)) ≤ maxDepth init := by
      conv_rhs => rw [← List.take_append_drop (stepIdx + 1) init, maxDepth_append]
      exact Nat.le_add_right _ _
    rw [htake] at hsucc
    omega
  · obtain rfl : stepIdx = init.length := by omega
    have htake : (init ++ [lastStep]).take init.length = init := List.take_left
    have hlast : step = lastStep := by
      rw [List.getElem?_append_right (Nat.le_refl _), Nat.sub_self] at hstep
      exact (Option.some.inj hstep).symm
    rw [htake] at hoffset
    subst hlast
    omega

end Depths

namespace TraversalOp

/-! ## A level -/

/-- Take queued results one after the other. -/
def takeAll (op : TraversalOp Φ) :
    List (Edge × String) → TraversalOp Φ × List (Edge × String)
  | [] => (op, [])
  | hop :: rest =>
    let r := op.takeResult hop.1 hop.2
    let later := r.1.takeAll rest
    (later.1, r.2.toList ++ later.2)

/-- The operator within a level, with this bucket and these results queued. -/
def working (op : TraversalOp Φ) (nodes : List String) (pending : List (Edge × String)) :
    TraversalOp Φ :=
  { op.setBucket op.currentDepth nodes with pendingResults := pending }

section Working

variable {op : TraversalOp Φ} {nodes nodes' : List String} {pending pending' : List (Edge × String)}

@[simp]
theorem working_working :
    (op.working nodes pending).working nodes' pending' = op.working nodes' pending' := by
  simp [working, setBucket]

theorem working_self (h : op.pendingResults = pending) :
    op.working (op.depthBuckets op.currentDepth) pending = op := by
  subst h
  simp [working, setBucket]

theorem pushBucket_working (node : String) :
    (op.working nodes pending).pushBucket (op.currentDepth + 1) node =
      (op.pushBucket (op.currentDepth + 1) node).working nodes pending := by
  have hne : op.currentDepth + 1 ≠ op.currentDepth := Nat.succ_ne_self _
  simp only [working, setBucket, pushBucket, Function.update_of_ne hne]
  rw [Function.update_comm hne]

/-- Taking a result does not look at the bucket of its level or at the queue. -/
theorem takeResult_working (edge : Edge) (nextNode : String) :
    (op.working nodes pending).takeResult edge nextNode =
      ((op.takeResult edge nextNode).1.working nodes pending, (op.takeResult edge nextNode).2) := by
  unfold takeResult
  simp only [show (op.working nodes pending).expr = op.expr from rfl,
    show (op.working nodes pending).currentDepth = op.currentDepth from rfl,
    show (op.working nodes pending).bucketCount = op.bucketCount from rfl,
    show (op.working nodes pending).visited = op.visited from rfl,
    show (op.working nodes pending).isLastDepthForStep = op.isLastDepthForStep from rfl]
  have hvisit : ∀ (o : TraversalOp Φ) (key : String),
      (o.working nodes pending).visit key = (o.visit key).working nodes pending := fun _ _ => rfl
  have hpush : ∀ (o : TraversalOp Φ) (node : String), o.currentDepth = op.currentDepth →
      (o.working nodes pending).pushBucket (op.currentDepth + 1) node =
        (o.pushBucket (op.currentDepth + 1) node).working nodes pending := by
    intro o node h
    rw [← h, pushBucket_working]
  split
  · rfl
  · split
    · rfl
    · rename_i step _
      split_ifs <;> simp only [hvisit, hpush _ _ rfl, hpush (op.visit nextNode) _ rfl]

theorem takeAll_append (op : TraversalOp Φ) (hops hops' : List (Edge × String)) :
    op.takeAll (hops ++ hops') =
      (((op.takeAll hops).1.takeAll hops').1,
        (op.takeAll hops).2 ++ ((op.takeAll hops).1.takeAll hops').2) := by
  induction hops generalizing op with
  | nil => rfl
  | cons hop rest ih => simp only [List.cons_append, takeAll, ih, List.append_assoc]

end Working

/-- What taking a result leaves alone. -/
structure Keeps (op op' : TraversalOp Φ) : Prop where
  expr : op'.expr = op.expr
  bucketCount : op'.bucketCount = op.bucketCount
  currentDepth : op'.currentDepth = op.currentDepth
  buckets : ∀ depth, depth ≠ op.currentDepth + 1 → op'.depthBuckets depth = op.depthBuckets depth

theorem Keeps.refl (op : TraversalOp Φ) : op.Keeps op := ⟨rfl, rfl, rfl, fun _ _ => rfl⟩

theorem Keeps.trans {op op' op'' : TraversalOp Φ} (h : op.Keeps op') (h' : op'.Keeps op'') :
    op.Keeps op'' where
  expr := h'.expr.trans h.expr
  bucketCount := h'.bucketCount.trans h.bucketCount
  currentDepth := h'.currentDepth.trans h.currentDepth
  buckets depth hdepth := (h'.buckets depth (h.currentDepth ▸ hdepth)).trans (h.buckets depth hdepth)

theorem keeps_pushBucket (op : TraversalOp Φ) (node : String) :
    op.Keeps (op.pushBucket (op.currentDepth + 1) node) :=
  ⟨rfl, rfl, rfl, fun _ hdepth => Function.update_of_ne hdepth _ _⟩

theorem keeps_visit (op : TraversalOp Φ) (key : String) : op.Keeps (op.visit key) :=
  ⟨rfl, rfl, rfl, fun _ _ => rfl⟩

theorem keeps_takeResult (op : TraversalOp Φ) (edge : Edge) (nextNode : String) :
    op.Keeps (op.takeResult edge nextNode).1 := by
  have hboth : ∀ key, op.Keeps ((op.visit key).pushBucket (op.currentDepth + 1) nextNode) :=
    fun key => (keeps_visit op key).trans (keeps_pushBucket _ nextNode)
  unfold takeResult
  split
  · exact Keeps.refl op
  · split
    · exact Keeps.refl op
    · dsimp only
      split_ifs <;>
        first
        | exact Keeps.refl op
        | exact keeps_visit op _
        | exact keeps_pushBucket op _
        | exact hboth _

theorem keeps_takeAll (op : TraversalOp Φ) (hops : List (Edge × String)) :
    op.Keeps (op.takeAll hops).1 := by
  induction hops generalizing op with
  | nil => exact Keeps.refl op
  | cons hop rest ih => exact (keeps_takeResult op hop.1 hop.2).trans (ih _)

/-! ### Ticks -/

/-- The rows of some ticks, up to an operator with which the loop goes on. -/
inductive Yields (ctx : ExecutionContext Φ) (order : TraversalOp Φ → IterOrder) :
    TraversalOp Φ → List (Edge × String) → TraversalOp Φ → Prop
  | refl (op : TraversalOp Φ) : Yields ctx order op [] op
  | row {op op' op'' : TraversalOp Φ} {row : Edge × String} {rows : List (Edge × String)}
      (h : tick ctx (order op) op = .row op' row) (later : Yields ctx order op' rows op'') :
      Yields ctx order op (row :: rows) op''
  | again {op op' op'' : TraversalOp Φ} {rows : List (Edge × String)}
      (h : tick ctx (order op) op = .again op') (later : Yields ctx order op' rows op'') :
      Yields ctx order op rows op''

section Ticks

variable {ctx : ExecutionContext Φ} {order : TraversalOp Φ → IterOrder}
  {op op' op'' : TraversalOp Φ} {rows rows' : List (Edge × String)}

theorem Yields.trans (h : Yields ctx order op rows op') (h' : Yields ctx order op' rows' op'') :
    Yields ctx order op (rows ++ rows') op'' := by
  induction h with
  | refl op => exact h'
  | row htick _ ih => exact .row htick (ih h')
  | again htick _ ih => exact .again htick (ih h')

theorem Yields.returns (h : Yields ctx order op rows op') (h' : Returns ctx order op' rows') :
    Returns ctx order op (rows ++ rows') := by
  induction h with
  | refl op => exact h'
  | row htick _ ih =>
    obtain ⟨fuel, hfuel⟩ := ih h'
    refine ⟨fuel + 1, ?_⟩
    rw [collect, htick]
    show (collect ctx order fuel _).map _ = _
    rw [hfuel]
    rfl
  | again htick _ ih =>
    obtain ⟨fuel, hfuel⟩ := ih h'
    refine ⟨fuel + 1, ?_⟩
    rw [collect, htick]
    exact hfuel

/-- The end of the search is the end of the rows. -/
theorem Returns.done (h : tick ctx (order op) op = .done) : Returns ctx order op [] :=
  ⟨1, by rw [collect, h]⟩

/-- More fuel does not change what is returned. -/
theorem collect_mono {fuel more : Nat} {r : Except ExecuteError (List (Edge × String))}
    (h : collect ctx order fuel op = some r) (hle : fuel ≤ more) :
    collect ctx order more op = some r := by
  induction fuel generalizing op more r with
  | zero => cases h
  | succ fuel ih =>
    obtain ⟨more, rfl⟩ := Nat.exists_eq_succ_of_ne_zero (Nat.ne_of_gt (Nat.lt_of_lt_of_le
      (Nat.succ_pos fuel) hle))
    rw [collect] at h ⊢
    cases htick : tick ctx (order op) op with
    | row op' row =>
      rw [htick] at h
      obtain ⟨r', hr', rfl⟩ := Option.map_eq_some_iff.mp h
      show (collect ctx order more op').map _ = _
      rw [ih hr' (Nat.le_of_succ_le_succ hle)]
      rfl
    | again op' =>
      rw [htick] at h
      exact ih h (Nat.le_of_succ_le_succ hle)
    | done => rwa [htick] at h
    | failed e => rwa [htick] at h

/-- The rows are determined. -/
theorem Returns.unique (h : Returns ctx order op rows) (h' : Returns ctx order op rows') :
    rows = rows' := by
  obtain ⟨fuel, hfuel⟩ := h
  obtain ⟨fuel', hfuel'⟩ := h'
  have heq := (collect_mono hfuel (Nat.le_max_left fuel fuel')).symm.trans
    (collect_mono hfuel' (Nat.le_max_right fuel fuel'))
  simpa using heq

/-- The queue is worked off before the bucket. -/
theorem yields_pending (op : TraversalOp Φ) (nodes : List String)
    (pending : List (Edge × String)) :
    Yields ctx order (op.working nodes pending) (op.takeAll pending).2
      ((op.takeAll pending).1.working nodes []) := by
  induction pending generalizing op with
  | nil => exact .refl _
  | cons hop rest ih =>
    have htake : (op.working nodes rest).takeResult hop.1 hop.2 =
        ((op.takeResult hop.1 hop.2).1.working nodes rest, (op.takeResult hop.1 hop.2).2) :=
      takeResult_working hop.1 hop.2
    have hpending : (op.working nodes (hop :: rest)).pendingResults = hop :: rest := rfl
    have hnext : { op.working nodes (hop :: rest) with pendingResults := rest } =
        op.working nodes rest := rfl
    rw [takeAll]
    cases hrow : (op.takeResult hop.1 hop.2).2 with
    | none =>
      refine .again ?_ (ih _)
      rw [tick, hpending]
      dsimp only
      rw [hnext, htake, hrow]
    | some row =>
      refine .row ?_ (ih _)
      rw [tick, hpending]
      dsimp only
      rw [hnext, htake, hrow]

end Ticks

/-! ### Nodes -/

/-- The context lists, one node at a time and in a batch, what `next` has for a step. -/
structure Serves (ctx : ExecutionContext Φ) (next : TraversalStep Φ → Next String Edge)
    (known : String → Prop) (step : TraversalStep Φ) : Prop where
  single : ∀ node, known node →
    ∃ found, traverseStep ctx step node = .ok found ∧ found.Perm (next step node)
  batch : ∀ nodes : List String, (∀ node ∈ nodes, known node) →
    ∃ edges, edgesMap ctx step nodes = .ok edges ∧ ∀ node ∈ nodes,
      ∃ found, (if step.admits node then neighbours ctx step node (edges node) else .ok []) =
        .ok found ∧ found.Perm (next step node)
  closed : ∀ node, known node → ∀ hop ∈ next step node, known hop.2
  admitted : ∀ node, step.admits node = false → next step node = []

/-- No node that leads anywhere is twice in a bucket that is worked off in batches. -/
def Clean (next : TraversalStep Φ → Next String Edge) (step : TraversalStep Φ)
    (nodes : List String) : Prop :=
  batchThreshold ≤ (nodes.filter step.admits).length →
    ∀ node, 2 ≤ nodes.count node → next step node = []

section Nodes

variable {ctx : ExecutionContext Φ} {order : TraversalOp Φ → IterOrder}
  {next : TraversalStep Φ → Next String Edge} {known : String → Prop} {step : TraversalStep Φ}
  {op : TraversalOp Φ}

theorem batchResults_eq {edges : String → List Edge} {nodes : List String}
    (h : ∀ node ∈ nodes,
      ∃ found, (if step.admits node then neighbours ctx step node (edges node) else .ok []) =
        .ok found ∧ found.Perm (next step node)) :
    ∃ results, batchResults ctx step edges nodes = .ok results ∧
      results.Perm (hops (next step) nodes) := by
  induction nodes with
  | nil => exact ⟨[], rfl, List.Perm.refl _⟩
  | cons node rest ih =>
    rw [List.forall_mem_cons] at h
    obtain ⟨found, hfound, hperm⟩ := h.1
    obtain ⟨results, hresults, hperm'⟩ := ih h.2
    refine ⟨found ++ results, ?_, hperm.append hperm'⟩
    rw [batchResults, hfound, hresults]

/-- Nodes that lead nowhere may be left out. -/
theorem hops_filter_admits (h : ∀ node, step.admits node = false → next step node = [])
    (nodes : List String) : hops (next step) (nodes.filter step.admits) = hops (next step) nodes := by
  induction nodes with
  | nil => rfl
  | cons node rest ih =>
    unfold hops at ih ⊢
    cases hadmits : step.admits node with
    | true => rw [List.filter_cons_of_pos hadmits, List.flatMap_cons, List.flatMap_cons, ih]
    | false =>
      rw [List.filter_cons_of_neg (by simp [hadmits]), List.flatMap_cons, h node hadmits, ih,
        List.nil_append]

/-- A map has each node once; that makes no difference if the repeated ones lead nowhere. -/
theorem hops_dedup {nodes : List String} (h : ∀ node, 2 ≤ nodes.count node → next step node = []) :
    (hops (next step) nodes.dedup).Perm (hops (next step) nodes) := by
  induction nodes with
  | nil => exact List.Perm.refl _
  | cons node rest ih =>
    have hrest : ∀ n, 2 ≤ rest.count n → next step n = [] := fun n hn =>
      h n (hn.trans (List.count_le_count_cons))
    unfold hops at ih ⊢
    by_cases hmem : node ∈ rest
    · have hnil : next step node = [] := by
        refine h node ?_
        rw [List.count_cons_self]
        exact Nat.succ_le_succ (List.count_pos_iff.mpr hmem)
      rw [List.dedup_cons_of_mem hmem, List.flatMap_cons, hnil, List.nil_append]
      exact ih hrest
    · rw [List.dedup_cons_of_notMem hmem, List.flatMap_cons, List.flatMap_cons]
      exact (ih hrest).append_left _

/-- What one pass does with the bucket: some nodes leave it, and what they lead to is queued. -/
structure Processed (next : TraversalStep Φ → Next String Edge) (step : TraversalStep Φ)
    (nodes left : List String) (results : List (Edge × String)) : Prop where
  shorter : left.length < nodes.length
  sublist : left.Sublist (nodes.filter step.admits)
  mem : ∀ hop, hop ∈ hops (next step) nodes ↔ hop ∈ results ∨ hop ∈ hops (next step) left
  perm : Clean next step nodes →
    (results ++ hops (next step) left).Perm (hops (next step) nodes)

theorem Processed.clean {nodes left : List String} {results : List (Edge × String)}
    (h : Processed next step nodes left results) (hclean : Clean next step nodes) :
    Clean next step left := by
  intro hlarge node hcount
  have hfilter : (left.filter step.admits).Sublist (nodes.filter step.admits) := by
    simpa only [List.filter_filter, Bool.and_self] using h.sublist.filter step.admits
  exact hclean (hlarge.trans hfilter.length_le) node
    (hcount.trans ((h.sublist.trans List.filter_sublist).count_le node))

theorem hops_append (next : Next String Edge) (nodes nodes' : List String) :
    hops next (nodes ++ nodes') = hops next nodes ++ hops next nodes' := List.flatMap_append

/-- A chunk is followed, each node of it once. -/
theorem processBatch_eq (order : IterOrder) (hs : Serves ctx next known step) {nodes : List String}
    (hknown : ∀ node ∈ nodes, known node) (hall : ∀ node ∈ nodes, step.admits node = true)
    (hlarge : batchThreshold ≤ nodes.length) :
    ∃ left results, processBatch ctx order (op.working nodes []) step =
      .ok (op.working left results) ∧ Processed next step nodes left results := by
  have hbucket : (op.working nodes []).depthBuckets (op.working nodes []).currentDepth = nodes :=
    Function.update_self _ _ _
  set size := min batchChunkSize nodes.length with hsize
  have hpos : 0 < size := by
    rw [hsize, batchChunkSize]
    rw [batchThreshold] at hlarge
    omega
  have hfilter : nodes.filter step.admits = nodes := List.filter_eq_self.mpr hall
  obtain ⟨edges, hedges, hfound⟩ := hs.batch (nodes.take size)
    fun node hnode => hknown node (List.mem_of_mem_take hnode)
  have hiter : ∀ {node}, node ∈ order.iter (nodes.take size).dedup ↔ node ∈ nodes.take size :=
    ((order.perm _).mem_iff).trans List.mem_dedup
  have hiterFound : ∀ node ∈ order.iter (nodes.take size).dedup,
      ∃ found, (if step.admits node then neighbours ctx step node (edges node) else .ok []) =
        .ok found ∧ found.Perm (next step node) := fun node hnode => hfound node (hiter.mp hnode)
  obtain ⟨results, hresults, hperm⟩ := batchResults_eq hiterFound
  have hmem : ∀ hop, hop ∈ results ↔ hop ∈ hops (next step) (nodes.take size) := by
    intro hop
    rw [hperm.mem_iff, mem_hops, mem_hops]
    exact exists_congr fun node => and_congr_left fun _ => hiter
  refine ⟨nodes.drop size, results, ?_, ?_, ?_, ?_, ?_⟩
  · rw [processBatch]
    simp only [hbucket, ← hsize, hedges, hresults]
    exact congrArg Except.ok working_working
  · rw [List.length_drop]
    rw [batchThreshold] at hlarge
    omega
  · rw [hfilter]
    exact List.drop_sublist _ _
  · intro hop
    conv_lhs => rw [← List.take_append_drop size nodes]
    rw [hops_append, List.mem_append, hmem]
  · intro hclean
    have hrepeat : ∀ node, 2 ≤ (nodes.take size).count node → next step node = [] :=
      fun node hcount => hclean (by rwa [hfilter]) node
        (hcount.trans ((List.take_sublist _ _).count_le node))
    have hchunk := hperm.trans ((hops_perm (order.perm _)).trans (hops_dedup hrepeat))
    have hsplit := hops_append (next step) (nodes.take size) (nodes.drop size)
    rw [List.take_append_drop] at hsplit
    rw [hsplit]
    exact hchunk.append_right _

/-- The last node is followed. -/
theorem processSequential_eq (hs : Serves ctx next known step) {nodes : List String} {node : String}
    (hknown : known node) (hall : ∀ n ∈ nodes ++ [node], step.admits n = true) :
    ∃ left results, processSequential ctx (op.working (nodes ++ [node]) []) step =
      .ok (op.working left results) ∧ Processed next step (nodes ++ [node]) left results := by
  have hbucket : (op.working (nodes ++ [node]) []).depthBuckets
      (op.working (nodes ++ [node]) []).currentDepth = nodes ++ [node] :=
    Function.update_self _ _ _
  obtain ⟨found, hfound, hperm⟩ := hs.single node hknown
  have hlast : hops (next step) [node] = next step node := List.append_nil _
  refine ⟨nodes, found, ?_, by simp, ?_, fun hop => ?_, fun _ => ?_⟩
  · rw [processSequential]
    simp only [hbucket, List.getLast?_concat, hfound, List.dropLast_concat]
    exact congrArg Except.ok working_working
  · rw [List.filter_eq_self.mpr hall]
    exact List.sublist_append_left _ _
  · rw [hops_append, hlast, List.mem_append, hperm.mem_iff]
    exact Or.comm
  · rw [hops_append, hlast]
    exact List.perm_append_comm.trans (hperm.append_left _)

/-- The nodes that the filter takes out lead nowhere. -/
theorem Processed.of_filter (h : ∀ node, step.admits node = false → next step node = [])
    {nodes left : List String} {results : List (Edge × String)}
    (hp : Processed next step (nodes.filter step.admits) left results) :
    Processed next step nodes left results where
  shorter := hp.shorter.trans_le (List.length_filter_le _ _)
  sublist := by simpa only [List.filter_filter, Bool.and_self] using hp.sublist
  mem hop := by rw [← hops_filter_admits h nodes, hp.mem]
  perm hclean := by
    rw [← hops_filter_admits h nodes]
    refine hp.perm fun hlarge node hcount => ?_
    simp only [List.filter_filter, Bool.and_self] at hlarge
    exact hclean hlarge node (hcount.trans (List.filter_sublist.count_le node))

theorem processNodes_eq (op : TraversalOp Φ) (order : IterOrder) (hs : Serves ctx next known step)
    {nodes : List String}
    (hne : nodes ≠ []) (hknown : ∀ node ∈ nodes, known node) :
    ∃ left results, processNodes ctx order (op.working nodes []) step =
      .ok (op.working left results) ∧ Processed next step nodes left results := by
  have hbucket : ∀ nodes : List String,
      (op.working nodes []).depthBuckets (op.working nodes []).currentDepth = nodes :=
    fun _ => Function.update_self _ _ _
  have hset : (op.working nodes []).setBucket (op.working nodes []).currentDepth
      (nodes.filter step.admits) = op.working (nodes.filter step.admits) [] :=
    working_working
  have hall : ∀ node ∈ nodes.filter step.admits, step.admits node = true :=
    fun _ hnode => (List.mem_filter.mp hnode).2
  have hknown' : ∀ node ∈ nodes.filter step.admits, known node :=
    fun node hnode => hknown node (List.mem_filter.mp hnode).1
  rw [processNodes]
  simp only [hbucket, hset]
  by_cases hlarge : batchThreshold ≤ (nodes.filter step.admits).length
  · rw [if_pos hlarge]
    obtain ⟨left, results, hok, hp⟩ := processBatch_eq order hs hknown' hall hlarge
    exact ⟨left, results, hok, hp.of_filter hs.admitted⟩
  · rw [if_neg hlarge]
    rcases List.eq_nil_or_concat (nodes.filter step.admits) with hnil | ⟨init, node, hconcat⟩
    · -- every node was taken out
      refine ⟨[], [], ?_, List.length_pos_iff.mpr hne, List.nil_sublist _, fun hop => ?_,
        fun _ => ?_⟩
      · rw [hnil, processSequential, hbucket]
        rfl
      · rw [← hops_filter_admits hs.admitted nodes, hnil]
        simp [hops]
      · rw [← hops_filter_admits hs.admitted nodes, hnil]
        exact List.Perm.refl _
    · rw [List.concat_eq_append] at hconcat
      rw [hconcat] at hall hknown' ⊢
      obtain ⟨left, results, hok, hp⟩ := processSequential_eq hs
        (hknown' node (List.mem_append_right _ (List.mem_singleton_self node))) hall
      exact ⟨left, results, hok, Processed.of_filter hs.admitted (hconcat ▸ hp)⟩

/-! ### The level as a whole -/

theorem yields_level (order : TraversalOp Φ → IterOrder) (hs : Serves ctx next known step)
    {stepIdx relDepth : Nat}
    (hdepth : depthToStep op.expr.steps op.currentDepth = some (stepIdx, relDepth))
    (hstep : op.expr.steps[stepIdx]? = some step) {nodes : List String}
    (hknown : ∀ node ∈ nodes, known node) :
    ∃ results, (∀ hop, hop ∈ results ↔ hop ∈ hops (next step) nodes) ∧
      (Clean next step nodes → results.Perm (hops (next step) nodes)) ∧
      Yields ctx order (op.working nodes []) (op.takeAll results).2
        ((op.takeAll results).1.working [] []) := by
  induction hlen : nodes.length using Nat.strong_induction_on generalizing nodes op with
  | _ size ih =>
    by_cases hne : nodes = []
    · subst hne
      exact ⟨[], fun _ => Iff.rfl, fun _ => List.Perm.refl _, .refl _⟩
    · obtain ⟨left, found, hok, hp⟩ := processNodes_eq op (order (op.working nodes []))
        hs hne hknown
      have hkeeps := keeps_takeAll op found
      have hleft : ∀ node ∈ left, known node := fun node hnode =>
        hknown node (List.filter_sublist.subset (hp.sublist.subset hnode))
      have hdepth' : depthToStep (op.takeAll found).1.expr.steps (op.takeAll found).1.currentDepth =
          some (stepIdx, relDepth) := by rw [hkeeps.expr, hkeeps.currentDepth, hdepth]
      obtain ⟨results, hmem, hperm, hyields⟩ := ih left.length (hlen ▸ hp.shorter) hdepth'
        (by rw [hkeeps.expr, hstep]) hleft rfl
      have htick : tick ctx (order (op.working nodes [])) (op.working nodes []) =
          .again (op.working left found) := by
        have hbucket : (op.working nodes []).depthBuckets (op.working nodes []).currentDepth =
            nodes := Function.update_self _ _ _
        rw [tick]
        show (if ((op.working nodes []).depthBuckets (op.working nodes []).currentDepth).isEmpty
          then _ else _) = _
        rw [hbucket, if_neg (by simpa using hne)]
        have hdepth' : depthToStep (op.working nodes []).expr.steps
            (op.working nodes []).currentDepth = some (stepIdx, relDepth) := hdepth
        have hstep' : (op.working nodes []).expr.steps[stepIdx]? = some step := hstep
        simp only [hdepth', hstep', hok]
      refine ⟨found ++ results, fun hop => ?_, fun hclean => ?_, ?_⟩
      · rw [List.mem_append, hmem, hp.mem]
      · exact ((hperm (hp.clean hclean)).append_left found).trans (hp.perm hclean)
      · rw [takeAll_append]
        exact .again htick ((yields_pending op left found).trans hyields)

end Nodes

/-! ### Results -/

section Results

variable {op : TraversalOp Φ} {step : TraversalStep Φ} {stepIdx relDepth : Nat}

/-- What is compared with the visited set. -/
def visitKey (op : TraversalOp Φ) (hop : Edge × String) : String :=
  if emitsAt op.expr.steps op.currentDepth then op.expr.target.dedupeKey hop.1 hop.2 else hop.2

/-- A result that is a row, a node of the next bucket and a visited key, unless it is a repeated
one in a step that deduplicates. -/
structure Taken (op : TraversalOp Φ) (step : TraversalStep Φ) (hop : Edge × String)
    (r : TraversalOp Φ × Option (Edge × String)) : Prop where
  row : r.2 = if emitsAt op.expr.steps op.currentDepth = true ∧
    ¬(step.mode = .deduplicate ∧ op.visitKey hop ∈ op.visited) then some hop else none
  bucket : op.currentDepth + 1 < maxDepth op.expr.steps →
    op.bucketCount = maxDepth op.expr.steps + 1 →
    r.1.depthBuckets (op.currentDepth + 1) =
      if step.mode = .deduplicate ∧ op.visitKey hop ∈ op.visited then
        op.depthBuckets (op.currentDepth + 1)
      else op.depthBuckets (op.currentDepth + 1) ++ [hop.2]
  visited : step.mode = .deduplicate → emitsAt op.expr.steps op.currentDepth = true ∨
    op.currentDepth + 1 < maxDepth op.expr.steps → r.1.visited = insert (op.visitKey hop) op.visited

theorem takeResult_taken
    (hdepth : depthToStep op.expr.steps op.currentDepth = some (stepIdx, relDepth))
    (hstep : op.expr.steps[stepIdx]? = some step) (hop : Edge × String) :
    op.Taken step hop (op.takeResult hop.1 hop.2) := by
  have hemits : emitsAt op.expr.steps op.currentDepth =
      (decide (op.expr.steps.length ≤ stepIdx + 1) && decide (step.stepMinDepth ≤ relDepth)) := by
    rw [emitsAt, hdepth]
    simp only [hstep, Option.any_some]
  have hlastDepth : op.isLastDepthForStep op.currentDepth = decide (step.levels ≤ relDepth + 1) := by
    rw [isLastDepthForStep, hdepth]
    simp only [hstep]
  have hgoesOn : op.currentDepth + 1 < maxDepth op.expr.steps →
      op.expr.steps.length ≤ stepIdx + 1 → relDepth + 1 < step.levels :=
    fun hlt hlast => continues_of_lt hdepth hstep hlast hlt
  have hpush : ∀ (o : TraversalOp Φ) (node : String),
      (o.pushBucket (op.currentDepth + 1) node).depthBuckets (op.currentDepth + 1) =
        o.depthBuckets (op.currentDepth + 1) ++ [node] :=
    fun _ _ => Function.update_self _ _ _
  unfold takeResult
  simp only [hdepth, hstep, hlastDepth, ← hemits]
  by_cases he : emitsAt op.expr.steps op.currentDepth = true
  · have hkey : op.visitKey hop = op.expr.target.dedupeKey hop.1 hop.2 := if_pos he
    have hlast : op.expr.steps.length ≤ stepIdx + 1 := by
      rw [hemits, Bool.and_eq_true] at he
      simpa using he.1
    by_cases hdup : step.mode = .deduplicate ∧ op.visitKey hop ∈ op.visited
    · have hdup' := hdup.2
      rw [hkey] at hdup'
      refine ⟨?_, fun _ _ => ?_, fun _ _ => ?_⟩
      · simp [he, hdup, hdup']
      · simp [he, hdup, hdup']
      · simp [he, hdup.1, hdup', hkey]
    · have hfresh : (decide (step.mode = .deduplicate) &&
          decide (op.expr.target.dedupeKey hop.1 hop.2 ∈ op.visited)) = false := by
        rw [← hkey]
        simpa using hdup
      simp only [he, if_true, hfresh, Bool.not_false, Bool.and_true, if_neg Bool.false_ne_true]
      refine ⟨?_, fun hlt hcount => ?_, fun hmode _ => ?_⟩
      · simp [he, hdup]
      · have hnext : (!decide (step.levels ≤ relDepth + 1) &&
            decide (op.currentDepth + 1 < op.bucketCount)) = true := by
          have := hgoesOn hlt hlast
          simp only [Bool.and_eq_true, Bool.not_eq_true', decide_eq_false_iff_not,
            decide_eq_true_eq]
          omega
        rw [if_neg hdup]
        simp only [hnext, if_true]
        split_ifs
        · exact hpush op hop.2
        · exact hpush op hop.2
      · simp only [hmode, decide_true, if_true]
        split_ifs
        · exact congrArg (insert · op.visited) hkey.symm
        · exact congrArg (insert · op.visited) hkey.symm
  · have hkey : op.visitKey hop = hop.2 := if_neg he
    have hfalse : emitsAt op.expr.steps op.currentDepth = false := Bool.eq_false_of_not_eq_true he
    have hnone : (if emitsAt op.expr.steps op.currentDepth = true ∧
        ¬(step.mode = .deduplicate ∧ op.visitKey hop ∈ op.visited) then some hop else none) = none :=
      if_neg fun h => he h.1
    have hcontinue : op.currentDepth + 1 < maxDepth op.expr.steps →
        (!decide (step.levels ≤ relDepth + 1) ||
          !decide (op.expr.steps.length ≤ stepIdx + 1)) = true := by
      intro hlt
      by_cases hlast : op.expr.steps.length ≤ stepIdx + 1
      · have := hgoesOn hlt hlast
        simp only [Bool.or_eq_true, Bool.not_eq_true', decide_eq_false_iff_not]
        omega
      · simp [hlast]
    simp only [hfalse, if_neg Bool.false_ne_true]
    by_cases hdup : step.mode = .deduplicate ∧ op.visitKey hop ∈ op.visited
    · have hdup' : (decide (step.mode = .deduplicate) && decide (hop.2 ∈ op.visited)) = true := by
        rw [← hkey]
        simpa using hdup
      simp only [hdup', if_true]
      refine ⟨?_, fun _ _ => ?_, fun _ _ => ?_⟩
      · rw [hnone]
        split_ifs <;> rfl
      · split_ifs <;> rfl
      · rw [Finset.insert_eq_of_mem hdup.2]
        split_ifs <;> rfl
    · have hfresh : (decide (step.mode = .deduplicate) && decide (hop.2 ∈ op.visited)) = false := by
        rw [← hkey]
        simpa using hdup
      simp only [hfresh, if_neg Bool.false_ne_true]
      refine ⟨?_, fun hlt hcount => ?_, fun hmode hgo => ?_⟩
      · rw [hnone]
        split_ifs <;> rfl
      · have hnext : decide (op.currentDepth + 1 < op.bucketCount) = true := by
          simp only [decide_eq_true_eq]
          omega
        simp only [hcontinue hlt, hnext, if_true, if_neg hdup]
        split_ifs
        · exact hpush (op.visit hop.2) hop.2
        · exact hpush op hop.2
      · rw [or_iff_right he] at hgo
        simp only [hcontinue hgo, hmode, decide_true, if_true, hkey]
        split_ifs <;> rfl

/-- In `All` mode every result counts. -/
theorem takeAll_all
    (hdepth : depthToStep op.expr.steps op.currentDepth = some (stepIdx, relDepth))
    (hstep : op.expr.steps[stepIdx]? = some step) (hmode : step.mode = .all)
    (hcount : op.bucketCount = maxDepth op.expr.steps + 1) (results : List (Edge × String)) :
    (op.takeAll results).2 = (if emitsAt op.expr.steps op.currentDepth then results else []) ∧
      (op.currentDepth + 1 < maxDepth op.expr.steps →
        (op.takeAll results).1.depthBuckets (op.currentDepth + 1) =
          op.depthBuckets (op.currentDepth + 1) ++ results.map Prod.snd) := by
  induction results generalizing op with
  | nil => exact ⟨(ite_self _).symm, fun _ => (List.append_nil _).symm⟩
  | cons hop rest ih =>
    have htaken := takeResult_taken hdepth hstep hop
    have hkeeps := keeps_takeResult op hop.1 hop.2
    have hnodup : ¬(step.mode = .deduplicate ∧ op.visitKey hop ∈ op.visited) := by simp [hmode]
    have hih := @ih (op.takeResult hop.1 hop.2).1
    rw [hkeeps.expr, hkeeps.currentDepth, hkeeps.bucketCount] at hih
    obtain ⟨hrows, hbucket⟩ := hih hdepth hstep hcount
    refine ⟨?_, fun hlt => ?_⟩
    · rw [takeAll, hrows, htaken.row]
      simp only [hnodup, not_false_eq_true, and_true]
      split_ifs <;> rfl
    · rw [takeAll, hbucket hlt, htaken.bucket hlt hcount, if_neg hnodup, List.map_cons,
        List.append_assoc, List.singleton_append]

/-- Before the depth at which rows are emitted there are none. -/
theorem takeAll_quiet
    (hdepth : depthToStep op.expr.steps op.currentDepth = some (stepIdx, relDepth))
    (hstep : op.expr.steps[stepIdx]? = some step)
    (hquiet : emitsAt op.expr.steps op.currentDepth = false) (results : List (Edge × String)) :
    (op.takeAll results).2 = [] := by
  induction results generalizing op with
  | nil => rfl
  | cons hop rest ih =>
    have htaken := takeResult_taken hdepth hstep hop
    have hkeeps := keeps_takeResult op hop.1 hop.2
    have hih := @ih (op.takeResult hop.1 hop.2).1
    rw [hkeeps.expr, hkeeps.currentDepth] at hih
    rw [takeAll, hih hdepth hstep hquiet, htaken.row,
      if_neg fun h => Bool.false_ne_true (hquiet.symm.trans h.1)]
    rfl

/-- In `Deduplicate` mode only the results with a fresh key count. -/
theorem takeAll_deduplicate
    (hdepth : depthToStep op.expr.steps op.currentDepth = some (stepIdx, relDepth))
    (hstep : op.expr.steps[stepIdx]? = some step) (hmode : step.mode = .deduplicate)
    (hcount : op.bucketCount = maxDepth op.expr.steps + 1) (results : List (Edge × String))
    (hgo : emitsAt op.expr.steps op.currentDepth = true ∨
      op.currentDepth + 1 < maxDepth op.expr.steps) :
    (op.takeAll results).2 = (if emitsAt op.expr.steps op.currentDepth then
        fresh op.visitKey op.visited results else []) ∧
      (op.currentDepth + 1 < maxDepth op.expr.steps →
        (op.takeAll results).1.depthBuckets (op.currentDepth + 1) =
          op.depthBuckets (op.currentDepth + 1) ++
            (fresh op.visitKey op.visited results).map Prod.snd) ∧
      (∀ key, key ∈ (op.takeAll results).1.visited ↔
        key ∈ op.visited ∨ ∃ hop ∈ results, op.visitKey hop = key) := by
  induction results generalizing op with
  | nil => exact ⟨(ite_self _).symm, fun _ => (List.append_nil _).symm, fun key => by simp [takeAll]⟩
  | cons hop rest ih =>
    have htaken := takeResult_taken hdepth hstep hop
    have hkeeps := keeps_takeResult op hop.1 hop.2
    have hkey : (op.takeResult hop.1 hop.2).1.visitKey = op.visitKey := by
      funext hop'
      rw [visitKey, visitKey, hkeeps.expr, hkeeps.currentDepth]
    have hih := @ih (op.takeResult hop.1 hop.2).1
    rw [hkeeps.expr, hkeeps.currentDepth, hkeeps.bucketCount, hkey,
      htaken.visited hmode hgo] at hih
    obtain ⟨hrows, hbucket, hvisited⟩ := hih hdepth hstep hcount hgo
    refine ⟨?_, fun hlt => ?_, fun key => ?_⟩
    · rw [takeAll, hrows, htaken.row, fresh]
      by_cases hmem : op.visitKey hop ∈ op.visited
      · rw [if_neg fun h => h.2 ⟨hmode, hmem⟩, if_pos hmem, Finset.insert_eq_of_mem hmem]
        rfl
      · rw [if_neg hmem]
        by_cases he : emitsAt op.expr.steps op.currentDepth = true
        · rw [if_pos ⟨he, fun h => hmem h.2⟩, if_pos he, if_pos he]
          rfl
        · rw [if_neg fun h => he h.1, if_neg he, if_neg he]
          rfl
    · rw [takeAll, hbucket hlt, htaken.bucket hlt hcount, fresh]
      by_cases hmem : op.visitKey hop ∈ op.visited
      · rw [if_pos ⟨hmode, hmem⟩, if_pos hmem, Finset.insert_eq_of_mem hmem]
      · rw [if_neg fun h => hmem h.2, if_neg hmem, List.map_cons, List.append_assoc,
          List.singleton_append]
    · rw [takeAll, hvisited, Finset.mem_insert, List.exists_mem_cons_iff, @eq_comm _ key, or_assoc,
        or_left_comm]

end Results

/-! ### From level to level -/

/-- The operator at the beginning of a level. -/
structure AtLevel (steps : List (TraversalStep Φ)) (depth : Nat) (nodes : List String)
    (op : TraversalOp Φ) : Prop where
  layout : op.expr.steps = steps
  bucketCount : op.bucketCount = maxDepth steps + 1
  currentDepth : op.currentDepth = depth
  pending : op.pendingResults = []
  nodes : op.depthBuckets depth = nodes
  later : ∀ d, depth < d → op.depthBuckets d = []

/-- The step of a level. -/
def stepAt (steps : List (TraversalStep Φ)) (depth : Nat) : Option (TraversalStep Φ) :=
  (depthToStep steps depth).bind fun r => steps[r.1]?

section Runs

variable {ctx : ExecutionContext Φ} {order : TraversalOp Φ → IterOrder}
  {next : TraversalStep Φ → Next String Edge} {known : String → Prop}
  {steps : List (TraversalStep Φ)} {op : TraversalOp Φ} {depth : Nat} {nodes : List String}

/-- A level, and what comes after it. -/
theorem AtLevel.run (order : TraversalOp Φ → IterOrder) (h : AtLevel steps depth nodes op)
    (hs : ∀ step ∈ steps, Serves ctx next known step) (hlt : depth < maxDepth steps)
    (hknown : ∀ node ∈ nodes, known node) :
    ∃ step stepIdx relDepth results,
      depthToStep steps depth = some (stepIdx, relDepth) ∧ steps[stepIdx]? = some step ∧
      (∀ hop, hop ∈ results ↔ hop ∈ hops (next step) nodes) ∧
      (Clean next step nodes → results.Perm (hops (next step) nodes)) ∧
      (depth + 1 < maxDepth steps → ∃ op',
        AtLevel steps (depth + 1) ((op.takeAll results).1.depthBuckets (depth + 1)) op' ∧
        op'.visited = (op.takeAll results).1.visited ∧ op'.expr = op.expr ∧
        ∀ rows, Returns ctx order op' rows →
          Returns ctx order op ((op.takeAll results).2 ++ rows)) ∧
      (depth + 1 = maxDepth steps → Returns ctx order op (op.takeAll results).2) := by
  obtain ⟨⟨stepIdx, relDepth⟩, hdepth⟩ := Option.isSome_iff_exists.mp
    (depthToStep_isSome.mpr hlt)
  obtain ⟨step, hstep, -⟩ := depthToStep_some hdepth
  have hdepth' : depthToStep op.expr.steps op.currentDepth = some (stepIdx, relDepth) := by
    rw [h.layout, h.currentDepth, hdepth]
  have hself : op.working nodes [] = op := by
    rw [← h.nodes, ← h.currentDepth]
    exact working_self h.pending
  obtain ⟨results, hmem, hperm, hyields⟩ := yields_level order
    (hs step (List.mem_of_getElem? hstep)) hdepth' (by rw [h.layout, hstep]) hknown
  rw [hself] at hyields
  have hkeeps := keeps_takeAll op results
  set after := (op.takeAll results).1.working [] [] with hafter
  have hempty : (after.depthBuckets after.currentDepth).isEmpty = true :=
    List.isEmpty_iff.mpr (Function.update_self _ _ _)
  have hdepthAfter : after.currentDepth = depth := hkeeps.currentDepth.trans h.currentDepth
  have hstepsAfter : after.expr.steps = steps := by
    rw [← h.layout]
    exact congrArg TraversalExpr.steps hkeeps.expr
  refine ⟨step, stepIdx, relDepth, results, hdepth, hstep, hmem, hperm, fun hnext => ?_,
    fun hend => ?_⟩
  · refine ⟨{ after with currentDepth := after.currentDepth + 1 }, ?_, rfl, hkeeps.expr, ?_⟩
    · have hother : ∀ d, d ≠ depth → after.depthBuckets d = (op.takeAll results).1.depthBuckets d := by
        intro d hd
        exact Function.update_of_ne (hkeeps.currentDepth.trans h.currentDepth ▸ hd) _ _
      refine ⟨hstepsAfter, hkeeps.bucketCount.trans h.bucketCount,
        congrArg (· + 1) hdepthAfter, rfl, hother _ (Nat.succ_ne_self _), fun d hd => ?_⟩
      show after.depthBuckets d = []
      rw [hother d (by omega), hkeeps.buckets d (by rw [h.currentDepth]; omega)]
      exact h.later d (by omega)
    · intro rows hrows
      have htick : tick ctx (order after) after =
          .again { after with currentDepth := after.currentDepth + 1 } := by
        have hsome : ¬(depthToStep steps (depth + 1)).isNone = true := by
          rw [Option.isNone_iff_eq_none, ← Option.not_isSome_iff_eq_none, not_not,
            depthToStep_isSome]
          exact hnext
        rw [tick, show after.pendingResults = [] from rfl]
        simp only [if_pos hempty]
        rw [hstepsAfter, hdepthAfter, if_neg (Nat.not_le.mpr hnext), if_neg hsome]
      have hlast : Yields ctx order after [] { after with currentDepth := after.currentDepth + 1 } :=
        .again htick (.refl _)
      exact hyields.returns (hlast.returns hrows)
  · have htick : tick ctx (order after) after = .done := by
      rw [tick, show after.pendingResults = [] from rfl]
      simp only [if_pos hempty]
      rw [hstepsAfter, hdepthAfter, if_pos (Nat.le_of_eq hend.symm)]
    have := hyields.returns (Returns.done htick)
    rwa [List.append_nil] at this

/-- The visited set when the traversal is opened: the start nodes, unless the first step is in
`All` mode. -/
def VisitsStarts (steps : List (TraversalStep Φ)) (nodes : List String) (op : TraversalOp Φ) : Prop :=
  steps.head?.map (·.mode) ≠ some .all → ∀ node, node ∈ op.visited ↔ node ∈ nodes

theorem AtLevel.openNode (h : AtLevel steps 0 nodes op) (hvisits : VisitsStarts steps nodes op)
    (node : String) :
    AtLevel steps 0 (nodes ++ [node]) (op.openNode node) ∧
      VisitsStarts steps (nodes ++ [node]) (op.openNode node) ∧
      (op.openNode node).expr = op.expr := by
  have hnodes : (op.pushBucket 0 node).depthBuckets 0 = nodes ++ [node] := by
    simp only [pushBucket, setBucket, Function.update_self, h.nodes]
  have hlater : ∀ d, 0 < d → (op.pushBucket 0 node).depthBuckets d = [] := fun d hd =>
    (Function.update_of_ne (Nat.ne_of_gt hd) _ _).trans (h.later d hd)
  unfold TraversalOp.openNode
  split
  · rename_i hmode
    rw [h.layout] at hmode
    exact ⟨⟨h.layout, h.bucketCount, h.currentDepth, h.pending, hnodes, hlater⟩,
      fun hne => absurd hmode hne, rfl⟩
  · refine ⟨⟨h.layout, h.bucketCount, h.currentDepth, h.pending, hnodes, hlater⟩,
      fun hne n => ?_, rfl⟩
    show n ∈ insert node op.visited ↔ n ∈ nodes ++ [node]
    rw [Finset.mem_insert, hvisits hne, List.mem_append, List.mem_singleton, or_comm]

/-- A traversal that has been opened is at its first level. -/
theorem atLevel_opened (expr : TraversalExpr Φ) (startNodes : List String) :
    AtLevel expr.steps 0 startNodes (ofNormalized expr startNodes).opened ∧
      VisitsStarts expr.steps startNodes (ofNormalized expr startNodes).opened ∧
      (ofNormalized expr startNodes).opened.expr = expr := by
  -- the loop, from any operator before its first level
  have hloop : ∀ (rest nodes : List String) (op : TraversalOp Φ),
      AtLevel expr.steps 0 nodes op → VisitsStarts expr.steps nodes op →
      AtLevel expr.steps 0 (nodes ++ rest) (rest.foldl .openNode op) ∧
        VisitsStarts expr.steps (nodes ++ rest) (rest.foldl .openNode op) ∧
        (rest.foldl .openNode op).expr = op.expr := by
    intro rest
    induction rest with
    | nil =>
      intro nodes op hat hvisits
      rw [List.append_nil]
      exact ⟨hat, hvisits, rfl⟩
    | cons node rest ih =>
      intro nodes op hat hvisits
      obtain ⟨hat', hvisits', hexpr⟩ := hat.openNode hvisits node
      have happend : nodes ++ node :: rest = nodes ++ [node] ++ rest := by simp
      obtain ⟨hat'', hvisits'', hexpr'⟩ := ih _ _ hat' hvisits'
      rw [happend]
      exact ⟨hat'', hvisits'', hexpr'.trans hexpr⟩
  have hnew : AtLevel expr.steps 0 [] (ofNormalized expr startNodes) :=
    ⟨rfl, rfl, rfl, rfl, rfl, fun _ _ => rfl⟩
  exact hloop startNodes [] (ofNormalized expr startNodes) hnew
    (fun _ node => by simp [ofNormalized])

end Runs

/-! ## The search as it is meant -/

section Search

variable {ctx : ExecutionContext Φ} {order : TraversalOp Φ → IterOrder}
  {next : TraversalStep Φ → Next String Edge} {known : String → Prop}
  {steps : List (TraversalStep Φ)} {starts : List String} {op : TraversalOp Φ} {depth : Nat}
  {nodes : List String}

/-- The edges that may be taken at a depth. -/
def nextAt (next : TraversalStep Φ → Next String Edge) (steps : List (TraversalStep Φ))
    (depth : Nat) : Next String Edge :=
  ((schedule next steps)[depth]?).getD fun _ => []

/-- The nodes that walks reach at a depth. -/
def nodesAt (next : TraversalStep Φ → Next String Edge) (steps : List (TraversalStep Φ))
    (starts : List String) (depth : Nat) : List String :=
  level ((schedule next steps).take depth) starts

/-- What they lead to. -/
def hopsAt (next : TraversalStep Φ → Next String Edge) (steps : List (TraversalStep Φ))
    (starts : List String) (depth : Nat) : List (Edge × String) :=
  hops (nextAt next steps depth) (nodesAt next steps starts depth)

theorem nextAt_eq {stepIdx relDepth : Nat} {step : TraversalStep Φ}
    (hdepth : depthToStep steps depth = some (stepIdx, relDepth))
    (hstep : steps[stepIdx]? = some step) : nextAt next steps depth = next step := by
  obtain ⟨found, hfound, -, -, hnext⟩ := depthToStep_some hdepth
  obtain rfl : found = step := Option.some.inj (hfound.symm.trans hstep)
  rw [nextAt, hnext, Option.getD_some]

theorem take_schedule_succ (h : depth < maxDepth steps) :
    (schedule next steps).take (depth + 1) =
      (schedule next steps).take depth ++ [nextAt next steps depth] := by
  have hlen : depth < (schedule next steps).length := by rwa [length_schedule]
  rw [List.take_succ_eq_append_getElem hlen, nextAt, List.getElem?_eq_getElem hlen,
    Option.getD_some]

theorem nodesAt_succ (h : depth < maxDepth steps) :
    nodesAt next steps starts (depth + 1) = (hopsAt next steps starts depth).map Prod.snd := by
  rw [nodesAt, take_schedule_succ h, level_snoc]
  rfl

theorem exists_step_nextAt (next : TraversalStep Φ → Next String Edge) (h : depth < maxDepth steps) :
    ∃ step ∈ steps, stepAt steps depth = some step ∧ nextAt next steps depth = next step := by
  obtain ⟨⟨stepIdx, relDepth⟩, hdepth⟩ := Option.isSome_iff_exists.mp (depthToStep_isSome.mpr h)
  obtain ⟨step, hstep, -⟩ := depthToStep_some hdepth
  refine ⟨step, List.mem_of_getElem? hstep, ?_, nextAt_eq hdepth hstep⟩
  rw [stepAt, hdepth, Option.bind_some, hstep]

/-- Only known nodes are reached. -/
theorem known_nodesAt (hs : ∀ step ∈ steps, Serves ctx next known step)
    (hstarts : ∀ node ∈ starts, known node) (hle : depth ≤ maxDepth steps) :
    ∀ node ∈ nodesAt next steps starts depth, known node := by
  induction depth with
  | zero => exact hstarts
  | succ depth ih =>
    intro node hnode
    rw [nodesAt_succ hle] at hnode
    obtain ⟨hop, hhop, rfl⟩ := List.mem_map.mp hnode
    obtain ⟨step, hstep, -, hnext⟩ := exists_step_nextAt next (Nat.lt_of_succ_le hle)
    obtain ⟨src, hsrc, hmem⟩ := mem_hops.mp hhop
    rw [hnext] at hmem
    exact (hs step hstep).closed src (ih (Nat.le_of_succ_le hle) src hsrc) hop hmem

/-- The rows of a depth in `All` mode. -/
def emittedAt (next : TraversalStep Φ → Next String Edge) (steps : List (TraversalStep Φ))
    (starts : List String) (depth : Nat) : List (Edge × String) :=
  if emitsAt steps depth then hopsAt next steps starts depth else []

/-- No large level has a node twice that leads anywhere. -/
def CleanLevels (next : TraversalStep Φ → Next String Edge) (steps : List (TraversalStep Φ))
    (starts : List String) : Prop :=
  ∀ depth < maxDepth steps, ∀ step, stepAt steps depth = some step →
    Clean next step (nodesAt next steps starts depth)

theorem Clean.of_perm {step : TraversalStep Φ} {nodes nodes' : List String}
    (h : Clean next step nodes) (hperm : nodes'.Perm nodes) : Clean next step nodes' := by
  intro hlarge node hcount
  rw [(hperm.filter step.admits).length_eq] at hlarge
  rw [hperm.count_eq] at hcount
  exact h hlarge node hcount

/-- The rows from a level on, in `All` mode. -/
theorem AtLevel.returns_all (order : TraversalOp Φ → IterOrder) (hs : ∀ step ∈ steps, Serves ctx next known step)
    (hmode : ∀ step ∈ steps, step.mode = .all) (hstarts : ∀ node ∈ starts, known node)
    (h : AtLevel steps depth nodes op) (hlt : depth < maxDepth steps)
    (hlike : Like (CleanLevels next steps starts) nodes (nodesAt next steps starts depth)) :
    ∃ rows, Returns ctx order op rows ∧ Like (CleanLevels next steps starts) rows
      ((List.range' depth (maxDepth steps - depth)).flatMap (emittedAt next steps starts)) := by
  induction hrest : maxDepth steps - depth generalizing depth nodes op with
  | zero => omega
  | succ rest ih =>
    have hknown : ∀ node ∈ nodes, known node := fun node hnode =>
      known_nodesAt hs hstarts (Nat.le_of_lt hlt) node ((hlike.mem node).mp hnode)
    obtain ⟨step, stepIdx, relDepth, results, hdepth, hstep, hmem, hperm, hgo, hend⟩ :=
      h.run order hs hlt hknown
    have hmode' := hmode step (List.mem_of_getElem? hstep)
    have hstepAt : stepAt steps depth = some step := by
      rw [stepAt, hdepth, Option.bind_some, hstep]
    have hresults : Like (CleanLevels next steps starts) results
        (hopsAt next steps starts depth) := by
      have hlevel : Like (CleanLevels next steps starts) results (hops (next step) nodes) :=
        ⟨hmem, fun hc => hperm ((hc depth hlt step hstepAt).of_perm (hlike.perm hc))⟩
      rw [hopsAt, nextAt_eq hdepth hstep]
      exact hlevel.trans hlike.hops
    have hdepth' : depthToStep op.expr.steps op.currentDepth = some (stepIdx, relDepth) := by
      rw [h.layout, h.currentDepth, hdepth]
    have hall := takeAll_all hdepth' (by rw [h.layout, hstep]) hmode'
      (by rw [h.layout, h.bucketCount]) results
    rw [h.layout, h.currentDepth] at hall
    have hrows : Like (CleanLevels next steps starts) (op.takeAll results).2
        (emittedAt next steps starts depth) := by
      rw [hall.1, emittedAt]
      split
      · exact hresults
      · exact Like.refl _ _
    rw [List.range'_succ, List.flatMap_cons]
    by_cases hlast : depth + 1 < maxDepth steps
    · obtain ⟨op', hat, -, -, hreturns⟩ := hgo hlast
      have hnodes : Like (CleanLevels next steps starts)
          ((op.takeAll results).1.depthBuckets (depth + 1))
          (nodesAt next steps starts (depth + 1)) := by
        rw [hall.2 hlast, h.later _ (Nat.lt_succ_self depth), List.nil_append, nodesAt_succ hlt]
        exact hresults.map Prod.snd
      obtain ⟨rows, hret, hlater⟩ := ih hat hlast hnodes (by omega)
      exact ⟨_, hreturns rows hret, hrows.append hlater⟩
    · obtain rfl : rest = 0 := by omega
      refine ⟨_, hend (by omega), ?_⟩
      rw [List.range'_zero, List.flatMap_nil, List.append_nil]
      exact hrows

/-- A traversal without levels has no rows. -/
theorem AtLevel.returns_nil (h : AtLevel steps 0 nodes op) (hzero : maxDepth steps = 0) :
    Returns ctx order op [] := by
  refine Returns.done ?_
  have hnone : depthToStep steps 0 = none := by
    rw [← Option.not_isSome_iff_eq_none, depthToStep_isSome]
    omega
  rw [tick, h.pending]
  simp only [h.layout, h.currentDepth, hnone, hzero, Nat.zero_le, if_true, ite_self]

/-- The rows of a traversal in `All` mode. -/
theorem returns_all (order : TraversalOp Φ → IterOrder) {expr : TraversalExpr Φ}
    (hs : ∀ step ∈ expr.steps, Serves ctx next known step)
    (hmode : ∀ step ∈ expr.steps, step.mode = .all) (hstarts : ∀ node ∈ starts, known node) :
    ∃ rows, Returns ctx order (ofNormalized expr starts).opened rows ∧
      Like (CleanLevels next expr.steps starts) rows
        ((List.range (maxDepth expr.steps)).flatMap (emittedAt next expr.steps starts)) := by
  have hat := (atLevel_opened expr starts).1
  rcases Nat.eq_zero_or_pos (maxDepth expr.steps) with hzero | hpos
  · refine ⟨[], hat.returns_nil hzero, ?_⟩
    rw [hzero]
    exact Like.refl _ _
  · have := hat.returns_all order hs hmode hstarts hpos (Like.refl _ _)
    rwa [Nat.sub_zero, ← List.range_eq_range'] at this

end Search

end TraversalOp

end StellarDb
