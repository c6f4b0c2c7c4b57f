import StellarDb.Query.TraversalGraph

/-!
# StellarDb — a traversal in `Deduplicate` mode

The visited set of a traversal is one for all its levels. A node that is met before rows are
emitted blocks itself later, and what it would lead to there. So a traversal in `Deduplicate` mode
shows what it shows in `All` mode, each once, if nothing is met again that is still needed
(`NothingBlocked`). With a node as target the levels up to the first that emits must be apart from
those behind them; from there on a node met again leads to nothing new, since the last step goes on
with the same edges. With an edge as target the ids of edges must not be those of nodes either.
-/

namespace StellarDb

open Levels TraversalOp

variable {Φ : Type}

/-! ## The same steps in `All` mode -/

/-- The expression with every step in a mode. -/
def TraversalExpr.inMode (mode : TraversalMode) (expr : TraversalExpr Φ) : TraversalExpr Φ :=
  { expr with steps := expr.steps.map fun step => { step with mode } }

section InMode

variable {next : TraversalStep Φ → Next String Edge} {steps : List (TraversalStep Φ)}
  {mode : TraversalMode}

theorem maxDepth_inMode (steps : List (TraversalStep Φ)) (mode : TraversalMode) :
    maxDepth (steps.map fun step => { step with mode }) = maxDepth steps := by
  rw [maxDepth, maxDepth, List.map_map]
  rfl

theorem depthToStep_inMode (steps : List (TraversalStep Φ)) (mode : TraversalMode) (depth : Nat) :
    depthToStep (steps.map fun step => { step with mode }) depth = depthToStep steps depth := by
  induction steps generalizing depth with
  | nil => rfl
  | cons step rest ih =>
    rw [List.map_cons, depthToStep, depthToStep, ih]
    rfl

theorem emitsAt_inMode (steps : List (TraversalStep Φ)) (mode : TraversalMode) (depth : Nat) :
    emitsAt (steps.map fun step => { step with mode }) depth = emitsAt steps depth := by
  rw [emitsAt, emitsAt, depthToStep_inMode]
  cases depthToStep steps depth with
  | none => rfl
  | some r =>
    dsimp only
    rw [List.length_map, List.getElem?_map]
    cases steps[r.1]? <;> rfl

theorem schedule_inMode (h : ∀ step : TraversalStep Φ, next { step with mode } = next step) :
    schedule next (steps.map fun step => { step with mode }) = schedule next steps := by
  rw [schedule, schedule, List.flatMap_map]
  exact List.flatMap_congr fun step _ => by rw [h]; rfl

theorem hopsAt_inMode (h : ∀ step : TraversalStep Φ, next { step with mode } = next step)
    (starts : List String) (depth : Nat) :
    hopsAt next (steps.map fun step => { step with mode }) starts depth =
      hopsAt next steps starts depth := by
  rw [hopsAt, hopsAt, nextAt, nextAt, nodesAt, nodesAt, schedule_inMode h]

end InMode

/-! ## A level -/

section Level

variable {ctx : ExecutionContext Φ} {order : TraversalOp Φ → IterOrder}
  {next : TraversalStep Φ → Next String Edge} {known : String → Prop}
  {steps init : List (TraversalStep Φ)} {lastStep : TraversalStep Φ} {op : TraversalOp Φ}
  {depth : Nat} {nodes starts : List String}

/-- What is compared with the visited set at a depth. -/
def keyAt (steps : List (TraversalStep Φ)) (target : TraversalTarget) (depth : Nat)
    (hop : Edge × String) : String :=
  if emitsAt steps depth then target.dedupeKey hop.1 hop.2 else hop.2

/-- A level in `Deduplicate` mode, and what comes after it: the fresh results become rows and the
nodes of the next level. -/
theorem TraversalOp.AtLevel.run_deduplicate (order : TraversalOp Φ → IterOrder)
    (h : AtLevel steps depth nodes op)
    (hs : ∀ step ∈ steps, Serves ctx next known step)
    (hmode : ∀ step ∈ steps, step.mode = .deduplicate) (hlt : depth < maxDepth steps)
    (hknown : ∀ node ∈ nodes, known node) :
    ∃ results, (∀ hop, hop ∈ results ↔ hop ∈ hops (nextAt next steps depth) nodes) ∧
      (depth + 1 < maxDepth steps → ∃ op',
        AtLevel steps (depth + 1)
          ((fresh (keyAt steps op.expr.target depth) op.visited results).map Prod.snd) op' ∧
        (∀ key, key ∈ op'.visited ↔
          key ∈ op.visited ∨ ∃ hop ∈ results, keyAt steps op.expr.target depth hop = key) ∧
        op'.expr = op.expr ∧
        ∀ rows, Returns ctx order op' rows →
          Returns ctx order op ((if emitsAt steps depth then
            fresh (keyAt steps op.expr.target depth) op.visited results else []) ++ rows)) ∧
      (depth + 1 = maxDepth steps → Returns ctx order op (if emitsAt steps depth then
        fresh (keyAt steps op.expr.target depth) op.visited results else [])) := by
  obtain ⟨step, stepIdx, relDepth, results, hdepth, hstep, hmem, -, hgo, hend⟩ :=
    h.run order hs hlt hknown
  have hdepth' : depthToStep op.expr.steps op.currentDepth = some (stepIdx, relDepth) := by
    rw [h.layout, h.currentDepth, hdepth]
  have hstep' : op.expr.steps[stepIdx]? = some step := by rw [h.layout, hstep]
  have hkey : op.visitKey = keyAt steps op.expr.target depth := by
    funext hop
    rw [visitKey, h.layout, h.currentDepth]
    rfl
  have hall := takeAll_deduplicate hdepth' hstep'
    (hmode step (List.mem_of_getElem? hstep)) (by rw [h.layout, h.bucketCount]) results
  rw [h.layout, h.currentDepth, hkey] at hall
  refine ⟨results, fun hop => ?_, fun hlast => ?_, fun hlast => ?_⟩
  · rw [hmem, nextAt_eq hdepth hstep]
  · obtain ⟨hrows, hbucket, hvisited⟩ := hall (.inr hlast)
    obtain ⟨op', hat, hvisited', hexpr, hreturns⟩ := hgo hlast
    rw [hbucket hlast, h.later _ (Nat.lt_succ_self depth), List.nil_append] at hat
    refine ⟨op', hat, fun key => ?_, hexpr, fun rows hret => ?_⟩
    · rw [hvisited', hvisited]
    · rw [← hrows]
      exact hreturns rows hret
  · cases hemits : emitsAt steps depth with
    | true =>
      obtain ⟨hrows, -⟩ := hall (.inl hemits)
      rw [hemits] at hrows
      rw [← hrows]
      exact hend hlast
    | false =>
      have hquiet := takeAll_quiet hdepth' hstep' (by rw [h.layout, h.currentDepth, hemits]) results
      have := hend hlast
      rwa [hquiet] at this

/-- From the last step's first level on the same edges may be taken. -/
theorem nextAt_last (hle : maxDepth init ≤ depth) (hlt : depth < maxDepth (init ++ [lastStep])) :
    nextAt next (init ++ [lastStep]) depth = next lastStep := by
  have hinit : schedule next (init ++ [lastStep]) =
      schedule next init ++ List.replicate lastStep.levels (next lastStep) := by
    simp [schedule]
  rw [maxDepth_append, maxDepth_cons, maxDepth_nil, Nat.add_zero] at hlt
  rw [nextAt, hinit, List.getElem?_append_right (by rwa [length_schedule]), length_schedule,
    List.getElem?_replicate_of_lt (by omega), Option.getD_some]

/-- The depth from which on rows are emitted. -/
def firstEmit (init : List (TraversalStep Φ)) (lastStep : TraversalStep Φ) : Nat :=
  maxDepth init + lastStep.stepMinDepth

/-- The node is reached at the depth. -/
def Reached (next : TraversalStep Φ → Next String Edge) (steps : List (TraversalStep Φ))
    (starts : List String) (depth : Nat) (node : String) : Prop :=
  node ∈ nodesAt next steps starts depth

theorem reached_succ (hlt : depth < maxDepth steps) (node : String) :
    Reached next steps starts (depth + 1) node ↔
      ∃ hop ∈ hopsAt next steps starts depth, hop.2 = node := by
  rw [Reached, nodesAt_succ hlt, List.mem_map]

theorem mem_hopsAt {hop : Edge × String} : hop ∈ hopsAt next steps starts depth ↔
    ∃ node, Reached next steps starts depth node ∧ hop ∈ nextAt next steps depth node := mem_hops

/-! ## Nodes as target -/

/-- A node that is reached up to the first depth that emits is not reached again deeper, but for a
start node on the last level, or at all if rows are emitted from the start. -/
def NodesApart (next : TraversalStep Φ → Next String Edge) (init : List (TraversalStep Φ))
    (lastStep : TraversalStep Φ) (starts : List String) : Prop :=
  ∀ i j node, i ≤ firstEmit init lastStep → i < j → j ≤ maxDepth (init ++ [lastStep]) →
    Reached next (init ++ [lastStep]) starts i node →
    Reached next (init ++ [lastStep]) starts j node →
    i = 0 ∧ (firstEmit init lastStep = 0 ∨ j = maxDepth (init ++ [lastStep]))

/-- A node that is met again leads to nothing new. -/
theorem NodesApart.old (h : NodesApart next init lastStep starts)
    (hlt : depth < maxDepth (init ++ [lastStep])) {i : Nat} (hi : i < depth) {node : String}
    (hreached : Reached next (init ++ [lastStep]) starts i node)
    (hagain : Reached next (init ++ [lastStep]) starts depth node) {hop : Edge × String}
    (hhop : hop ∈ nextAt next (init ++ [lastStep]) depth node) :
    ∃ j ≤ depth, Reached next (init ++ [lastStep]) starts j hop.2 := by
  have hfirst : firstEmit init lastStep ≤ i := by
    by_contra hbefore
    obtain ⟨rfl, hzero | hlast⟩ :=
      h i depth node (by omega) hi (Nat.le_of_lt hlt) hreached hagain
    · omega
    · omega
  have hinit : maxDepth init ≤ i := (Nat.le_add_right _ _).trans hfirst
  have hsame : nextAt next (init ++ [lastStep]) depth = nextAt next (init ++ [lastStep]) i := by
    rw [nextAt_last (hinit.trans (Nat.le_of_lt hi)) hlt, nextAt_last hinit (hi.trans hlt)]
  refine ⟨i + 1, hi, (reached_succ (hi.trans hlt) _).mpr ⟨hop, mem_hopsAt.mpr ⟨node, hreached, ?_⟩,
    rfl⟩⟩
  rwa [← hsame]

/-- A level holds what is reached there for the first time, and what was reached before is
visited. -/
structure FirstReached (next : TraversalStep Φ → Next String Edge) (steps : List (TraversalStep Φ))
    (starts : List String) (depth : Nat) (nodes : List String) (visited : Finset String) : Prop where
  visited : ∀ node, node ∈ visited ↔ ∃ i ≤ depth, Reached next steps starts i node
  nodes : ∀ node, node ∈ nodes ↔ Reached next steps starts depth node ∧
    ∀ i < depth, ¬Reached next steps starts i node

section Step

variable {visited : Finset String} {results : List (Edge × String)}

/-- What a level leads to is reached one deeper, and everything reached there is seen. -/
theorem FirstReached.step (h : FirstReached next (init ++ [lastStep]) starts depth nodes visited)
    (hapart : NodesApart next init lastStep starts) (hlt : depth < maxDepth (init ++ [lastStep]))
    (hmem : ∀ hop, hop ∈ results ↔ hop ∈ hops (nextAt next (init ++ [lastStep]) depth) nodes)
    (node : String) :
    (∃ hop ∈ results, hop.2 = node) ∨ node ∈ visited ↔
      ∃ i ≤ depth + 1, Reached next (init ++ [lastStep]) starts i node := by
  constructor
  · rintro (⟨hop, hhop, rfl⟩ | hv)
    · obtain ⟨src, hsrc, hnext⟩ := mem_hops.mp ((hmem hop).mp hhop)
      exact ⟨depth + 1, Nat.le_refl _, (reached_succ hlt _).mpr
        ⟨hop, mem_hopsAt.mpr ⟨src, ((h.nodes src).mp hsrc).1, hnext⟩, rfl⟩⟩
    · obtain ⟨i, hi, hreached⟩ := (h.visited node).mp hv
      exact ⟨i, Nat.le_succ_of_le hi, hreached⟩
  · rintro ⟨i, hi, hreached⟩
    rcases Nat.lt_or_ge depth i with hgt | hle
    · obtain rfl : i = depth + 1 := by omega
      obtain ⟨hop, hhop, rfl⟩ := (reached_succ hlt node).mp hreached
      obtain ⟨src, hsrc, hnext⟩ := mem_hopsAt.mp hhop
      by_cases hold : ∃ i < depth, Reached next (init ++ [lastStep]) starts i src
      · -- the source was followed before
        obtain ⟨i, hi, hold⟩ := hold
        exact .inr ((h.visited _).mpr (hapart.old hlt hi hold hsrc hnext))
      · refine .inl ⟨hop, (hmem hop).mpr (mem_hops.mpr ⟨src, ?_, hnext⟩), rfl⟩
        exact (h.nodes src).mpr ⟨hsrc, fun i hi h => hold ⟨i, hi, h⟩⟩
    · exact .inr ((h.visited node).mpr ⟨i, hle, hreached⟩)

/-- The fresh results are what is reached for the first time. -/
theorem FirstReached.fresh (h : FirstReached next (init ++ [lastStep]) starts depth nodes visited)
    (hapart : NodesApart next init lastStep starts) (hlt : depth < maxDepth (init ++ [lastStep]))
    (hmem : ∀ hop, hop ∈ results ↔ hop ∈ hops (nextAt next (init ++ [lastStep]) depth) nodes)
    (node : String) :
    node ∈ (Levels.fresh Prod.snd visited results).map Prod.snd ↔
      Reached next (init ++ [lastStep]) starts (depth + 1) node ∧
        ∀ i ≤ depth, ¬Reached next (init ++ [lastStep]) starts i node := by
  have hstep := h.step hapart hlt hmem node
  constructor
  · intro hn
    obtain ⟨hop, hhop, rfl⟩ := List.mem_map.mp hn
    have hnew : ∀ i ≤ depth, ¬Reached next (init ++ [lastStep]) starts i hop.2 := fun i hi hr =>
      notMem_of_mem_fresh hhop ((h.visited _).mpr ⟨i, hi, hr⟩)
    obtain ⟨i, hi, hreached⟩ := hstep.mp (.inl ⟨hop, (fresh_sublist _ _).subset hhop, rfl⟩)
    rcases Nat.eq_or_lt_of_le hi with rfl | hlt'
    · exact ⟨hreached, hnew⟩
    · exact absurd hreached (hnew i (Nat.lt_succ_iff.mp hlt'))
  · rintro ⟨hreached, hnew⟩
    have hunvisited : node ∉ visited := fun hv => by
      obtain ⟨i, hi, hr⟩ := (h.visited node).mp hv
      exact hnew i hi hr
    rcases hstep.mpr ⟨depth + 1, Nat.le_refl _, hreached⟩ with ⟨hop, hhop, rfl⟩ | hv
    · obtain ⟨hop', hhop', heq⟩ := exists_fresh hhop hunvisited
      exact List.mem_map.mpr ⟨hop', hhop', heq⟩
    · exact absurd hv hunvisited

end Step

/-- A node that is a row at a depth or deeper: it is reached for the first time, from the first
depth that emits on. -/
def NewFrom (next : TraversalStep Φ → Next String Edge) (init : List (TraversalStep Φ))
    (lastStep : TraversalStep Φ) (starts : List String) (depth : Nat) (node : String) : Prop :=
  ∃ d, depth ≤ d ∧ d < maxDepth (init ++ [lastStep]) ∧ firstEmit init lastStep ≤ d ∧
    Reached next (init ++ [lastStep]) starts (d + 1) node ∧
    ∀ i ≤ d, ¬Reached next (init ++ [lastStep]) starts i node

/-- The rows from a level on, with nodes as target. -/
theorem TraversalOp.AtLevel.returns_nodes (order : TraversalOp Φ → IterOrder)
    (hs : ∀ step ∈ init ++ [lastStep], Serves ctx next known step)
    (hmode : ∀ step ∈ init ++ [lastStep], step.mode = .deduplicate)
    (hstarts : ∀ node ∈ starts, known node) (hapart : NodesApart next init lastStep starts)
    (hat : AtLevel (init ++ [lastStep]) depth nodes op) (hnode : op.expr.target.isEdge = false)
    (hlt : depth < maxDepth (init ++ [lastStep]))
    (hfirst : FirstReached next (init ++ [lastStep]) starts depth nodes op.visited) :
    ∃ rows, Returns ctx order op rows ∧ (rows.map Prod.snd).Nodup ∧
      ∀ node, node ∈ rows.map Prod.snd ↔ NewFrom next init lastStep starts depth node := by
  induction hrest : maxDepth (init ++ [lastStep]) - depth generalizing depth nodes op with
  | zero => omega
  | succ rest ih =>
    have hknown : ∀ node ∈ nodes, known node := fun node hn =>
      known_nodesAt hs hstarts (Nat.le_of_lt hlt) node ((hfirst.nodes node).mp hn).1
    obtain ⟨results, hmem, hgo, hend⟩ := hat.run_deduplicate order hs hmode hlt hknown
    have hkey : keyAt (init ++ [lastStep]) op.expr.target depth = Prod.snd := by
      funext hop
      rw [keyAt, TraversalTarget.dedupeKey, hnode]
      exact ite_self _
    rw [hkey] at hgo hend
    have hfresh := hfirst.fresh hapart hlt hmem
    have hrows : ∀ node, node ∈ ((if emitsAt (init ++ [lastStep]) depth then
        fresh Prod.snd op.visited results else []).map Prod.snd) ↔
        firstEmit init lastStep ≤ depth ∧ Reached next (init ++ [lastStep]) starts (depth + 1) node ∧
          ∀ i ≤ depth, ¬Reached next (init ++ [lastStep]) starts i node := by
      intro node
      have hemits : emitsAt (init ++ [lastStep]) depth = true ↔ firstEmit init lastStep ≤ depth :=
        emitsAt_iff hlt
      by_cases he : emitsAt (init ++ [lastStep]) depth = true
      · rw [if_pos he, hfresh, and_iff_right (hemits.mp he)]
      · rw [if_neg he]
        exact iff_of_false List.not_mem_nil fun h => he (hemits.mpr h.1)
    have hnodup : ((if emitsAt (init ++ [lastStep]) depth then
        fresh Prod.snd op.visited results else []).map Prod.snd).Nodup := by
      split
      · exact nodup_fresh _ _
      · exact List.nodup_nil
    by_cases hlast : depth + 1 < maxDepth (init ++ [lastStep])
    · obtain ⟨op', hat', hvisited, hexpr, hreturns⟩ := hgo hlast
      have hfirst' : FirstReached next (init ++ [lastStep]) starts (depth + 1)
          ((fresh Prod.snd op.visited results).map Prod.snd) op'.visited := by
        refine ⟨fun node => ?_, fun node => ?_⟩
        · rw [hvisited, or_comm, hfirst.step hapart hlt hmem]
        · rw [hfresh]
          exact and_congr_right fun _ => forall_congr' fun i =>
            imp_congr_left Nat.lt_succ_iff.symm
      obtain ⟨rows, hret, hnodup', hlater⟩ :=
        ih hat' (by rw [hexpr, hnode]) hlast hfirst' (by omega)
      refine ⟨_, hreturns rows hret, ?_, fun node => ?_⟩
      · rw [List.map_append]
        refine List.nodup_append.mpr ⟨hnodup, hnodup', fun a ha b hb heq => ?_⟩
        subst heq
        obtain ⟨d, hd, -, -, -, hnew⟩ := (hlater a).mp hb
        exact hnew (depth + 1) hd ((hrows a).mp ha).2.1
      · rw [List.map_append, List.mem_append, hrows, hlater]
        constructor
        · rintro (⟨hemit, hreached⟩ | ⟨d, hd, h⟩)
          · exact ⟨depth, Nat.le_refl _, hlt, hemit, hreached⟩
          · exact ⟨d, Nat.le_of_succ_le hd, h⟩
        · rintro ⟨d, hd, hdlt, hemit, hreached⟩
          rcases Nat.eq_or_lt_of_le hd with rfl | hgt
          · exact .inl ⟨hemit, hreached⟩
          · exact .inr ⟨d, hgt, hdlt, hemit, hreached⟩
    · refine ⟨_, hend (by omega), hnodup, fun node => ?_⟩
      rw [hrows]
      constructor
      · rintro ⟨hemit, hreached⟩
        exact ⟨depth, Nat.le_refl _, hlt, hemit, hreached⟩
      · rintro ⟨d, hd, hdlt, hemit, hreached⟩
        obtain rfl : d = depth := by omega
        exact ⟨hemit, hreached⟩

/-! ## Edges as target -/

/-- The levels up to the first depth that emits are apart, and no edge that is a row has the id of a
node of theirs. -/
structure EdgesApart (next : TraversalStep Φ → Next String Edge) (init : List (TraversalStep Φ))
    (lastStep : TraversalStep Φ) (starts : List String) : Prop where
  levels : ∀ i j node, i < j → j ≤ firstEmit init lastStep →
    Reached next (init ++ [lastStep]) starts i node →
    ¬Reached next (init ++ [lastStep]) starts j node
  ids : ∀ d, firstEmit init lastStep ≤ d → d < maxDepth (init ++ [lastStep]) →
    ∀ hop ∈ hopsAt next (init ++ [lastStep]) starts d, ∀ i ≤ firstEmit init lastStep,
      ¬Reached next (init ++ [lastStep]) starts i hop.1.id

/-- An edge is met at its two ends only. -/
def MeetsEnds (next : Next String Edge) : Prop :=
  ∀ src src' hop hop', hop ∈ next src → hop' ∈ next src' → hop.1.id = hop'.1.id →
    hop.2 = src ∨ hop.2 = src' ∨ hop.2 = hop'.2

/-- The id of the edge of a hop. -/
def hopId (hop : Edge × String) : String := hop.1.id

/-- A level from the first one that emits on. The nodes in `followed` were followed before: their
edges are visited, and lead to nodes that were followed too or are in the level. -/
structure EdgesSeen (next : TraversalStep Φ → Next String Edge) (init : List (TraversalStep Φ))
    (lastStep : TraversalStep Φ) (starts : List String) (depth : Nat) (followed : String → Prop)
    (nodes : List String) (visited : Finset String) : Prop where
  visited : ∀ key, key ∈ visited ↔
    (∃ i ≤ firstEmit init lastStep, Reached next (init ++ [lastStep]) starts i key) ∨
      ∃ src, followed src ∧ ∃ hop ∈ next lastStep src, hopId hop = key
  closed : ∀ src, followed src → ∀ hop ∈ next lastStep src, followed hop.2 ∨ hop.2 ∈ nodes
  cover : ∀ node, Reached next (init ++ [lastStep]) starts depth node →
    followed node ∨ node ∈ nodes
  reached : ∀ node ∈ nodes, Reached next (init ++ [lastStep]) starts depth node

section EdgeStep

variable {visited visited' : Finset String} {results : List (Edge × String)}
  {followed : String → Prop}

theorem EdgesSeen.hopsAt (h : EdgesSeen next init lastStep starts depth followed nodes visited)
    (hle : firstEmit init lastStep ≤ depth) (hlt : depth < maxDepth (init ++ [lastStep]))
    {hop : Edge × String} {src : String} (hsrc : src ∈ nodes) (hhop : hop ∈ next lastStep src) :
    hop ∈ TraversalOp.hopsAt next (init ++ [lastStep]) starts depth := by
  refine mem_hopsAt.mpr ⟨src, h.reached src hsrc, ?_⟩
  rwa [nextAt_last ((Nat.le_add_right _ _).trans hle) hlt]

/-- What a level leads to was followed, or is in the next level. -/
theorem EdgesSeen.step (h : EdgesSeen next init lastStep starts depth followed nodes visited)
    (hapart : EdgesApart next init lastStep starts) (hends : MeetsEnds (next lastStep))
    (hle : firstEmit init lastStep ≤ depth)
    (hlt : depth < maxDepth (init ++ [lastStep]))
    (hmem : ∀ hop, hop ∈ results ↔ hop ∈ hops (next lastStep) nodes)
    (hvisited : ∀ key, key ∈ visited' ↔ key ∈ visited ∨ ∃ hop ∈ results, hopId hop = key) :
    EdgesSeen next init lastStep starts (depth + 1) (fun node => followed node ∨ node ∈ nodes)
      ((fresh hopId visited results).map Prod.snd) visited' := by
  have hresult : ∀ {hop}, hop ∈ results ↔ ∃ src ∈ nodes, hop ∈ next lastStep src :=
    (hmem _).trans mem_hops
  have hclosed : ∀ src, followed src ∨ src ∈ nodes → ∀ hop ∈ next lastStep src,
      (followed hop.2 ∨ hop.2 ∈ nodes) ∨ hop.2 ∈ (fresh hopId visited results).map Prod.snd := by
    rintro src (hsrc | hsrc) hop hhop
    · exact .inl (h.closed src hsrc hop hhop)
    · by_cases hv : hopId hop ∈ visited
      · -- the edge was met before, from a node that was followed
        rcases (h.visited _).mp hv with ⟨i, hi, hreached⟩ | ⟨src', hsrc', hop', hhop', hid⟩
        · exact absurd hreached (hapart.ids depth hle hlt hop (h.hopsAt hle hlt hsrc hhop) i hi)
        · rcases hends src src' hop hop' hhop hhop' hid.symm with heq | heq | heq
          · exact .inl (.inr (heq ▸ hsrc))
          · exact .inl (.inl (heq ▸ hsrc'))
          · exact .inl (heq ▸ h.closed src' hsrc' hop' hhop')
      · -- the edge is met for the first time, maybe from another node of the level
        obtain ⟨hop', hfresh, hid⟩ := exists_fresh (hresult.mpr ⟨src, hsrc, hhop⟩) hv
        obtain ⟨src', hsrc', hhop'⟩ := hresult.mp ((fresh_sublist _ _).subset hfresh)
        rcases hends src src' hop hop' hhop hhop' hid.symm with heq | heq | heq
        · exact .inl (.inr (heq ▸ hsrc))
        · exact .inl (.inr (heq ▸ hsrc'))
        · exact .inr (heq ▸ List.mem_map_of_mem hfresh)
  refine ⟨fun key => ?_, hclosed, fun node hnode => ?_, fun node hnode => ?_⟩
  · rw [hvisited, h.visited, or_assoc]
    refine or_congr_right ⟨?_, ?_⟩
    · rintro (⟨src, hsrc, hhop⟩ | ⟨hop, hhop, hid⟩)
      · exact ⟨src, .inl hsrc, hhop⟩
      · obtain ⟨src, hsrc, hhop⟩ := hresult.mp hhop
        exact ⟨src, .inr hsrc, hop, hhop, hid⟩
    · rintro ⟨src, hsrc | hsrc, hop, hhop, hid⟩
      · exact .inl ⟨src, hsrc, hop, hhop, hid⟩
      · exact .inr ⟨hop, hresult.mpr ⟨src, hsrc, hhop⟩, hid⟩
  · obtain ⟨hop, hhop, rfl⟩ := (reached_succ hlt node).mp hnode
    obtain ⟨src, hsrc, hnext⟩ := mem_hopsAt.mp hhop
    rw [nextAt_last ((Nat.le_add_right _ _).trans hle) hlt] at hnext
    exact hclosed src (h.cover src hsrc) hop hnext
  · obtain ⟨hop, hhop, rfl⟩ := List.mem_map.mp hnode
    obtain ⟨src, hsrc, hnext⟩ := hresult.mp ((fresh_sublist _ _).subset hhop)
    exact (reached_succ hlt _).mpr ⟨hop, h.hopsAt hle hlt hsrc hnext, rfl⟩

end EdgeStep

/-- The edges with this id are met at a depth or deeper. -/
def MetFrom (next : TraversalStep Φ → Next String Edge) (steps : List (TraversalStep Φ))
    (starts : List String) (depth : Nat) (id : String) : Prop :=
  ∃ d, depth ≤ d ∧ d < maxDepth steps ∧ ∃ hop ∈ hopsAt next steps starts d, hopId hop = id

theorem metFrom_cases (hlt : depth < maxDepth steps) (id : String) :
    MetFrom next steps starts depth id ↔
      (∃ hop ∈ hopsAt next steps starts depth, hopId hop = id) ∨
        MetFrom next steps starts (depth + 1) id := by
  constructor
  · rintro ⟨d, hd, hdlt, hhop⟩
    rcases Nat.eq_or_lt_of_le hd with rfl | hgt
    · exact .inl hhop
    · exact .inr ⟨d, hgt, hdlt, hhop⟩
  · rintro (hhop | ⟨d, hd, hdlt, hhop⟩)
    · exact ⟨depth, Nat.le_refl _, hlt, hhop⟩
    · exact ⟨d, Nat.le_of_succ_le hd, hdlt, hhop⟩

/-- The rows from a level that emits on, with edges as target: what is met and was not visited. -/
theorem TraversalOp.AtLevel.returns_edges (order : TraversalOp Φ → IterOrder)
    (hs : ∀ step ∈ init ++ [lastStep], Serves ctx next known step)
    (hmode : ∀ step ∈ init ++ [lastStep], step.mode = .deduplicate)
    (hstarts : ∀ node ∈ starts, known node) (hapart : EdgesApart next init lastStep starts)
    (hends : MeetsEnds (next lastStep))
    {followed : String → Prop}
    (hat : AtLevel (init ++ [lastStep]) depth nodes op) (hedge : op.expr.target.isEdge = true)
    (hle : firstEmit init lastStep ≤ depth) (hlt : depth < maxDepth (init ++ [lastStep]))
    (hseen : EdgesSeen next init lastStep starts depth followed nodes op.visited) :
    ∃ rows, Returns ctx order op rows ∧ (rows.map hopId).Nodup ∧
      (∀ id ∈ rows.map hopId, id ∉ op.visited ∧
        MetFrom next (init ++ [lastStep]) starts depth id) ∧
      ∀ id, MetFrom next (init ++ [lastStep]) starts depth id →
        id ∈ op.visited ∨ id ∈ rows.map hopId := by
  induction hrest : maxDepth (init ++ [lastStep]) - depth generalizing depth nodes op followed with
  | zero => omega
  | succ rest ih =>
    have hknown : ∀ node ∈ nodes, known node := fun node hn =>
      known_nodesAt hs hstarts (Nat.le_of_lt hlt) node (hseen.reached node hn)
    obtain ⟨results, hmem, hgo, hend⟩ := hat.run_deduplicate order hs hmode hlt hknown
    have hemits : emitsAt (init ++ [lastStep]) depth = true := (emitsAt_iff hlt).mpr hle
    have hkey : keyAt (init ++ [lastStep]) op.expr.target depth = hopId := by
      funext hop
      rw [keyAt, if_pos hemits, TraversalTarget.dedupeKey, hedge]
      rfl
    rw [hkey, hemits] at hgo hend
    rw [nextAt_last ((Nat.le_add_right _ _).trans hle) hlt] at hmem
    have hfresh : ∀ id ∈ (fresh hopId op.visited results).map hopId, id ∉ op.visited ∧
        ∃ hop ∈ hopsAt next (init ++ [lastStep]) starts depth, hopId hop = id := by
      intro id hid
      obtain ⟨hop, hhop, rfl⟩ := List.mem_map.mp hid
      obtain ⟨src, hsrc, hnext⟩ := mem_hops.mp ((hmem hop).mp ((fresh_sublist _ _).subset hhop))
      exact ⟨notMem_of_mem_fresh hhop, hop, hseen.hopsAt hle hlt hsrc hnext, rfl⟩
    have hcover : ∀ hop ∈ results,
        hopId hop ∈ op.visited ∨ hopId hop ∈ (fresh hopId op.visited results).map hopId := by
      intro hop hhop
      by_cases hv : hopId hop ∈ op.visited
      · exact .inl hv
      · obtain ⟨hop', hhop', hid⟩ := exists_fresh hhop hv
        exact .inr (List.mem_map.mpr ⟨hop', hhop', hid⟩)
    -- an edge of this level comes from a node that was followed or from one that is now
    have hlevel : ∀ hop ∈ hopsAt next (init ++ [lastStep]) starts depth,
        hopId hop ∈ op.visited ∨ hopId hop ∈ (fresh hopId op.visited results).map hopId := by
      intro hop hhop
      obtain ⟨src, hsrc, hnext⟩ := mem_hopsAt.mp hhop
      rw [nextAt_last ((Nat.le_add_right _ _).trans hle) hlt] at hnext
      rcases hseen.cover src hsrc with hsrc | hsrc
      · exact .inl ((hseen.visited _).mpr (.inr ⟨src, hsrc, hop, hnext, rfl⟩))
      · exact hcover hop ((hmem hop).mpr (mem_hops.mpr ⟨src, hsrc, hnext⟩))
    by_cases hlast : depth + 1 < maxDepth (init ++ [lastStep])
    · obtain ⟨op', hat', hvisited, hexpr, hreturns⟩ := hgo hlast
      obtain ⟨rows, hret, hnodup, hsound, hcomplete⟩ := ih hat' (by rw [hexpr, hedge])
        (Nat.le_succ_of_le hle) hlast (hseen.step hapart hends hle hlt hmem hvisited) (by omega)
      refine ⟨_, hreturns rows hret, ?_, fun id hid => ?_, fun id hid => ?_⟩
      · rw [List.map_append]
        refine List.nodup_append.mpr ⟨nodup_fresh _ _, hnodup, fun a ha b hb heq => ?_⟩
        subst heq
        obtain ⟨hop, hhop, rfl⟩ := List.mem_map.mp ha
        exact (hsound _ hb).1 ((hvisited _).mpr (.inr ⟨hop, (fresh_sublist _ _).subset hhop, rfl⟩))
      · rw [List.map_append, List.mem_append] at hid
        rcases hid with hid | hid
        · obtain ⟨hnew, hhop⟩ := hfresh id hid
          exact ⟨hnew, (metFrom_cases hlt id).mpr (.inl hhop)⟩
        · obtain ⟨hnew, hmet⟩ := hsound id hid
          exact ⟨fun h => hnew ((hvisited id).mpr (.inl h)), (metFrom_cases hlt id).mpr (.inr hmet)⟩
      · rw [List.map_append, List.mem_append]
        rcases (metFrom_cases hlt id).mp hid with ⟨hop, hhop, rfl⟩ | hmet
        · exact (hlevel hop hhop).imp_right .inl
        · rcases hcomplete id hmet with hv | hid
          · rcases (hvisited id).mp hv with hv | ⟨hop, hhop, rfl⟩
            · exact .inl hv
            · exact (hcover hop hhop).imp_right .inl
          · exact .inr (.inr hid)
    · refine ⟨_, hend (by omega), nodup_fresh _ _, fun id hid => ?_, fun id hid => ?_⟩
      · obtain ⟨hnew, hhop⟩ := hfresh id hid
        exact ⟨hnew, (metFrom_cases hlt id).mpr (.inl hhop)⟩
      · rcases (metFrom_cases hlt id).mp hid with ⟨hop, hhop, rfl⟩ | ⟨d, hd, hdlt, -⟩
        · exact hlevel hop hhop
        · omega

/-- The levels before the first one that emits: each is followed as a whole. -/
structure LevelsSeen (next : TraversalStep Φ → Next String Edge) (steps : List (TraversalStep Φ))
    (starts : List String) (depth : Nat) (nodes : List String) (visited : Finset String) : Prop where
  visited : ∀ node, node ∈ visited ↔ ∃ i ≤ depth, Reached next steps starts i node
  nodes : ∀ node, node ∈ nodes ↔ Reached next steps starts depth node

theorem LevelsSeen.edgesSeen {visited : Finset String}
    (h : LevelsSeen next (init ++ [lastStep]) starts (firstEmit init lastStep) nodes visited) :
    EdgesSeen next init lastStep starts (firstEmit init lastStep) (fun _ => False) nodes visited where
  visited key := by simp only [h.visited, false_and, exists_false, or_false]
  closed _ hsrc := hsrc.elim
  cover node hnode := .inr ((h.nodes node).mpr hnode)
  reached node hnode := (h.nodes node).mp hnode

/-- The rows of a traversal with edges as target: the edges met from the first level that emits. -/
theorem TraversalOp.AtLevel.returns_edges_start (order : TraversalOp Φ → IterOrder)
    (hs : ∀ step ∈ init ++ [lastStep], Serves ctx next known step)
    (hmode : ∀ step ∈ init ++ [lastStep], step.mode = .deduplicate)
    (hstarts : ∀ node ∈ starts, known node) (hapart : EdgesApart next init lastStep starts)
    (hends : MeetsEnds (next lastStep))
    (hemit : firstEmit init lastStep < maxDepth (init ++ [lastStep]))
    (hat : AtLevel (init ++ [lastStep]) depth nodes op) (hedge : op.expr.target.isEdge = true)
    (hle : depth ≤ firstEmit init lastStep)
    (hseen : LevelsSeen next (init ++ [lastStep]) starts depth nodes op.visited) :
    ∃ rows, Returns ctx order op rows ∧ (rows.map hopId).Nodup ∧ ∀ id, id ∈ rows.map hopId ↔
      MetFrom next (init ++ [lastStep]) starts (firstEmit init lastStep) id := by
  induction hrest : firstEmit init lastStep - depth generalizing depth nodes op with
  | zero =>
    obtain rfl : depth = firstEmit init lastStep := by omega
    obtain ⟨rows, hret, hnodup, hsound, hcomplete⟩ := hat.returns_edges order hs hmode
      hstarts hapart hends hedge (Nat.le_refl _) hemit hseen.edgesSeen
    refine ⟨rows, hret, hnodup, fun id => ⟨fun hid => (hsound id hid).2, fun hmet => ?_⟩⟩
    refine (hcomplete id hmet).resolve_left fun hv => ?_
    obtain ⟨d, hd, hdlt, hop, hhop, rfl⟩ := hmet
    obtain ⟨i, hi, hreached⟩ := (hseen.visited _).mp hv
    exact hapart.ids d hd hdlt hop hhop i hi hreached
  | succ rest ih =>
    have hlt : depth + 1 < maxDepth (init ++ [lastStep]) := by omega
    have hlt' : depth < maxDepth (init ++ [lastStep]) := Nat.lt_of_succ_lt hlt
    have hknown : ∀ node ∈ nodes, known node := fun node hn =>
      known_nodesAt hs hstarts (Nat.le_of_lt hlt') node ((hseen.nodes node).mp hn)
    obtain ⟨results, hmem, hgo, -⟩ := hat.run_deduplicate order hs hmode hlt' hknown
    have hquiet : ¬emitsAt (init ++ [lastStep]) depth = true := by
      rw [emitsAt_iff hlt', ← firstEmit]
      omega
    have hkey : keyAt (init ++ [lastStep]) op.expr.target depth = Prod.snd :=
      funext fun hop => if_neg hquiet
    rw [hkey] at hgo
    obtain ⟨op', hat', hvisited, hexpr, hreturns⟩ := hgo hlt
    have hresult : ∀ node, (∃ hop ∈ results, hop.2 = node) ↔
        Reached next (init ++ [lastStep]) starts (depth + 1) node := by
      intro node
      rw [reached_succ hlt']
      refine exists_congr fun hop => and_congr_left fun _ => ?_
      rw [hmem, mem_hops, mem_hopsAt]
      exact exists_congr fun src => and_congr_left fun _ => hseen.nodes src
    have hseen' : LevelsSeen next (init ++ [lastStep]) starts (depth + 1)
        ((fresh Prod.snd op.visited results).map Prod.snd) op'.visited := by
      refine ⟨fun node => ?_, fun node => ?_⟩
      · rw [hvisited, hresult, hseen.visited]
        constructor
        · rintro (⟨i, hi, h⟩ | h)
          · exact ⟨i, Nat.le_succ_of_le hi, h⟩
          · exact ⟨depth + 1, Nat.le_refl _, h⟩
        · rintro ⟨i, hi, h⟩
          rcases Nat.eq_or_lt_of_le hi with rfl | hlt
          · exact .inr h
          · exact .inl ⟨i, Nat.lt_succ_iff.mp hlt, h⟩
      · constructor
        · intro hn
          obtain ⟨hop, hhop, rfl⟩ := List.mem_map.mp hn
          exact (hresult _).mp ⟨hop, (fresh_sublist _ _).subset hhop, rfl⟩
        · intro hreached
          obtain ⟨hop, hhop, rfl⟩ := (hresult node).mpr hreached
          have hnew : hop.2 ∉ op.visited := fun hv => by
            obtain ⟨i, hi, h⟩ := (hseen.visited _).mp hv
            exact hapart.levels i (depth + 1) hop.2 (by omega) (by omega) h hreached
          obtain ⟨hop', hhop', heq⟩ : ∃ hop' ∈ fresh Prod.snd op.visited results, hop'.2 = hop.2 :=
            exists_fresh hhop hnew
          exact List.mem_map.mpr ⟨hop', hhop', heq⟩
    obtain ⟨rows, hret, hrows⟩ := ih hat' (by rw [hexpr, hedge]) (by omega) hseen' (by omega)
    refine ⟨rows, ?_, hrows⟩
    have := hreturns rows hret
    rwa [if_neg hquiet] at this

/-- If no level emits there are no rows. -/
theorem TraversalOp.AtLevel.returns_quiet
    (hs : ∀ step ∈ steps, Serves ctx next known step)
    (hmode : ∀ step ∈ steps, step.mode = .deduplicate) (hstarts : ∀ node ∈ starts, known node)
    (hquiet : ∀ d < maxDepth steps, emitsAt steps d = false)
    (hat : AtLevel steps depth nodes op) (hlt : depth < maxDepth steps)
    (hnodes : ∀ node ∈ nodes, Reached next steps starts depth node) : Returns ctx order op [] := by
  induction hrest : maxDepth steps - depth generalizing depth nodes op with
  | zero => omega
  | succ rest ih =>
    have hknown : ∀ node ∈ nodes, known node := fun node hn =>
      known_nodesAt hs hstarts (Nat.le_of_lt hlt) node (hnodes node hn)
    obtain ⟨results, hmem, hgo, hend⟩ := hat.run_deduplicate order hs hmode hlt hknown
    have hnone : ¬emitsAt steps depth = true := by
      rw [hquiet depth hlt]
      exact Bool.false_ne_true
    simp only [if_neg hnone, List.nil_append] at hgo hend
    by_cases hlast : depth + 1 < maxDepth steps
    · obtain ⟨op', hat', -, -, hreturns⟩ := hgo hlast
      refine hreturns [] (ih hat' hlast (fun node hn => ?_) (by omega))
      obtain ⟨hop, hhop, rfl⟩ := List.mem_map.mp hn
      obtain ⟨src, hsrc, hnext⟩ := mem_hops.mp ((hmem hop).mp ((fresh_sublist _ _).subset hhop))
      exact (reached_succ hlt _).mpr ⟨hop, mem_hopsAt.mpr ⟨src, hnodes src hsrc, hnext⟩, rfl⟩
    · exact hend (by omega)

end Level

/-! ## The rows in the two modes -/

/-- The end nodes of the rows, or the ids of their edges for an edge target. -/
def keysOf (target : TraversalTarget) (rows : List (Edge × String)) : List String :=
  rows.map fun row => target.dedupeKey row.1 row.2

/-- What the traversal shows is what it shows in `All` mode, each once; only start nodes that are
reached again may be left out. -/
def ShowsOnce (ctx : ExecutionContext Φ) (order : TraversalOp Φ → IterOrder)
    (expr : TraversalExpr Φ) (starts : List String) : Prop :=
  ∃ rows allRows, Returns ctx order (new ctx expr starts).opened rows ∧
    Returns ctx order (ofNormalized ((normalizeTarget ctx expr).inMode .all) starts).opened allRows ∧
    (keysOf (normalizeTarget ctx expr).target rows).Nodup ∧
    (∀ key ∈ keysOf (normalizeTarget ctx expr).target rows,
      key ∈ keysOf (normalizeTarget ctx expr).target allRows) ∧
    ∀ key ∈ keysOf (normalizeTarget ctx expr).target allRows,
      key ∈ keysOf (normalizeTarget ctx expr).target rows ∨
        ((normalizeTarget ctx expr).target.isEdge = false ∧ key ∈ starts)

/-- Nothing that is met before rows are emitted is needed again. -/
structure NothingBlocked (ctx : ExecutionContext Φ) (G : Graph) (expr : TraversalExpr Φ)
    (starts : List String) : Prop where
  mode : ∀ step ∈ expr.steps, step.mode = .deduplicate
  filters : ctx.FiltersEvaluate G expr.steps
  nodes : expr.target.isEdge = false → ∀ init lastStep, expr.steps = init ++ [lastStep] →
    firstEmit init lastStep < maxDepth (init ++ [lastStep]) →
    NodesApart (G.follow ctx) init lastStep starts
  ids : expr.target.isEdge = true → (G.edges.map Edge.id).Nodup
  edges : expr.target.isEdge = true → ∀ init lastStep, expr.steps = init ++ [lastStep] →
    firstEmit init lastStep < maxDepth (init ++ [lastStep]) →
    EdgesApart (G.follow ctx) init lastStep starts

section Modes

variable {ctx : ExecutionContext Φ} {G : Graph} {step : TraversalStep Φ} {starts : List String}
  {order : TraversalOp Φ → IterOrder} {expr : TraversalExpr Φ} {node : String}

theorem follow_inMode (mode : TraversalMode) (step : TraversalStep Φ) :
    G.follow ctx { step with mode } = G.follow ctx step := rfl

/-- An edge is shown at a node in one way. -/
theorem Graph.shown_unique {side side' : EdgeSide} {e e₁ e₂ : Edge}
    (h₁ : G.shown side node e = some e₁) (h₂ : G.shown side' node e = some e₂) : e₁ = e₂ := by
  unfold Graph.shown at h₁ h₂
  split_ifs at h₁ h₂ <;> exact (Option.some.inj h₁).symm.trans (Option.some.inj h₂)

/-- What is followed is a stored edge seen from one of its ends, and leads to one of its ends. -/
theorem Graph.mem_follow {hop : Edge × String} (h : hop ∈ G.follow ctx step node) :
    ∃ e ∈ G.edges, (∃ side, G.shown side node e = some hop.1) ∧
      (e.src = node ∨ e.dst = node) ∧ (hop.2 = e.src ∨ hop.2 = e.dst) ∧
      hop.2 = step.nextNode node hop.1 := by
  unfold Graph.follow at h
  split at h
  · obtain ⟨e₁, he₁, rfl⟩ := List.mem_map.mp h
    obtain ⟨side, -, hseen⟩ := Graph.mem_listed (List.mem_filter.mp he₁).1
    obtain ⟨e, he, -, hshown⟩ := Graph.mem_seen.mp hseen
    have hend := step.nextNode_end node e₁
    refine ⟨e, he, ⟨side, hshown⟩, ?_, ?_, rfl⟩
    · rcases Graph.shown_cases hshown with ⟨-, h⟩ | ⟨-, -, h⟩
      · exact h
      · exact .inr h
    · rcases Graph.shown_cases hshown with ⟨rfl, -⟩ | ⟨rfl, -, -⟩
      · exact hend
      · exact hend.symm
  · cases h

/-- Edges with ids of their own are met at their two ends only. -/
theorem meetsEnds_follow (hids : (G.edges.map Edge.id).Nodup) (step : TraversalStep Φ) :
    MeetsEnds (G.follow ctx step) := by
  intro src src' hop hop' hhop hhop' hid
  obtain ⟨e, he, ⟨side, hshown⟩, hsrc, hend, hnext⟩ := Graph.mem_follow hhop
  obtain ⟨e', he', ⟨side', hshown'⟩, hsrc', hend', hnext'⟩ := Graph.mem_follow hhop'
  obtain rfl : e = e' := by
    refine List.inj_on_of_nodup_map hids he he' ?_
    rw [← Graph.id_of_shown hshown, ← Graph.id_of_shown hshown', hid]
  by_cases hsame : src = src'
  · -- seen from one node, the edge leads to one place
    subst hsame
    exact .inr (.inr (by rw [hnext, hnext', Graph.shown_unique hshown hshown']))
  · -- the two nodes are its two ends
    rcases hend with hend | hend
    · rcases hsrc with hsrc | hsrc
      · exact .inl (hend.trans hsrc)
      · rcases hsrc' with hsrc' | hsrc'
        · exact .inr (.inl (hend.trans hsrc'))
        · exact absurd (hsrc.symm.trans hsrc') hsame
    · rcases hsrc with hsrc | hsrc
      · rcases hsrc' with hsrc' | hsrc'
        · exact absurd (hsrc.symm.trans hsrc') hsame
        · exact .inr (.inl (hend.trans hsrc'))
      · exact .inl (hend.trans hsrc)

/-- The rows of the steps in `All` mode. -/
theorem returns_inMode_all (order : TraversalOp Φ → IterOrder)
    (hshows : ctx.Shows G (G.Known starts)) (hbounded : G.Bounded)
    (hfilters : ctx.FiltersEvaluate G expr.steps) :
    ∃ allRows, Returns ctx order (ofNormalized (expr.inMode .all) starts).opened allRows ∧
      ∀ row, row ∈ allRows ↔ ∃ d < maxDepth expr.steps, emitsAt expr.steps d = true ∧
        row ∈ hopsAt (G.follow ctx) expr.steps starts d := by
  have hfilters' : ctx.FiltersEvaluate G (expr.inMode .all).steps := by
    intro step hstep filter hfilter
    obtain ⟨step', hstep', rfl⟩ := List.mem_map.mp hstep
    exact hfilters step' hstep' filter hfilter
  have hall : ∀ step ∈ (expr.inMode .all).steps, step.mode = .all := by
    intro step hstep
    obtain ⟨step', -, rfl⟩ := List.mem_map.mp hstep
    rfl
  obtain ⟨allRows, hreturns, hlike⟩ := returns_all order
    (serves_follow hshows hbounded hfilters') hall (fun node hnode => .inl hnode)
  refine ⟨allRows, hreturns, fun row => ?_⟩
  have hsteps : (expr.inMode .all).steps = expr.steps.map fun step => { step with mode := .all } :=
    rfl
  rw [hlike.mem, List.mem_flatMap, hsteps, maxDepth_inMode]
  refine exists_congr fun d => ?_
  rw [List.mem_range]
  refine and_congr_right fun _ => ?_
  rw [emittedAt, emitsAt_inMode, hopsAt_inMode (follow_inMode .all)]
  split
  · rename_i h
    rw [and_iff_right h]
  · rename_i h
    exact iff_of_false List.not_mem_nil fun h' => h h'.1

theorem mem_keysOf {target : TraversalTarget} {rows : List (Edge × String)} {key : String} :
    key ∈ keysOf target rows ↔ ∃ row ∈ rows, target.dedupeKey row.1 row.2 = key := List.mem_map

/-- The steps of an expression in `Deduplicate` mode visit the start nodes. -/
theorem visited_opened (hmode : ∀ step ∈ expr.steps, step.mode = .deduplicate) (node : String) :
    node ∈ (ofNormalized expr starts).opened.visited ↔ node ∈ starts := by
  refine (atLevel_opened expr starts).2.1 (fun hall => ?_) node
  obtain ⟨step, hstep, hstepMode⟩ := Option.map_eq_some_iff.mp hall
  have := hmode step (List.mem_of_mem_head? hstep)
  rw [hstepMode] at this
  cases this

/-- In a traversal in `Deduplicate` mode where nothing is blocked, the rows and their keys. -/
theorem returns_deduplicate (order : TraversalOp Φ → IterOrder)
    (hshows : ctx.Shows G (G.Known starts)) (hbounded : G.Bounded)
    (h : NothingBlocked ctx G expr starts) :
    ∃ rows, Returns ctx order (ofNormalized expr starts).opened rows ∧
      (keysOf expr.target rows).Nodup ∧
      (∀ key ∈ keysOf expr.target rows, ∃ d < maxDepth expr.steps, emitsAt expr.steps d = true ∧
        ∃ hop ∈ hopsAt (G.follow ctx) expr.steps starts d,
          expr.target.dedupeKey hop.1 hop.2 = key) ∧
      ∀ d < maxDepth expr.steps, emitsAt expr.steps d = true →
        ∀ hop ∈ hopsAt (G.follow ctx) expr.steps starts d,
          expr.target.dedupeKey hop.1 hop.2 ∈ keysOf expr.target rows ∨
            (expr.target.isEdge = false ∧ expr.target.dedupeKey hop.1 hop.2 ∈ starts) := by
  obtain ⟨hat, -, hexpr⟩ := atLevel_opened expr starts
  have hs := serves_follow hshows hbounded h.filters
  have hvisited : ∀ node, node ∈ (ofNormalized expr starts).opened.visited ↔ ∃ i ≤ 0,
      Reached (G.follow ctx) expr.steps starts i node := by
    intro node
    rw [visited_opened h.mode]
    constructor
    · exact fun hnode => ⟨0, Nat.le_refl _, hnode⟩
    · rintro ⟨i, hi, hnode⟩
      obtain rfl := Nat.le_zero.mp hi
      exact hnode
  rcases Nat.eq_zero_or_pos (maxDepth expr.steps) with hzero | hpos
  · refine ⟨[], hat.returns_nil hzero, List.nodup_nil, nofun, fun d hd => ?_⟩
    omega
  rcases List.eq_nil_or_concat expr.steps with hnil | ⟨init, lastStep, hsteps⟩
  · rw [hnil] at hpos
    exact absurd hpos (Nat.lt_irrefl 0)
  rw [List.concat_eq_append] at hsteps
  have hmode := h.mode
  have hnodes := h.nodes
  have hedges := h.edges
  rw [hsteps] at hat hs hvisited hpos hmode ⊢
  by_cases hemit : firstEmit init lastStep < maxDepth (init ++ [lastStep])
  · cases htarget : expr.target.isEdge with
    | false =>
      have hkey : ∀ row : Edge × String, expr.target.dedupeKey row.1 row.2 = row.2 := fun row => by
        rw [TraversalTarget.dedupeKey, htarget]
        rfl
      have hkeys : ∀ rows, keysOf expr.target rows = rows.map Prod.snd := fun rows =>
        List.map_congr_left fun row _ => hkey row
      have hapart := hnodes htarget init lastStep hsteps hemit
      obtain ⟨rows, hret, hnodup, hrows⟩ := hat.returns_nodes order hs hmode
        (fun node hnode => .inl hnode) hapart (by rw [hexpr, htarget]) hpos
        ⟨hvisited, fun node => ⟨fun hn => ⟨hn, nofun⟩, fun hn => hn.1⟩⟩
      refine ⟨rows, hret, by rw [hkeys]; exact hnodup, fun key hkey' => ?_,
        fun d hd hemits hop hhop => ?_⟩
      · rw [hkeys] at hkey'
        obtain ⟨d, -, hd, hfirst, hreached, -⟩ := (hrows key).mp hkey'
        obtain ⟨hop, hhop, rfl⟩ := (reached_succ hd key).mp hreached
        exact ⟨d, hd, (emitsAt_iff hd).mpr hfirst, hop, hhop, hkey hop⟩
      · rw [hkeys, hkey, hrows, and_iff_right rfl]
        have hfirst : firstEmit init lastStep ≤ d := (emitsAt_iff hd).mp hemits
        -- the first depth at which the node is reached
        have hex : ∃ i, Reached (G.follow ctx) (init ++ [lastStep]) starts i hop.2 :=
          ⟨d + 1, (reached_succ hd _).mpr ⟨hop, hhop, rfl⟩⟩
        classical
        have hreached := Nat.find_spec hex
        have hmin : Nat.find hex ≤ d + 1 :=
          Nat.find_min' hex ((reached_succ hd _).mpr ⟨hop, hhop, rfl⟩)
        rcases Nat.lt_or_ge (firstEmit init lastStep) (Nat.find hex) with hlate | hearly
        · obtain ⟨i, hi⟩ : ∃ i, Nat.find hex = i + 1 := ⟨Nat.find hex - 1, by omega⟩
          rw [hi] at hreached hmin hlate
          refine .inl ⟨i, Nat.zero_le _, by omega, by omega, hreached, fun j hj hr => ?_⟩
          exact Nat.find_min hex (by omega) hr
        · obtain ⟨hstart, -⟩ := hapart _ (d + 1) hop.2 hearly (by omega) (by omega) hreached
            ((reached_succ hd _).mpr ⟨hop, hhop, rfl⟩)
          rw [hstart] at hreached
          exact .inr hreached
    | true =>
      have hkey : ∀ row : Edge × String, expr.target.dedupeKey row.1 row.2 = hopId row := fun row => by
        rw [TraversalTarget.dedupeKey, htarget]
        rfl
      have hkeys : ∀ rows, keysOf expr.target rows = rows.map hopId := fun rows =>
        List.map_congr_left fun row _ => hkey row
      obtain ⟨rows, hret, hnodup, hrows⟩ := hat.returns_edges_start order hs hmode
        (fun node hnode => .inl hnode) (hedges htarget init lastStep hsteps hemit)
        (meetsEnds_follow (h.ids htarget) lastStep) hemit (by rw [hexpr, htarget]) (Nat.zero_le _)
        ⟨hvisited, fun node => Iff.rfl⟩
      refine ⟨rows, hret, by rw [hkeys]; exact hnodup, fun key hkey' => ?_,
        fun d hd hemits hop hhop => ?_⟩
      · rw [hkeys] at hkey'
        obtain ⟨d, hfirst, hd, hop, hhop, rfl⟩ := (hrows key).mp hkey'
        exact ⟨d, hd, (emitsAt_iff hd).mpr hfirst, hop, hhop, hkey hop⟩
      · rw [hkeys, hkey, hrows]
        exact .inl ⟨d, (emitsAt_iff hd).mp hemits, hd, hop, hhop, rfl⟩
  · -- no level emits
    have hquiet : ∀ d < maxDepth (init ++ [lastStep]), emitsAt (init ++ [lastStep]) d = false := by
      intro d hd
      refine Bool.eq_false_of_not_eq_true fun hemits => ?_
      have hfirst : firstEmit init lastStep ≤ d := (emitsAt_iff hd).mp hemits
      omega
    refine ⟨[], hat.returns_quiet hs hmode (fun node hnode => .inl hnode) hquiet hpos
      (fun node hnode => hnode), List.nodup_nil, nofun, fun d hd hemits => ?_⟩
    rw [hquiet d hd] at hemits
    cases hemits

/-- A traversal in `Deduplicate` mode where nothing is blocked shows what it shows in `All` mode. -/
theorem showsOnce_of_nothingBlocked (order : TraversalOp Φ → IterOrder) (expr : TraversalExpr Φ)
    (hshows : ctx.Shows G (G.Known starts)) (hbounded : G.Bounded)
    (h : NothingBlocked ctx G (normalizeTarget ctx expr) starts) :
    ShowsOnce ctx order expr starts := by
  obtain ⟨rows, hrows, hnodup, hsound, hcomplete⟩ := returns_deduplicate order hshows hbounded h
  obtain ⟨allRows, hallRows, hmem⟩ := returns_inMode_all order hshows hbounded h.filters
  refine ⟨rows, allRows, hrows, hallRows, hnodup, fun key hkey => ?_, fun key hkey => ?_⟩
  · obtain ⟨d, hd, hemits, hop, hhop, hkey⟩ := hsound key hkey
    exact mem_keysOf.mpr ⟨hop, (hmem hop).mpr ⟨d, hd, hemits, hhop⟩, hkey⟩
  · obtain ⟨row, hrow, rfl⟩ := mem_keysOf.mp hkey
    obtain ⟨d, hd, hemits, hhop⟩ := (hmem row).mp hrow
    exact hcomplete d hd hemits row hhop

end Modes

/-! ### A circle -/

namespace Circle

def edge (src dst : String) : Edge := ⟨"knows:" ++ src, src, dst, "knows", 0, none, []⟩

/-- A way into a circle of two. -/
def graph : Graph := ⟨[edge "u:a" "u:b", edge "u:b" "u:c", edge "u:c" "u:b"], fun _ => false⟩

/-- `->knows{min..3}->u` -/
def expr (min : Nat) : TraversalExpr Empty :=
  ⟨[⟨.outgoing, some "knows", none, .range (some min) (some 3), .deduplicate, none⟩], .node "u",
    some .outgoing⟩

def order (_ : TraversalOp Empty) : IterOrder := .asKept

theorem normalizeTarget_expr (min : Nat) :
    normalizeTarget (graph.context ["u"]) (expr min) = expr min := rfl

theorem nothingBlocked : NothingBlocked (graph.context ["u"]) graph (expr 1) ["u:a"] where
  mode step hstep := by
    obtain rfl := List.mem_singleton.mp hstep
    rfl
  filters := Graph.filtersEvaluate_context graph ["u"] _
  nodes _ init lastStep hsteps _ := by
    obtain ⟨rfl, rfl⟩ : init = [] ∧ lastStep = _ := by
      have hlength := congrArg List.length hsteps
      obtain rfl : init = [] := List.eq_nil_of_length_eq_zero (by simpa [expr] using hlength)
      exact ⟨rfl, (List.singleton_inj.mp hsteps).symm⟩
    -- rows are emitted from the first level on
    exact fun i j node hi _ _ _ _ => ⟨Nat.le_zero.mp hi, .inl rfl⟩
  ids := nofun
  edges := nofun

end Circle

/-- From the first neighbour on every node of the circle is shown once. -/
theorem showsOnce_circle : ShowsOnce (Circle.graph.context ["u"]) Circle.order (Circle.expr 1) ["u:a"] :=
  showsOnce_of_nothingBlocked Circle.order (Circle.expr 1) (Graph.shows_context _ _ _)
    (Graph.bounded_of_length (by decide)) Circle.nothingBlocked

/-- From the second neighbour on: a node that is met on the way and again two edges later is shown
in `All` mode, and not in `Deduplicate` mode. -/
theorem not_showsOnce :
    (∀ side label node, (Circle.graph.seen side label node).length ≤ 1000) ∧
    (∀ step ∈ (Circle.expr 2).steps, step.mode = .deduplicate) ∧
    ¬ShowsOnce (Circle.graph.context ["u"]) Circle.order (Circle.expr 2) ["u:a"] := by
  refine ⟨Graph.bounded_of_length (by decide), fun step hstep => ?_, ?_⟩
  · obtain rfl := List.mem_singleton.mp hstep
    rfl
  · rintro ⟨rows, allRows, hrows, hallRows, -, -, hcomplete⟩
    have hkeys : (collect (Circle.graph.context ["u"]) Circle.order 30
        (new (Circle.graph.context ["u"]) (Circle.expr 2) ["u:a"]).opened).map
          (·.toOption.map (keysOf (Circle.expr 2).target)) = some (some ["u:c"]) := by
      decide +kernel
    have hallKeys : (collect (Circle.graph.context ["u"]) Circle.order 30
        (ofNormalized ((Circle.expr 2).inMode .all) ["u:a"]).opened).map
          (·.toOption.map (keysOf (Circle.expr 2).target)) = some (some ["u:c", "u:b"]) := by
      decide +kernel
    -- what is evaluated is what is returned
    have hreturned : ∀ {op : TraversalOp Empty} {found : List (Edge × String)} {keys : List String},
        Returns (Circle.graph.context ["u"]) Circle.order op found →
        (collect (Circle.graph.context ["u"]) Circle.order 30 op).map
          (·.toOption.map (keysOf (Circle.expr 2).target)) = some (some keys) →
        keysOf (Circle.expr 2).target found = keys := by
      intro op found keys hfound heval
      obtain ⟨r, hr, hr'⟩ := Option.map_eq_some_iff.mp heval
      cases r with
      | error e => cases hr'
      | ok rs =>
        obtain rfl := Returns.unique ⟨30, hr⟩ hfound
        exact Option.some.inj hr'
    rw [Circle.normalizeTarget_expr, hreturned hrows hkeys] at hcomplete
    rw [Circle.normalizeTarget_expr] at hallRows
    rw [hreturned hallRows hallKeys] at hcomplete
    have hlost := hcomplete "u:b" (by decide)
    revert hlost
    decide

end StellarDb
