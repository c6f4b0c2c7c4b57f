import StellarDb.Query.TraversalGraph

/-!
# StellarDb — a traversal in `All` mode yields walks

What a traversal in `All` mode is for: its rows are the last hops of the walks that take in each
step a number of edges within the depths of the step (`allWalks`). A walk takes an edge of the
graph from a node in the direction of the step; an edge of an undirected type is taken from either
end to the other.

The operator yields these rows when no walk is one it loses (`WalksKept`). It loses

* the walks that leave a step before the last one at less than its greatest depth, since only the
  nodes of its last level go on to the next step, and the walks without an edge in the last step;
* the edges of a wildcard, which lists the label `""`;
* the other ends of undirected edges that are not taken as outgoing ones;
* the walks of a node that is twice in one chunk, since the chunk goes through a map.

A self-loop that is taken in both directions at once is a row twice, and a step with a minimum
above its maximum still hands its nodes on.
-/

namespace StellarDb

open Levels TraversalOp

variable {Φ : Type}

/-! ## Walks -/

/-- The edge taken from a node, as it is seen from there, and the node at its other end. -/
def Graph.hop (G : Graph) (direction : TraversalDirection) (node : String) (e : Edge) :
    Option (Edge × String) :=
  if G.undirected e.label then
    if e.src = node then some (e, e.dst)
    else if e.dst = node then some (e.reversed, e.src)
    else none
  else
    match direction with
    | .outgoing => if e.src = node then some (e, e.dst) else none
    | .incoming => if e.dst = node then some (e, e.src) else none
    | .bidirectional =>
      if e.src = node then some (e, e.dst) else if e.dst = node then some (e, e.src) else none

/-- The edges that a step may take from a node; a wildcard takes every label. -/
def Graph.next (ctx : ExecutionContext Φ) (G : Graph) (step : TraversalStep Φ) :
    Next String Edge := fun node =>
  if step.admits node then
    (G.edges.filterMap fun e =>
      if step.label.all (e.label = ·) then G.hop step.direction node e else none).filter
        fun hop => step.passes ctx hop.1
  else []

/-- The minimum depth of a step. -/
def TraversalStep.minDepth (step : TraversalStep Φ) : Nat :=
  match step.depth with
  | .single => 1
  | .exact n => n
  | .range (some m) _ => m
  | .range none _ => 1

/-- The numbers of edges that a walk may take in the steps. -/
def choices : List (TraversalStep Φ) → List (List Nat)
  | [] => [[]]
  | step :: rest =>
    (List.range' step.minDepth (step.levels + 1 - step.minDepth)).flatMap fun k =>
      (choices rest).map (k :: ·)

/-- What a walk may take that takes these numbers of edges. -/
def walkSchedule (next : TraversalStep Φ → Next String Edge) (steps : List (TraversalStep Φ))
    (counts : List Nat) : List (Next String Edge) :=
  (steps.zip counts).flatMap fun p => List.replicate p.2 (next p.1)

/-- The walks that take these numbers of edges. -/
def walksOf (next : TraversalStep Φ → Next String Edge) (steps : List (TraversalStep Φ))
    (starts : List String) (counts : List Nat) : List (List (Edge × String)) :=
  starts.flatMap (walks (walkSchedule next steps counts))

/-- The walks from the start nodes through the steps. -/
def allWalks (next : TraversalStep Φ → Next String Edge) (steps : List (TraversalStep Φ))
    (starts : List String) : List (List (Edge × String)) :=
  (choices steps).flatMap (walksOf next steps starts)

/-! ## What the rows are -/

theorem max_minDepth (step : TraversalStep Φ) : max step.minDepth 1 = step.stepMinDepth + 1 := by
  unfold TraversalStep.minDepth TraversalStep.stepMinDepth
  rcases step.depth with _ | n | ⟨_ | m, _⟩ <;> dsimp only <;> omega

section Choices

variable {β : Type} {init : List (TraversalStep Φ)} {lastStep : TraversalStep Φ}

/-- If only full walks exist, they are told apart by their depth in the last step. -/
theorem flatMap_choices {W : List Nat → List β}
    (hbounds : ∀ step ∈ init, step.minDepth ≤ step.levels)
    (hfull : ∀ counts ∈ choices (init ++ [lastStep]), W counts ≠ [] →
      ∃ k, counts = init.map (·.levels) ++ [k + 1]) :
    (choices (init ++ [lastStep])).flatMap W =
      (List.range' (lastStep.stepMinDepth + 1) (lastStep.levels - lastStep.stepMinDepth)).flatMap
        fun k => W (init.map (·.levels) ++ [k]) := by
  induction init generalizing W with
  | nil =>
    have hlast := max_minDepth lastStep
    have hone : (choices [lastStep]).flatMap W =
        (List.range' lastStep.minDepth (lastStep.levels + 1 - lastStep.minDepth)).flatMap
          fun k => W [k] := by
      rw [choices, List.flatMap_assoc]
      exact List.flatMap_congr fun k _ => by simp [choices]
    show (choices [lastStep]).flatMap W = _
    rw [hone]
    rcases Nat.eq_zero_or_pos lastStep.minDepth with hzero | hpos
    · -- a walk that takes no edge in the last step does not exist
      have hnil : W [0] = [] := by
        by_contra hne
        have hmem : [0] ∈ choices ([] ++ [lastStep]) := by
          rw [List.nil_append, choices, hzero, Nat.sub_zero, List.range'_succ]
          exact List.mem_cons_self
        obtain ⟨k, hk⟩ := hfull [0] hmem hne
        simp at hk
      have hstart : lastStep.stepMinDepth = 0 := by omega
      rw [hzero, hstart, Nat.sub_zero, Nat.sub_zero, List.range'_succ, List.flatMap_cons, hnil]
      rfl
    · have hstart : lastStep.minDepth = lastStep.stepMinDepth + 1 := by omega
      rw [hstart, Nat.add_sub_add_right]
      rfl
  | cons step rest ih =>
    rw [List.forall_mem_cons] at hbounds
    have hsplit : List.range' step.minDepth (step.levels + 1 - step.minDepth) =
        List.range' step.minDepth (step.levels - step.minDepth) ++ [step.levels] := by
      have hle := hbounds.1
      rw [Nat.succ_sub hle, List.range'_1_concat, Nat.add_sub_cancel' hle]
    have hmem : ∀ k ∈ List.range' step.minDepth (step.levels + 1 - step.minDepth),
        ∀ counts ∈ choices (rest ++ [lastStep]),
          k :: counts ∈ choices (step :: rest ++ [lastStep]) := fun k hk counts hcounts =>
      List.mem_flatMap.mpr ⟨k, hk, List.mem_map_of_mem hcounts⟩
    have hless : ((List.range' step.minDepth (step.levels - step.minDepth)).flatMap fun k =>
        (choices (rest ++ [lastStep])).flatMap fun counts => W (k :: counts)) = [] := by
      refine List.flatMap_eq_nil_iff.mpr fun k hk => List.flatMap_eq_nil_iff.mpr fun counts hcounts => ?_
      by_contra hne
      have hk' : k ∈ List.range' step.minDepth (step.levels + 1 - step.minDepth) := by
        rw [hsplit]
        exact List.mem_append_left _ hk
      obtain ⟨j, hj⟩ := hfull _ (hmem k hk' counts hcounts) hne
      have hkl : k = step.levels := (List.cons.inj hj).1
      rw [List.mem_range'_1] at hk
      have hle := hbounds.1
      omega
    have hrest := ih (W := fun counts => W (step.levels :: counts)) hbounds.2
      fun counts hcounts hne => by
        obtain ⟨k, hk⟩ := hfull _ (hmem step.levels (by
          rw [hsplit]
          exact List.mem_append_right _ (List.mem_singleton_self _)) counts hcounts) hne
        exact ⟨k, (List.cons.inj hk).2⟩
    show ((List.range' step.minDepth (step.levels + 1 - step.minDepth)).flatMap fun k =>
      (choices (rest ++ [lastStep])).map (k :: ·)).flatMap W = _
    rw [List.flatMap_assoc, hsplit, List.flatMap_append]
    simp only [List.flatMap_map, List.flatMap_singleton]
    rw [hless, List.nil_append, hrest]
    rfl

end Choices

section Rows

variable {next : TraversalStep Φ → Next String Edge} {init : List (TraversalStep Φ)}
  {lastStep : TraversalStep Φ} {starts : List String}

theorem walkSchedule_full (next : TraversalStep Φ → Next String Edge)
    (init : List (TraversalStep Φ)) (lastStep : TraversalStep Φ) {k : Nat}
    (hk : k ≤ lastStep.levels) :
    walkSchedule next (init ++ [lastStep]) (init.map (·.levels) ++ [k]) =
      (schedule next (init ++ [lastStep])).take (maxDepth init + k) := by
  have hzip : (init ++ [lastStep]).zip (init.map (·.levels) ++ [k]) =
      (init.map fun step => (step, step.levels)) ++ [(lastStep, k)] := by
    have hself : init.zip (init.map (·.levels)) = init.map fun step => (step, step.levels) := by
      induction init with
      | nil => rfl
      | cons step rest ih => exact congrArg ((step, step.levels) :: ·) ih
    rw [List.zip_append (List.length_map _).symm, hself]
    rfl
  have hinit : schedule next (init ++ [lastStep]) =
      schedule next init ++ List.replicate lastStep.levels (next lastStep) := by
    simp [schedule]
  rw [walkSchedule, hzip, hinit, List.flatMap_append, List.flatMap_map, List.flatMap_singleton,
    ← length_schedule next init, List.take_length_add_append, List.take_replicate,
    Nat.min_eq_left hk]
  rfl

/-- The last hops of the walks that end at a level. -/
theorem lastHops_full {k : Nat} (hk : k < lastStep.levels) :
    (walksOf next (init ++ [lastStep]) starts (init.map (·.levels) ++ [k + 1])).map List.getLast? =
      (hopsAt next (init ++ [lastStep]) starts (maxDepth init + k)).map some := by
  have hlt : maxDepth init + k < maxDepth (init ++ [lastStep]) := by
    rw [maxDepth_append, maxDepth_cons]
    omega
  have hschedule : walkSchedule next (init ++ [lastStep]) (init.map (·.levels) ++ [k + 1]) =
      (schedule next (init ++ [lastStep])).take (maxDepth init + k + 1) :=
    walkSchedule_full next init lastStep hk
  rw [walksOf, hschedule, take_schedule_succ hlt]
  exact last_hops _ _ _

/-- The rows of `All` mode are those of the levels from the first one that emits. -/
theorem emitted_eq (next : TraversalStep Φ → Next String Edge) (init : List (TraversalStep Φ))
    (lastStep : TraversalStep Φ) (starts : List String) :
    (List.range (maxDepth (init ++ [lastStep]))).flatMap
        (emittedAt next (init ++ [lastStep]) starts) =
      (List.range' lastStep.stepMinDepth (lastStep.levels - lastStep.stepMinDepth)).flatMap
        fun k => hopsAt next (init ++ [lastStep]) starts (maxDepth init + k) := by
  have hmax : maxDepth (init ++ [lastStep]) = maxDepth init + lastStep.levels := by
    rw [maxDepth_append, maxDepth_cons, maxDepth_nil, Nat.add_zero]
  have hbefore : ∀ count ≤ maxDepth (init ++ [lastStep]),
      count ≤ maxDepth init + lastStep.stepMinDepth →
      (List.range' 0 count).flatMap (emittedAt next (init ++ [lastStep]) starts) = [] := by
    intro count hcount hle
    refine List.flatMap_eq_nil_iff.mpr fun depth hdepth => ?_
    rw [List.mem_range'_1] at hdepth
    rw [emittedAt, if_neg]
    rw [emitsAt_iff (by omega)]
    omega
  rw [List.range_eq_range']
  rcases Nat.lt_or_ge lastStep.levels lastStep.stepMinDepth with hnone | hle
  · rw [hbefore _ (Nat.le_refl _) (by omega), Nat.sub_eq_zero_of_le (Nat.le_of_lt hnone)]
    rfl
  · have hsplit : List.range' 0 (maxDepth (init ++ [lastStep])) =
        List.range' 0 (maxDepth init + lastStep.stepMinDepth) ++
          List.range' (maxDepth init + lastStep.stepMinDepth)
            (lastStep.levels - lastStep.stepMinDepth) := by
      have happend := @List.range'_append_1 0 (maxDepth init + lastStep.stepMinDepth)
        (lastStep.levels - lastStep.stepMinDepth)
      rw [Nat.zero_add] at happend
      rw [happend, hmax]
      congr 1
      omega
    have hshift : List.range' (maxDepth init + lastStep.stepMinDepth)
        (lastStep.levels - lastStep.stepMinDepth) =
        (List.range' lastStep.stepMinDepth (lastStep.levels - lastStep.stepMinDepth)).map
          (maxDepth init + ·) := by
      rw [List.map_add_range']
    rw [hsplit, List.flatMap_append, hbefore _ (by omega) (Nat.le_refl _), List.nil_append, hshift,
      List.flatMap_map]
    refine List.flatMap_congr fun k hk => ?_
    rw [List.mem_range'_1] at hk
    show emittedAt next (init ++ [lastStep]) starts (maxDepth init + k) = _
    rw [emittedAt, if_pos]
    rw [emitsAt_iff (by omega)]
    omega

end Rows

/-! ## What a step follows, and what it may take -/

/-- Nothing that the step may take from the node is lost or found twice: the step has a label,
takes undirected edges as outgoing ones only, and takes no self-loop in both directions. -/
def Graph.Plain (ctx : ExecutionContext Φ) (G : Graph) (step : TraversalStep Φ) (node : String) :
    Prop :=
  ∀ hop ∈ G.next ctx step node, step.label ≠ none ∧
    (step.direction ≠ .outgoing → G.undirected hop.1.label = false) ∧
    (step.direction = .bidirectional → hop.1.src ≠ hop.1.dst)

section Plain

variable {ctx : ExecutionContext Φ} {G : Graph} {step : TraversalStep Φ} {node : String}

theorem Graph.mem_next {hop : Edge × String} (hadmits : step.admits node = true) :
    hop ∈ G.next ctx step node ↔ (∃ e ∈ G.edges, step.label.all (e.label = ·) = true ∧
      G.hop step.direction node e = some hop) ∧ step.passes ctx hop.1 = true := by
  rw [Graph.next, if_pos hadmits, List.mem_filter, List.mem_filterMap]
  refine and_congr_left fun _ => exists_congr fun e => and_congr_right fun _ => ?_
  by_cases hlabel : step.label.all (e.label = ·) = true
  · rw [if_pos hlabel, and_iff_right hlabel]
  · rw [if_neg hlabel]
    exact iff_of_false nofun fun h => hlabel h.1

/-- An edge that a direction lists can be taken in it. -/
theorem Graph.hop_of_shown {direction : TraversalDirection} {side : EdgeSide} {e e' : Edge}
    (hside : direction.Lists side) (h : G.shown side node e' = some e) :
    ∃ n, G.hop direction node e' = some (e, n) := by
  unfold Graph.shown at h
  unfold Graph.hop
  cases direction <;> cases side <;> first | exact hside.elim | skip
  all_goals
    split_ifs at h ⊢ <;> first | exact ⟨_, by rw [Option.some.inj h]⟩ | contradiction

/-- What a step lists it may take. -/
theorem Graph.mem_next_of_listed (hadmits : step.admits node = true) {e : Edge}
    (he : e ∈ G.listed step node) (hpass : step.passes ctx e = true) :
    ∃ n, (e, n) ∈ G.next ctx step node := by
  obtain ⟨side, hside, hseen⟩ := Graph.mem_listed he
  obtain ⟨e', he', hlabel, hshown⟩ := Graph.mem_seen.mp hseen
  obtain ⟨n, hn⟩ := Graph.hop_of_shown hside hshown
  have hall : step.label.all (e'.label = ·) = true := by
    cases hl : step.label with
    | none => rfl
    | some label => simpa [hl] using hlabel
  exact ⟨n, (Graph.mem_next hadmits).mpr ⟨⟨e', he', hall, hn⟩, hpass⟩⟩

theorem Graph.label_of_hop {direction : TraversalDirection} {e : Edge} {hop : Edge × String}
    (h : G.hop direction node e = some hop) : hop.1.label = e.label := by
  unfold Graph.hop at h
  split at h
  · split_ifs at h
    · rw [← Option.some.inj h]
    · rw [← Option.some.inj h]
      rfl
  · cases direction <;> dsimp only at h <;> split_ifs at h <;> rw [← Option.some.inj h]

/-- If nothing may be taken, nothing is followed. -/
theorem Graph.follow_eq_nil (h : G.next ctx step node = []) : G.follow ctx step node = [] := by
  unfold Graph.follow
  split
  · rename_i hadmits
    refine List.map_eq_nil_iff.mpr (List.eq_nil_iff_forall_not_mem.mpr fun e he => ?_)
    obtain ⟨hlisted, hpass⟩ := List.mem_filter.mp he
    obtain ⟨n, hn⟩ := Graph.mem_next_of_listed hadmits hlisted hpass
    rw [h] at hn
    cases hn
  · rfl

/-- Listing and then going on is taking, when each listed edge leads to one place. -/
theorem filter_filterMap_hop {edges : List Edge} {list : Edge → Option Edge}
    {hop : Edge → Option (Edge × String)} {goTo : Edge → String} {p : Edge → Bool}
    (h : ∀ e ∈ edges, hop e = (list e).map fun e' => (e', goTo e')) :
    ((edges.filterMap list).filter p).map (fun e => (e, goTo e)) =
      (edges.filterMap hop).filter fun hop => p hop.1 := by
  have hmap : edges.filterMap hop = (edges.filterMap list).map fun e => (e, goTo e) := by
    rw [List.map_filterMap]
    exact List.filterMap_congr h
  rw [hmap, List.filter_map]
  rfl

theorem Graph.hop_outgoing (e : Edge) :
    G.hop .outgoing node e = (G.shown .outgoing node e).map fun e' => (e', e'.dst) := by
  unfold Graph.shown Graph.hop
  by_cases hund : G.undirected e.label = true
  · rw [if_pos hund, if_pos hund]
    split_ifs <;> rfl
  · rw [if_neg hund, if_neg hund]
    show _ = (if e.src = node then some e else none).map _
    split_ifs <;> rfl

theorem Graph.hop_incoming {e : Edge} (hund : G.undirected e.label = false) :
    G.hop .incoming node e = (G.shown .incoming node e).map fun e' => (e', e'.src) := by
  have hund' : ¬G.undirected e.label = true := by simp [hund]
  unfold Graph.shown Graph.hop
  rw [if_neg hund', if_neg hund']
  show _ = (if e.dst = node then some e else none).map _
  split_ifs <;> rfl

theorem Graph.hop_bidirectional {e : Edge} (hund : G.undirected e.label = false)
    {hop : Edge × String} (h : G.hop .bidirectional node e = some hop) :
    hop = (hop.1, if hop.1.src = node then hop.1.dst else hop.1.src) := by
  have hund' : ¬G.undirected e.label = true := by simp [hund]
  unfold Graph.hop at h
  rw [if_neg hund'] at h
  have h' : (if e.src = node then some (e, e.dst) else
      if e.dst = node then some (e, e.src) else none) = some hop := h
  split_ifs at h' with hsrc hdst
  · rw [← Option.some.inj h', if_pos hsrc]
  · rw [← Option.some.inj h', if_neg hsrc]

/-- An edge without a loop is taken in one of the two directions. -/
theorem filter_filterMap_both {edges : List Edge} {label : String} {p : Edge → Bool}
    (hund : G.undirected label = false)
    (hloop : ∀ e ∈ edges, e.label = label → p e = true → ¬(e.src = node ∧ e.dst = node)) :
    (((edges.filterMap fun e => if e.label = label then G.shown .outgoing node e else none) ++
        edges.filterMap fun e => if e.label = label then G.shown .incoming node e else none).filter
          p).Perm
      (((edges.filterMap fun e => if e.label = label then G.hop .bidirectional node e else none).filter
        fun hop => p hop.1).map Prod.fst) := by
  induction edges with
  | nil => exact List.Perm.refl _
  | cons e rest ih =>
    have hrest := ih fun e' he' => hloop e' (List.mem_cons_of_mem _ he')
    by_cases hlabel : e.label = label
    · have hund' : ¬G.undirected e.label = true := by rw [hlabel, hund]; exact Bool.false_ne_true
      have hout : G.shown .outgoing node e = if e.src = node then some e else none := if_neg hund'
      have hin : G.shown .incoming node e = if e.dst = node then some e else none := if_neg hund'
      have hboth : G.hop .bidirectional node e =
          if e.src = node then some (e, e.dst) else if e.dst = node then some (e, e.src) else none :=
        if_neg hund'
      simp only [List.filterMap_cons, if_pos hlabel, hout, hin, hboth]
      rw [List.filter_append] at hrest ⊢
      cases hpass : p e with
      | false =>
        by_cases hsrc : e.src = node <;> by_cases hdst : e.dst = node <;>
          simpa [hsrc, hdst, hpass] using hrest
      | true =>
        have hone := hloop e List.mem_cons_self hlabel hpass
        by_cases hsrc : e.src = node
        · have hdst : ¬e.dst = node := fun h => hone ⟨hsrc, h⟩
          simpa [hsrc, hdst, hpass] using hrest
        · by_cases hdst : e.dst = node
          · have hmiddle := List.perm_middle.trans (hrest.cons e)
            simpa [hsrc, hdst, hpass] using hmiddle
          · simpa [hsrc, hdst, hpass] using hrest
    · simpa only [List.filterMap_cons, if_neg hlabel] using hrest

/-- At a plain node a step follows what it may take. -/
theorem Graph.Plain.follow_perm (h : G.Plain ctx step node) :
    (G.follow ctx step node).Perm (G.next ctx step node) := by
  by_cases hnil : G.next ctx step node = []
  · rw [hnil, Graph.follow_eq_nil hnil]
  have hadmits : step.admits node = true := by
    by_contra hadmits
    exact hnil (if_neg hadmits)
  obtain ⟨hop, hhop⟩ := List.exists_mem_of_ne_nil _ hnil
  obtain ⟨hlabel, hdirected, -⟩ := h hop hhop
  obtain ⟨label, hl⟩ := Option.ne_none_iff_exists'.mp hlabel
  have hall : ∀ e : Edge, (step.label.all (e.label = ·) = true) = (e.label = label) := by
    intro e
    simp [hl]
  have hnext : G.next ctx step node = (G.edges.filterMap fun e =>
      if e.label = label then G.hop step.direction node e else none).filter
        fun hop => step.passes ctx hop.1 := by
    rw [Graph.next, if_pos hadmits]
    simp only [hall]
  have hund : step.direction ≠ .outgoing → G.undirected label = false := by
    intro hdir
    obtain ⟨⟨e, -, hlab, hhop'⟩, -⟩ := (Graph.mem_next hadmits).mp hhop
    rw [← hdirected hdir, Graph.label_of_hop hhop', ← (hall e).mp hlab]
  rw [hnext, Graph.follow, if_pos hadmits, Graph.listed, hl, Option.getD_some]
  unfold TraversalStep.nextNode
  cases hdir : step.direction with
  | outgoing =>
    refine List.Perm.of_eq (filter_filterMap_hop fun e _ => ?_)
    by_cases hlab : e.label = label
    · rw [if_pos hlab, if_pos hlab, Graph.hop_outgoing]
    · rw [if_neg hlab, if_neg hlab]
      rfl
  | incoming =>
    refine List.Perm.of_eq (filter_filterMap_hop fun e _ => ?_)
    by_cases hlab : e.label = label
    · rw [if_pos hlab, if_pos hlab, Graph.hop_incoming (hlab ▸ hund (by rw [hdir]; decide))]
    · rw [if_neg hlab, if_neg hlab]
      rfl
  | bidirectional =>
    have hund' := hund (by rw [hdir]; decide)
    have hloop : ∀ e ∈ G.edges, e.label = label → step.passes ctx e = true →
        ¬(e.src = node ∧ e.dst = node) := by
      rintro e he hlab hpass ⟨hsrc, hdst⟩
      have hmem : (e, e.dst) ∈ G.next ctx step node := by
        refine (Graph.mem_next hadmits).mpr ⟨⟨e, he, (hall e).mpr hlab, ?_⟩, hpass⟩
        unfold Graph.hop
        rw [hlab, hund', hdir]
        exact if_pos hsrc
      exact (h _ hmem).2.2 hdir (hsrc.trans hdst.symm)
    have hboth := (filter_filterMap_both hund' hloop).map
      fun e => (e, if e.src = node then e.dst else e.src)
    rw [List.map_map] at hboth
    refine hboth.trans (List.Perm.of_eq ((List.map_congr_left fun hop hhop => ?_).trans
      (List.map_id _)))
    obtain ⟨e, -, he⟩ := List.mem_filterMap.mp (List.mem_filter.mp hhop).1
    split at he
    · rename_i hlab
      exact (Graph.hop_bidirectional (hlab ▸ hund') he).symm
    · cases he

end Plain

/-! ## The rows of a traversal -/

/-- The rows of the traversal are the last hops of the walks, one row for each walk. -/
def YieldsWalks (ctx : ExecutionContext Φ) (order : TraversalOp Φ → IterOrder) (G : Graph)
    (expr : TraversalExpr Φ) (starts : List String) : Prop :=
  ∃ rows, Returns ctx order (new ctx expr starts).opened rows ∧
    (rows.map some).Perm
      ((allWalks (G.next ctx) (normalizeTarget ctx expr).steps starts).map List.getLast?)

/-- No walk through the steps is lost. -/
structure WalksKept (ctx : ExecutionContext Φ) (G : Graph) (steps : List (TraversalStep Φ))
    (starts : List String) : Prop where
  /-- No step was added for the target. -/
  mode : ∀ step ∈ steps, step.mode = .all
  filters : ctx.FiltersEvaluate G steps
  bounds : ∀ step ∈ steps.dropLast, step.minDepth ≤ step.levels
  /-- Every walk leaves the steps before the last one at their greatest depth, and takes an edge in
  the last step. -/
  full : ∀ counts ∈ choices steps, walksOf (G.next ctx) steps starts counts ≠ [] →
    ∃ k, counts = steps.dropLast.map (·.levels) ++ [k + 1]
  plain : ∀ depth < maxDepth steps, ∀ step, stepAt steps depth = some step →
    ∀ node ∈ nodesAt (G.next ctx) steps starts depth, G.Plain ctx step node
  clean : CleanLevels (G.next ctx) steps starts

section Kept

variable {ctx : ExecutionContext Φ} {G : Graph} {steps : List (TraversalStep Φ)}
  {starts : List String} {depth : Nat}

/-- The walks that are kept, counted level by level. -/
theorem WalksKept.lastHops (h : WalksKept ctx G steps starts) :
    (allWalks (G.next ctx) steps starts).map List.getLast? =
      ((List.range (maxDepth steps)).flatMap (emittedAt (G.next ctx) steps starts)).map some := by
  rcases List.eq_nil_or_concat steps with rfl | ⟨init, lastStep, rfl⟩
  · -- without steps there are no walks
    have hnone : walksOf (G.next ctx) [] starts [] = [] := by
      by_contra hne
      obtain ⟨k, hk⟩ := h.full [] (List.mem_singleton_self _) hne
      simp at hk
    rw [allWalks, choices, List.flatMap_singleton, hnone]
    rfl
  · rw [List.concat_eq_append] at h ⊢
    have hbounds := h.bounds
    have hfull := h.full
    rw [List.dropLast_concat] at hbounds hfull
    have hshift : List.range' (lastStep.stepMinDepth + 1) (lastStep.levels - lastStep.stepMinDepth) =
        (List.range' lastStep.stepMinDepth (lastStep.levels - lastStep.stepMinDepth)).map (1 + ·) := by
      rw [List.map_add_range', Nat.add_comm]
    rw [allWalks, flatMap_choices hbounds hfull, emitted_eq, List.map_flatMap, List.map_flatMap,
      hshift, List.flatMap_map]
    refine List.flatMap_congr fun k hk => ?_
    rw [List.mem_range'_1] at hk
    show (walksOf _ _ _ (init.map (·.levels) ++ [1 + k])).map _ = _
    rw [Nat.add_comm 1 k]
    exact lastHops_full (by omega)

/-- Following and taking reach the same nodes. -/
theorem WalksKept.nodesAt_perm (h : WalksKept ctx G steps starts) (hle : depth ≤ maxDepth steps) :
    (nodesAt (G.follow ctx) steps starts depth).Perm (nodesAt (G.next ctx) steps starts depth) ∧
      (depth < maxDepth steps → (hopsAt (G.follow ctx) steps starts depth).Perm
        (hopsAt (G.next ctx) steps starts depth)) := by
  -- what holds of the nodes of a level holds of their hops
  have hhops : ∀ {d}, d < maxDepth steps →
      (nodesAt (G.follow ctx) steps starts d).Perm (nodesAt (G.next ctx) steps starts d) →
      (hopsAt (G.follow ctx) steps starts d).Perm (hopsAt (G.next ctx) steps starts d) := by
    intro d hd hperm
    obtain ⟨⟨stepIdx, relDepth⟩, hdepth⟩ := Option.isSome_iff_exists.mp
      (depthToStep_isSome.mpr hd)
    obtain ⟨step, hstep, -⟩ := depthToStep_some hdepth
    have hstepAt : stepAt steps d = some step := by
      rw [stepAt, hdepth, Option.bind_some, hstep]
    rw [hopsAt, hopsAt, nextAt_eq hdepth hstep, nextAt_eq hdepth hstep]
    exact (hops_perm hperm).trans (List.Perm.flatMap_left _ fun node hnode =>
      (h.plain d hd step hstepAt node hnode).follow_perm)
  have hnodes : (nodesAt (G.follow ctx) steps starts depth).Perm
      (nodesAt (G.next ctx) steps starts depth) := by
    induction depth with
    | zero => exact List.Perm.refl _
    | succ d ih =>
      rw [nodesAt_succ hle, nodesAt_succ hle]
      exact (hhops hle (ih (Nat.le_of_succ_le hle))).map Prod.snd
  exact ⟨hnodes, fun hlt => hhops hlt hnodes⟩

theorem WalksKept.cleanLevels (h : WalksKept ctx G steps starts) :
    CleanLevels (G.follow ctx) steps starts := by
  intro depth hlt step hstep hlarge node hcount
  have hperm := (h.nodesAt_perm (Nat.le_of_lt hlt)).1
  rw [(hperm.filter step.admits).length_eq] at hlarge
  rw [hperm.count_eq] at hcount
  exact Graph.follow_eq_nil (h.clean depth hlt step hstep hlarge node hcount)

/-- The rows of a traversal in `All` mode correspond to the walks if none is lost. -/
theorem yieldsWalks_of_walksKept (order : TraversalOp Φ → IterOrder) (expr : TraversalExpr Φ)
    (hshows : ctx.Shows G (G.Known starts)) (hbounded : G.Bounded)
    (h : WalksKept ctx G (normalizeTarget ctx expr).steps starts) :
    YieldsWalks ctx order G expr starts := by
  obtain ⟨rows, hreturns, hlike⟩ := returns_all order
    (serves_follow hshows hbounded h.filters) h.mode (fun node hnode => .inl hnode)
  refine ⟨rows, hreturns, ?_⟩
  rw [h.lastHops]
  refine ((hlike.perm h.cleanLevels).trans (List.Perm.flatMap_left _ fun depth hdepth => ?_)).map some
  rw [emittedAt, emittedAt]
  split
  · exact (h.nodesAt_perm (Nat.le_of_lt (List.mem_range.mp hdepth))).2 (List.mem_range.mp hdepth)
  · exact List.Perm.refl _

end Kept

/-- A traversal whose target is no edge label and whose steps are not named after collections is
left as it is. -/
theorem normalizeTarget_eq {ctx : ExecutionContext Φ} {expr : TraversalExpr Φ}
    (htarget : ∀ name, expr.target.collectionName = some name → ctx.collectionExists name = true)
    (hlabels : ∀ step ∈ expr.steps, step.label.any ctx.collectionExists = false) :
    normalizeTarget ctx expr = expr := by
  have hlabel : normalizeLabel ctx expr = expr := by
    unfold normalizeLabel
    split
    · rfl
    · rename_i name hname
      exact if_pos (htarget name hname)
  have hfilters : ∀ newSteps steps : List (TraversalStep Φ),
      (∀ step ∈ steps, step.label.any ctx.collectionExists = false) →
      nodeFilters ctx none newSteps steps = newSteps ++ steps := by
    intro newSteps steps
    induction steps generalizing newSteps with
    | nil => exact fun _ => (List.append_nil _).symm
    | cons step rest ih =>
      intro h
      rw [List.forall_mem_cons] at h
      rw [nodeFilters, if_neg (by simp [h.1]), ih _ h.2]
      simp
  rw [normalizeTarget]
  simp only [hlabel]
  split
  · rw [hfilters [] expr.steps hlabels]
    rfl
  · rfl

/-! ### A path of two steps -/

namespace Roads

def edge (label src dst : String) : Edge := ⟨label ++ ":" ++ src, src, dst, label, 0, none, []⟩

/-- Two edges one after the other. -/
def graph : Graph := ⟨[edge "follows" "u:a" "u:b", edge "likes" "u:b" "p:c"], fun _ => false⟩

def step (label : String) (depth : TraversalDepth) : TraversalStep Empty :=
  ⟨.outgoing, some label, none, depth, .all, none⟩

/-- `->follows ALL ->likes ALL` with a depth for the first step. -/
def expr (depth : TraversalDepth) : TraversalExpr Empty :=
  ⟨[step "follows" depth, step "likes" .single], .edge, none⟩

def order (_ : TraversalOp Empty) : IterOrder := .asKept

theorem normalizeTarget_expr (depth : TraversalDepth) :
    normalizeTarget (graph.context []) (expr depth) = expr depth :=
  normalizeTarget_eq nofun fun step _ => by
    cases step.label with
    | none => rfl
    | some label => rfl

theorem mem_stepAt {depth : Nat} {first : TraversalDepth} {s : TraversalStep Empty}
    (h : stepAt (expr first).steps depth = some s) : s ∈ (expr first).steps := by
  obtain ⟨r, -, hr⟩ := Option.bind_eq_some_iff.mp h
  exact List.mem_of_getElem? hr

theorem walksKept : WalksKept (graph.context []) graph (expr .single).steps ["u:a"] where
  mode s hs := by
    rcases List.mem_cons.mp hs with rfl | hs
    · rfl
    · obtain rfl := List.mem_singleton.mp hs
      rfl
  filters := Graph.filtersEvaluate_context graph [] _
  bounds s hs := by
    obtain rfl := List.mem_singleton.mp hs
    decide
  full counts hcounts _ := ⟨0, List.mem_singleton.mp hcounts⟩
  plain depth _ s hs node _ hop hhop := by
    have hdirected : ∀ s ∈ (expr .single).steps, s.label ≠ none ∧ s.direction = .outgoing := by
      intro s hs
      rcases List.mem_cons.mp hs with rfl | hs
      · exact ⟨nofun, rfl⟩
      · obtain rfl := List.mem_singleton.mp hs
        exact ⟨nofun, rfl⟩
    obtain ⟨hlabel, hdir⟩ := hdirected s (mem_stepAt hs)
    exact ⟨hlabel, fun _ => rfl, fun h => absurd (hdir.symm.trans h) nofun⟩
  clean depth hdepth s _ hlarge := by
    -- no level has 64 nodes
    have hsmall : ∀ d < 2,
        (nodesAt (graph.next (graph.context [])) (expr .single).steps ["u:a"] d).length < 64 := by
      decide +kernel
    exact absurd (hlarge.trans (List.length_filter_le _ _)) (Nat.not_le.mpr (hsmall depth hdepth))

end Roads

/-- One edge in each step: the one walk is yielded. -/
theorem yieldsWalks_single :
    YieldsWalks (Roads.graph.context []) Roads.order Roads.graph (Roads.expr .single) ["u:a"] := by
  refine yieldsWalks_of_walksKept Roads.order (Roads.expr .single)
    (Graph.shows_context _ _ _) (Graph.bounded_of_length (by decide)) ?_
  rw [Roads.normalizeTarget_expr]
  exact Roads.walksKept

/-- The first step may take one edge or two: the walk that takes one is lost. And from a start
node that is there 64 times one row is yielded instead of 64. -/
theorem not_yieldsWalks :
    (∀ side label node, (Roads.graph.seen side label node).length ≤ 1000) ∧
    (∀ first, ∀ step ∈ (Roads.expr first).steps, step.mode = .all) ∧
    ¬YieldsWalks (Roads.graph.context []) Roads.order Roads.graph
      (Roads.expr (.range (some 1) (some 2))) ["u:a"] ∧
    ¬YieldsWalks (Roads.graph.context []) Roads.order Roads.graph (Roads.expr .single)
      (List.replicate 64 "u:a") := by
  -- the number of rows is not that of the walks
  have hcount : ∀ (first : TraversalDepth) (starts : List String) (fuel rows walks : Nat),
      (collect (Roads.graph.context []) Roads.order fuel
        (new (Roads.graph.context []) (Roads.expr first) starts).opened).map
          (·.toOption.map List.length) = some (some rows) →
      (allWalks (Roads.graph.next (Roads.graph.context [])) (Roads.expr first).steps
        starts).length = walks → rows ≠ walks →
      ¬YieldsWalks (Roads.graph.context []) Roads.order Roads.graph (Roads.expr first) starts := by
    rintro first starts fuel rows walks hrows hwalks hne ⟨found, hfound, hperm⟩
    obtain ⟨r, hr, hlen⟩ := Option.map_eq_some_iff.mp hrows
    cases r with
    | error e => cases hlen
    | ok rs =>
      obtain rfl := Returns.unique ⟨fuel, hr⟩ hfound
      have hlength := hperm.length_eq
      rw [List.length_map, List.length_map, Roads.normalizeTarget_expr, hwalks] at hlength
      exact hne ((Option.some.inj hlen).symm.trans hlength)
  refine ⟨Graph.bounded_of_length (by decide), fun first step hstep => ?_,
    hcount _ _ 30 0 1 (by decide +kernel) (by decide +kernel) (by decide),
    hcount _ _ 500 1 64 (by decide +kernel) (by decide +kernel) (by decide)⟩
  rcases List.mem_cons.mp hstep with rfl | hstep
  · rfl
  · obtain rfl := List.mem_singleton.mp hstep
    rfl

end StellarDb
