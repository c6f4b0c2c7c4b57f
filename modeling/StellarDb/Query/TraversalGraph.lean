import StellarDb.Query.TraversalLevels

/-!
# StellarDb — the graph behind a traversal

A graph is a list of stored edges. `Shows` says that the listings of a context show it: an edge of
a directed type at its own end, an edge of an undirected type at both ends, each time as one out of
the node. From such a context a step follows the edges `follow` (`serves_follow`); storage is one
(`shows_storage`).
-/

namespace StellarDb

open Levels

/-! ## Graphs -/

/-- The stored edges, and which labels are of undirected types. -/
structure Graph where
  edges : List Edge
  undirected : String → Bool

namespace Graph

/-- The edge as a listing shows it at a node. -/
def shown (G : Graph) (side : EdgeSide) (node : String) (e : Edge) : Option Edge :=
  if G.undirected e.label then
    if e.src = node then some e else if e.dst = node then some e.reversed else none
  else if side.start e = node then some e else none

/-- The edges of one label that a listing shows at a node. -/
def seen (G : Graph) (side : EdgeSide) (label node : String) : List Edge :=
  G.edges.filterMap fun e => if e.label = label then G.shown side node e else none

/-- The nodes a traversal can come to. -/
def Known (G : Graph) (starts : List String) (node : String) : Prop :=
  node ∈ starts ∨ ∃ e ∈ G.edges, e.src = node ∨ e.dst = node

/-- A node has at most a thousand edges of one label in one direction. -/
def Bounded (G : Graph) : Prop := ∀ side label node, (G.seen side label node).length ≤ 1000

end Graph

namespace ExecutionContext

variable {Φ : Type} (ctx : ExecutionContext Φ)

def listEdges (side : EdgeSide) : String → String → Option String → Nat →
    Except StorageError (List Edge × Option String) :=
  match side with
  | .outgoing => ctx.listEdgesOut
  | .incoming => ctx.listEdgesIn

def batchListEdges (side : EdgeSide) : List String → String → Nat →
    Except StorageError (String → Option (List Edge)) :=
  match side with
  | .outgoing => ctx.batchListEdgesOut
  | .incoming => ctx.batchListEdgesIn

/-- The listings of the context show the graph at the known nodes. -/
structure Shows (G : Graph) (known : String → Prop) : Prop where
  single : ∀ side label node, known node → (G.seen side label node).length ≤ 1000 →
    ∃ edges cursor, ctx.listEdges side node label none 1000 = .ok (edges, cursor) ∧
      edges.Perm (G.seen side label node)
  batch : ∀ side label nodes, (∀ node ∈ nodes, known node) →
    (∀ node ∈ nodes, (G.seen side label node).length ≤ 1000) →
    ∃ found, ctx.batchListEdges side nodes label 1000 = .ok found ∧ ∀ node ∈ nodes,
      ∃ edges, found node = some edges ∧ edges.Perm (G.seen side label node)

/-- The edge filters evaluate on the edges of the graph. -/
def FiltersEvaluate (G : Graph) (steps : List (TraversalStep Φ)) : Prop :=
  ∀ step ∈ steps, ∀ filter, step.edgeFilter = some filter → ∀ e ∈ G.edges,
    (∃ pass, ctx.evalFilter filter e = .ok pass) ∧
      ∃ pass, ctx.evalFilter filter e.reversed = .ok pass

end ExecutionContext

namespace Graph

/-- A context that lists the graph itself, and has these collections. -/
def context (G : Graph) (collections : List String) : ExecutionContext Empty where
  listEdgesOut node label _ _ := .ok (G.seen .outgoing label node, none)
  listEdgesIn node label _ _ := .ok (G.seen .incoming label node, none)
  batchListEdgesOut nodes label _ :=
    .ok fun node => if node ∈ nodes then some (G.seen .outgoing label node) else none
  batchListEdgesIn nodes label _ :=
    .ok fun node => if node ∈ nodes then some (G.seen .incoming label node) else none
  collectionExists name := name ∈ collections
  evalFilter filter _ := filter.elim

theorem shows_context (G : Graph) (collections : List String) (known : String → Prop) :
    (G.context collections).Shows G known where
  single side label node _ _ := by
    cases side with
    | outgoing => exact ⟨_, _, rfl, List.Perm.refl _⟩
    | incoming => exact ⟨_, _, rfl, List.Perm.refl _⟩
  batch side label nodes _ _ := by
    cases side with
    | outgoing => exact ⟨_, rfl, fun node hnode => ⟨_, if_pos hnode, List.Perm.refl _⟩⟩
    | incoming => exact ⟨_, rfl, fun node hnode => ⟨_, if_pos hnode, List.Perm.refl _⟩⟩

theorem filtersEvaluate_context (G : Graph) (collections : List String)
    (steps : List (TraversalStep Empty)) :
    (G.context collections).FiltersEvaluate G steps := fun _ _ filter => filter.elim

/-- A graph of at most a thousand edges. -/
theorem bounded_of_length {G : Graph} (h : G.edges.length ≤ 1000) : G.Bounded :=
  fun _ _ _ => (List.length_filterMap_le _ _).trans h

end Graph

/-! ## What a step follows -/

section Follow

variable {Φ : Type} {ctx : ExecutionContext Φ} {G : Graph} {step : TraversalStep Φ}
  {steps : List (TraversalStep Φ)} {starts : List String} {node : String}

/-- An edge that the filter of a step lets through. -/
def TraversalStep.passes (ctx : ExecutionContext Φ) (step : TraversalStep Φ) (e : Edge) : Bool :=
  match step.edgeFilter with
  | none => true
  | some filter =>
    match ctx.evalFilter filter e with
    | .ok pass => pass
    | .error _ => false

/-- The sides on which a direction lists edges. -/
def TraversalDirection.Lists : TraversalDirection → EdgeSide → Prop
  | .outgoing, .outgoing | .incoming, .incoming | .bidirectional, _ => True
  | _, _ => False

/-- The edges that a step lists. -/
def Graph.listed (G : Graph) (step : TraversalStep Φ) (node : String) : List Edge :=
  match step.direction with
  | .outgoing => G.seen .outgoing (step.label.getD "") node
  | .incoming => G.seen .incoming (step.label.getD "") node
  | .bidirectional =>
    G.seen .outgoing (step.label.getD "") node ++ G.seen .incoming (step.label.getD "") node

/-- The results of a step for a node. -/
def Graph.follow (ctx : ExecutionContext Φ) (G : Graph) (step : TraversalStep Φ) :
    Next String Edge := fun node =>
  if step.admits node then
    ((G.listed step node).filter (step.passes ctx)).map fun e => (e, step.nextNode node e)
  else []

theorem Graph.mem_seen {side : EdgeSide} {label : String} {e : Edge} :
    e ∈ G.seen side label node ↔
      ∃ e' ∈ G.edges, e'.label = label ∧ G.shown side node e' = some e := by
  rw [Graph.seen, List.mem_filterMap]
  refine exists_congr fun e' => and_congr_right fun _ => ?_
  by_cases hlabel : e'.label = label
  · rw [if_pos hlabel, and_iff_right hlabel]
  · rw [if_neg hlabel]
    exact iff_of_false nofun fun h => hlabel h.1

/-- A shown edge is a stored one, from one of its ends. -/
theorem Graph.shown_cases {side : EdgeSide} {e e' : Edge} (h : G.shown side node e' = some e) :
    (e = e' ∧ (e'.src = node ∨ e'.dst = node)) ∨
      (e = e'.reversed ∧ G.undirected e'.label = true ∧ e'.dst = node) := by
  rw [Graph.shown] at h
  split_ifs at h with hund hsrc hdst hstart
  · exact .inl ⟨(Option.some.inj h).symm, .inl hsrc⟩
  · exact .inr ⟨(Option.some.inj h).symm, hund, hdst⟩
  · refine .inl ⟨(Option.some.inj h).symm, ?_⟩
    cases side with
    | outgoing => exact .inl hstart
    | incoming => exact .inr hstart

theorem Graph.mem_listed {e : Edge} (h : e ∈ G.listed step node) :
    ∃ side, step.direction.Lists side ∧ e ∈ G.seen side (step.label.getD "") node := by
  unfold Graph.listed at h
  cases hdir : step.direction with
  | outgoing =>
    rw [hdir] at h
    exact ⟨.outgoing, trivial, h⟩
  | incoming =>
    rw [hdir] at h
    exact ⟨.incoming, trivial, h⟩
  | bidirectional =>
    rw [hdir] at h
    rcases List.mem_append.mp h with h | h
    · exact ⟨.outgoing, trivial, h⟩
    · exact ⟨.incoming, trivial, h⟩

theorem TraversalStep.nextNode_end (step : TraversalStep Φ) (src : String) (e : Edge) :
    step.nextNode src e = e.src ∨ step.nextNode src e = e.dst := by
  unfold TraversalStep.nextNode
  split
  · exact .inr rfl
  · exact .inl rfl
  · split
    · exact .inr rfl
    · exact .inl rfl

/-- A step comes from a listed edge to one of its ends. -/
theorem Graph.known_nextNode {e : Edge} (h : e ∈ G.listed step node) :
    G.Known starts (step.nextNode node e) := by
  obtain ⟨side, -, hside⟩ := Graph.mem_listed h
  obtain ⟨e', he', -, hshown⟩ := Graph.mem_seen.mp hside
  have hend := step.nextNode_end node e
  refine .inr ⟨e', he', ?_⟩
  rcases Graph.shown_cases hshown with ⟨rfl, -⟩ | ⟨rfl, -, -⟩
  · exact hend.imp Eq.symm Eq.symm
  · exact hend.symm.imp Eq.symm Eq.symm

theorem neighbours_eq (src : String) {edges : List Edge}
    (h : ∀ filter, step.edgeFilter = some filter →
      ∀ e ∈ edges, ∃ pass, ctx.evalFilter filter e = .ok pass) :
    TraversalOp.neighbours ctx step src edges =
      .ok ((edges.filter (step.passes ctx)).map fun e => (e, step.nextNode src e)) := by
  induction edges with
  | nil => rfl
  | cons e rest ih =>
    have hpasses : TraversalOp.evalEdgeFilter ctx step e = .ok (step.passes ctx e) := by
      unfold TraversalOp.evalEdgeFilter TraversalStep.passes
      cases hfilter : step.edgeFilter with
      | none => rfl
      | some filter =>
        obtain ⟨pass, hpass⟩ := h filter hfilter e List.mem_cons_self
        simp only [hpass]
    rw [TraversalOp.neighbours, hpasses,
      ih fun filter hfilter e' he' => h filter hfilter e' (List.mem_cons_of_mem _ he')]
    cases hpass : step.passes ctx e with
    | true =>
      rw [List.filter_cons_of_pos hpass, List.map_cons]
      rfl
    | false =>
      rw [List.filter_cons_of_neg (by simp [hpass])]
      rfl

/-- The filters evaluate on what is listed. -/
theorem ExecutionContext.FiltersEvaluate.listed (h : ctx.FiltersEvaluate G steps)
    (hstep : step ∈ steps) {edges : List Edge} (hedges : edges.Perm (G.listed step node)) :
    ∀ filter, step.edgeFilter = some filter →
      ∀ e ∈ edges, ∃ pass, ctx.evalFilter filter e = .ok pass := by
  intro filter hfilter e he
  obtain ⟨side, -, hside⟩ := Graph.mem_listed (hedges.mem_iff.mp he)
  obtain ⟨e', he', -, hshown⟩ := Graph.mem_seen.mp hside
  rcases Graph.shown_cases hshown with ⟨rfl, -⟩ | ⟨rfl, -, -⟩
  · exact (h step hstep filter hfilter e he').1
  · exact (h step hstep filter hfilter e' he').2

/-- One listing after the other is what the step lists. -/
theorem listEdges_eq (step : TraversalStep Φ) {known : String → Prop} (hshows : ctx.Shows G known) (hbounded : G.Bounded)
    (hnode : known node) :
    ∃ edges, TraversalOp.listEdges ctx step node = .ok edges ∧
      edges.Perm (G.listed step node) := by
  obtain ⟨outs, cursor, hout, houts⟩ :=
    hshows.single .outgoing (step.label.getD "") node hnode (hbounded _ _ _)
  obtain ⟨ins, cursor', hin, hins⟩ :=
    hshows.single .incoming (step.label.getD "") node hnode (hbounded _ _ _)
  have hout' : ctx.listEdgesOut node (step.label.getD "") none 1000 = .ok (outs, cursor) := hout
  have hin' : ctx.listEdgesIn node (step.label.getD "") none 1000 = .ok (ins, cursor') := hin
  unfold TraversalOp.listEdges Graph.listed
  cases step.direction with
  | outgoing => exact ⟨outs, by simp only [hout']; rfl, houts⟩
  | incoming => exact ⟨ins, by simp only [hin']; rfl, hins⟩
  | bidirectional => exact ⟨outs ++ ins, by simp only [hout', hin'], houts.append hins⟩

theorem edgesMap_eq (step : TraversalStep Φ) {known : String → Prop} (hshows : ctx.Shows G known) (hbounded : G.Bounded)
    {nodes : List String} (hnodes : ∀ node ∈ nodes, known node) :
    ∃ edges, TraversalOp.edgesMap ctx step nodes = .ok edges ∧
      ∀ node ∈ nodes, (edges node).Perm (G.listed step node) := by
  obtain ⟨outs, hout, houts⟩ := hshows.batch .outgoing (step.label.getD "") nodes hnodes
    fun _ _ => hbounded _ _ _
  obtain ⟨ins, hin, hins⟩ := hshows.batch .incoming (step.label.getD "") nodes hnodes
    fun _ _ => hbounded _ _ _
  have hout' : ctx.batchListEdgesOut nodes (step.label.getD "") defaultEdgeLimit = .ok outs := hout
  have hin' : ctx.batchListEdgesIn nodes (step.label.getD "") defaultEdgeLimit = .ok ins := hin
  have houts' : ∀ node ∈ nodes, ((outs node).getD []).Perm
      (G.seen .outgoing (step.label.getD "") node) := by
    intro node hnode
    obtain ⟨edges, hedges, hperm⟩ := houts node hnode
    rwa [hedges]
  have hins' : ∀ node ∈ nodes, ((ins node).getD []).Perm
      (G.seen .incoming (step.label.getD "") node) := by
    intro node hnode
    obtain ⟨edges, hedges, hperm⟩ := hins node hnode
    rwa [hedges]
  unfold TraversalOp.edgesMap Graph.listed
  cases step.direction with
  | outgoing => exact ⟨_, by simp only [hout']; rfl, houts'⟩
  | incoming => exact ⟨_, by simp only [hin']; rfl, hins'⟩
  | bidirectional =>
    exact ⟨_, by simp only [hout', hin'], fun node hnode =>
      (houts' node hnode).append (hins' node hnode)⟩

/-- A context that shows the graph serves the steps with what they follow. -/
theorem serves_follow (hshows : ctx.Shows G (G.Known starts)) (hbounded : G.Bounded)
    (hfilters : ctx.FiltersEvaluate G steps) :
    ∀ step ∈ steps, TraversalOp.Serves ctx (G.follow ctx) (G.Known starts) step := by
  intro step hstep
  refine ⟨fun node hnode => ?_, fun nodes hnodes => ?_, fun node _ hop hhop => ?_,
    fun node hadmits => ?_⟩
  · unfold TraversalOp.traverseStep Graph.follow
    split
    · obtain ⟨edges, hedges, hperm⟩ := listEdges_eq step hshows hbounded hnode
      refine ⟨_, ?_, (hperm.filter (step.passes ctx)).map _⟩
      rw [hedges]
      exact neighbours_eq node (hfilters.listed hstep hperm)
    · exact ⟨[], rfl, List.Perm.refl _⟩
  · obtain ⟨edges, hedges, hperm⟩ := edgesMap_eq step hshows hbounded hnodes
    refine ⟨edges, hedges, fun node hnode => ?_⟩
    unfold Graph.follow
    split
    · exact ⟨_, neighbours_eq node (hfilters.listed hstep (hperm node hnode)),
        ((hperm node hnode).filter _).map _⟩
    · exact ⟨[], rfl, List.Perm.refl _⟩
  · unfold Graph.follow at hhop
    split at hhop
    · obtain ⟨e, he, rfl⟩ := List.mem_map.mp hhop
      exact Graph.known_nextNode (List.mem_filter.mp he).1
    · cases hhop
  · rw [Graph.follow, hadmits]
    rfl

end Follow

/-! ## Storage -/

section Storage

variable {Φ : Type} {s : EdgeStore} {G : Graph} {side : EdgeSide} {label node : String}

/-- The context of a statement outside a transaction. -/
def EdgeStore.context (s : EdgeStore) (collectionExists : String → Bool)
    (evalFilter : Φ → Edge → Except ExecuteError Bool) : ExecutionContext Φ where
  listEdgesOut := s.listOut
  listEdgesIn := s.listIn
  batchListEdgesOut nodes label limit := EdgeStore.listBatch (s.listOut · label none limit) nodes
  batchListEdgesIn nodes label limit := EdgeStore.listBatch (s.listIn · label none limit) nodes
  collectionExists
  evalFilter

/-- The store has the edges of the graph, each with an id of its own. -/
structure EdgeStore.Stores (s : EdgeStore) (G : Graph) : Prop where
  ids : (G.edges.map Edge.id).Nodup
  edges : ∀ label, ∃ schema E I, s.HasSchema label schema ∧
    Shape schema (s.keyspaces label) E I ∧ G.undirected label = schema.isUndirected ∧
    ∀ e, e ∈ G.edges ∧ e.label = label ↔ ∃ x ∈ E, x.toEdge label = e

theorem Graph.id_of_shown {e e' : Edge} (h : G.shown side node e' = some e) : e.id = e'.id := by
  rcases Graph.shown_cases h with ⟨rfl, -⟩ | ⟨rfl, -, -⟩
  · rfl
  · rfl

/-- A listing does not show an id twice. -/
theorem Graph.nodup_seen (h : (G.edges.map Edge.id).Nodup) :
    ((G.seen side label node).map Edge.id).Nodup := by
  refine h.sublist ?_
  unfold Graph.seen
  induction G.edges with
  | nil => exact List.Sublist.refl _
  | cons e rest ih =>
    rw [List.filterMap_cons]
    split
    · exact ih.cons e.id
    · rename_i e' he'
      have hid : e'.id = e.id := by
        split at he'
        · exact Graph.id_of_shown he'
        · cases he'
      rw [List.map_cons, List.map_cons, hid]
      exact ih.cons_cons e.id

/-- What a listing of the store sees is what it shows of the graph. -/
theorem mem_seen_iff {schema : EdgeSchema} {E : Set StoredEdge}
    (hund : G.undirected label = schema.isUndirected)
    (hmem : ∀ e, e ∈ G.edges ∧ e.label = label ↔ ∃ x ∈ E, x.toEdge label = e) (e : Edge) :
    e ∈ side.seen schema node (StoredEdge.toEdge label '' E) ↔ e ∈ G.seen side label node := by
  have himage : ∀ v, v ∈ StoredEdge.toEdge label '' E ↔ v ∈ G.edges ∧ v.label = label :=
    fun v => (hmem v).symm
  rw [Graph.mem_seen, EdgeSide.seen]
  by_cases hu : schema.isUndirected = true
  · rw [if_pos hu]
    show (∃ v ∈ StoredEdge.toEdge label '' E, v.src = node ∧ e = v ∨ v.dst = node ∧ e = v.reversed) ↔
      _
    constructor
    · rintro ⟨v, hv, hends⟩
      obtain ⟨hedge, rfl⟩ := (himage v).mp hv
      refine ⟨v, hedge, rfl, ?_⟩
      rw [Graph.shown, if_pos (hund.trans hu)]
      rcases hends with ⟨hsrc, rfl⟩ | ⟨hdst, rfl⟩
      · rw [if_pos hsrc]
      · by_cases hsrc : v.src = node
        · -- a self-loop is its own reverse
          rw [if_pos hsrc]
          have hloop : v.reversed = v := by
            cases v
            simp only [Edge.reversed] at hsrc hdst ⊢
            rw [hsrc, hdst]
          rw [hloop]
        · rw [if_neg hsrc, if_pos hdst]
    · rintro ⟨v, hedge, hlabel, hshown⟩
      refine ⟨v, (himage v).mpr ⟨hedge, hlabel⟩, ?_⟩
      subst hlabel
      rw [Graph.shown, if_pos (hund.trans hu)] at hshown
      split_ifs at hshown with hsrc hdst
      · exact .inl ⟨hsrc, (Option.some.inj hshown).symm⟩
      · exact .inr ⟨hdst, (Option.some.inj hshown).symm⟩
  · rw [if_neg hu]
    show (e ∈ StoredEdge.toEdge label '' E ∧ side.start e = node) ↔ _
    rw [himage]
    constructor
    · rintro ⟨⟨hedge, rfl⟩, hstart⟩
      refine ⟨e, hedge, rfl, ?_⟩
      rw [Graph.shown, if_neg (hund ▸ hu), if_pos hstart]
    · rintro ⟨v, hedge, rfl, hshown⟩
      rw [Graph.shown, if_neg (hund ▸ hu)] at hshown
      split_ifs at hshown with hstart
      obtain rfl := Option.some.inj hshown
      exact ⟨⟨hedge, rfl⟩, hstart⟩

/-- The first page of a listing has all edges of the node. -/
theorem listStored_first (h : s.Stores G) (hnode : NulFree node)
    (hlength : (G.seen side label node).length ≤ 1000) :
    ∃ edges cursor, side.listStored s node label none 1000 = .ok (edges, cursor) ∧
      edges.Perm (G.seen side label node) := by
  obtain ⟨schema, E, I, hschema, hshape, hund, hmem⟩ := h.edges label
  obtain ⟨all, hall⟩ := listStored_all side hschema hshape hnode
  have hperm : all.Perm (G.seen side label node) := by
    refine (List.perm_ext_iff_of_nodup hall.nodup (Graph.nodup_seen h.ids).of_map).mpr fun e => ?_
    rw [hall.mem, mem_seen_iff hund hmem]
  obtain ⟨cursor, hfirst⟩ := hall.first 1000
  refine ⟨all, cursor, ?_, hperm⟩
  have hclamp : EdgeStore.clampLimit 1000 = 1000 := rfl
  rw [hfirst, hclamp, List.take_of_length_le (hperm.length_eq.trans_le hlength)]

/-- The listings of storage show its graph. -/
theorem shows_storage (h : s.Stores G) {known : String → Prop}
    (hknown : ∀ node, known node → NulFree node) (collectionExists : String → Bool)
    (evalFilter : Φ → Edge → Except ExecuteError Bool) :
    (s.context collectionExists evalFilter).Shows G known where
  single side label node hnode hlength := by
    cases side with
    | outgoing => exact listStored_first h (hknown node hnode) hlength
    | incoming => exact listStored_first h (hknown node hnode) hlength
  batch side label nodes hnodes hlength := by
    have hfirst : ∀ node, ∃ edges, node ∈ nodes →
        (∃ cursor, side.listStored s node label none 1000 = .ok (edges, cursor)) ∧
          edges.Perm (G.seen side label node) := by
      intro node
      by_cases hnode : node ∈ nodes
      · obtain ⟨edges, cursor, hlist, hperm⟩ :=
          listStored_first h (hknown node (hnodes node hnode)) (hlength node hnode)
        exact ⟨edges, fun _ => ⟨⟨cursor, hlist⟩, hperm⟩⟩
      · exact ⟨[], fun hmem => absurd hmem hnode⟩
    choose first hfirst using hfirst
    have hbatch := listBatch_eq nodes fun node hnode => (hfirst node hnode).1
    refine ⟨fun n => if n ∈ nodes then some (first n) else none, ?_,
      fun node hnode => ⟨first node, if_pos hnode, (hfirst node hnode).2⟩⟩
    cases side with
    | outgoing => exact hbatch
    | incoming => exact hbatch

end Storage

/-! ## One acquaintance -/

namespace Acquaintance

def stored : StoredEdge := ⟨"u:a", "u:b", "1", 0, 0, []⟩

def store : EdgeStore where
  schemas := [("knows", .new "knows")]
  keyspaces label :=
    if label = "knows" then
      Keyspaces.Keyspace.applyWrites ∅ (insertEdgeKeys (.new "knows") "u:a" "u:b" stored.data)
    else ∅

def graph : Graph := ⟨[stored.toEdge "knows"], fun _ => false⟩

theorem stores : store.Stores graph where
  ids := List.nodup_singleton _
  edges label := by
    by_cases hlabel : label = "knows"
    · subst hlabel
      have hclean : Clean (.new "knows") stored.name :=
        ⟨by decide, by decide, by decide, rfl⟩
      refine ⟨.new "knows", _, _, Or.inl rfl, Shape.empty.create hclean rfl, rfl, fun e => ?_⟩
      simp only [graph, List.mem_singleton, Set.mem_insert_iff]
      constructor
      · rintro ⟨rfl, -⟩
        exact ⟨stored, Or.inl rfl, rfl⟩
      · rintro ⟨x, rfl | hold, rfl⟩
        · exact ⟨rfl, rfl⟩
        · cases hold.1
    · refine ⟨.new label, ∅, ∅, Or.inr ⟨?_, rfl, if_neg hlabel⟩, ?_, rfl, fun e => ?_⟩
      · simp [EdgeStore.getSchema, store, hlabel]
      · show Shape _ (if label = "knows" then _ else _) _ _
        rw [if_neg hlabel]
        exact Shape.empty
      · refine iff_of_false (fun h => ?_) ?_
        · rw [List.mem_singleton.mp h.1] at h
          exact hlabel h.2.symm
        · rintro ⟨_, hx, _⟩
          exact hx

theorem shown : (store.context (Φ := Empty) (fun _ => true) fun filter => filter.elim).Shows graph
    (· ∈ ["u:a", "u:b"]) := by
  refine shows_storage stores (fun node hnode => ?_) _ _
  rcases List.mem_pair.mp hnode with rfl | rfl <;> decide

end Acquaintance

end StellarDb
