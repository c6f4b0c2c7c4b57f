import StellarDb.Transaction.Documents
import StellarDb.Edges.Listing

/-!
# StellarDb — a transaction reads its own edge writes

A listing of a transaction takes a page of stored edges, takes out those with a pending delete
and adds the pending inserts at the node, unless an edge with the same endpoints is there
already. The cursor it returns is a neighbour, while storage looks its cursor up among edge
ids; so only the first page is good, and the listing must fit on it (`Room`).

What a transaction should show is the stored edges with its calls applied in order
(`edgeOverlay`). On one page it does so exactly if between the endpoints of each pending insert
nothing is stored and the overlay has that edge alone, or the overlay has what is stored
(`Kept`): a pending edge that replaces a stored one, or joins it, is not shown. Pending edges of
undirected types are seen from one of their ends only.
-/

namespace StellarDb

open Keyspaces Paging

/-! ## The two directions -/

namespace EdgeSide

/-- The pending edges at a node. -/
def atNode : EdgeSide → String → String → String × String × String → Bool
  | .outgoing => Transaction.outOf
  | .incoming => Transaction.into

/-- The listing of a transaction. -/
def list (side : EdgeSide) (order : IterOrder) (tx : Transaction) (db : Database)
    (node label : String) (after : Option String) (limit : Nat) :
    Except StorageError (List Edge × Option String) :=
  match side with
  | .outgoing => tx.listEdgesOut order db node label after limit
  | .incoming => tx.listEdgesIn order db node label after limit

/-- The batch listing of a transaction. -/
def batchList (side : EdgeSide) (order : IterOrder) (tx : Transaction) (db : Database)
    (nodes : List String) (label : String) (limit : Nat) :
    Except StorageError (String → Option (List Edge)) :=
  match side with
  | .outgoing => tx.batchListEdgesOut order db nodes label limit
  | .incoming => tx.batchListEdgesIn order db nodes label limit

end EdgeSide

/-! ## Calls and the overlay -/

/-- An edge call of a transaction. -/
inductive EdgeTxOp where
  | create (edge : Edge)
  | delete (src label dst : String)

namespace EdgeTxOp

def ends : EdgeTxOp → String × String × String
  | .create edge => edge.ends
  | .delete src label dst => (src, label, dst)

def pending : EdgeTxOp → PendingWrite Edge
  | .create edge => .insert edge
  | .delete _ _ _ => .delete

def exec (tx : Transaction) : EdgeTxOp → Except TransactionError Transaction
  | .create edge => tx.createEdge edge
  | .delete src label dst => tx.deleteEdge src label dst

/-- The calls of one transaction, from its beginning. -/
def run (ops : List EdgeTxOp) : Except TransactionError Transaction := ops.foldlM exec .new

/-- The last call on a triple. -/
def lastOn (ops : List EdgeTxOp) (ends : String × String × String) : Option EdgeTxOp :=
  ops.reverse.find? (·.ends = ends)

/-- The buffer holds the last call on each triple. -/
structure Buffered (ops : List EdgeTxOp) (tx : Transaction) : Prop where
  active : tx.state = .active
  lookup : ∀ ends, tx.pendingEdges.lookup ends = (lastOn ops ends).map pending

theorem exec_active {tx : Transaction} (htx : tx.state = .active) (op : EdgeTxOp) :
    ∃ tx', op.exec tx = .ok tx' ∧ tx'.state = .active ∧
      ∀ ends, tx'.pendingEdges.lookup ends =
        if op.ends = ends then some op.pending else tx.pendingEdges.lookup ends := by
  have hensure : tx.ensureActive = .ok () := by
    unfold Transaction.ensureActive
    rw [htx]
    rfl
  have hlookup : ∀ (key ends : String × String × String) (w : PendingWrite Edge),
      (tx.pendingEdges.insert key w).lookup ends =
        if key = ends then some w else tx.pendingEdges.lookup ends := by
    intro key ends w
    split
    · next hk => rw [← hk, AList.lookup_insert]
    · next hk => exact AList.lookup_insert_ne (Ne.symm hk)
  cases op with
  | create edge =>
    have hexec : (EdgeTxOp.create edge).exec tx = .ok (tx.pendEdge edge.ends (.insert edge)
        (by intro e he; cases he; rfl)) := by
      rw [exec, Transaction.createEdge, hensure]
      rfl
    exact ⟨_, hexec, htx, fun ends => hlookup _ _ _⟩
  | delete src label dst =>
    have hexec : (EdgeTxOp.delete src label dst).exec tx = .ok (tx.pendEdge (src, label, dst)
        .delete (by intro e he; cases he)) := by
      rw [exec, Transaction.deleteEdge, hensure]
      rfl
    exact ⟨_, hexec, htx, fun ends => hlookup _ _ _⟩

theorem lastOn_snoc (ops : List EdgeTxOp) (op : EdgeTxOp) (ends : String × String × String) :
    lastOn (ops ++ [op]) ends = if op.ends = ends then some op else lastOn ops ends := by
  unfold lastOn
  rw [List.reverse_append, List.reverse_singleton, List.singleton_append, List.find?_cons]
  by_cases hk : op.ends = ends
  · simp [hk]
  · simp [hk]

theorem run_ok (ops : List EdgeTxOp) : ∃ tx, run ops = .ok tx ∧ Buffered ops tx := by
  induction ops using List.reverseRecOn with
  | nil => exact ⟨.new, rfl, rfl, fun ends => AList.lookup_empty ends⟩
  | append_singleton ops op ih =>
    obtain ⟨tx, hrun, hbuf⟩ := ih
    obtain ⟨tx', hexec, hactive, hlookup⟩ := exec_active hbuf.active op
    refine ⟨tx', ?_, hactive, ?_⟩
    · unfold run at hrun ⊢
      rw [List.foldlM_append, hrun]
      show (exec tx op >>= pure) = .ok tx'
      rw [bind_pure, hexec]
    · intro ends
      rw [hlookup, hbuf.lookup, lastOn_snoc]
      split <;> rfl

end EdgeTxOp

/-- The pairs of endpoints are the same for the type. -/
def SamePair (schema : EdgeSchema) (a b c d : String) : Prop :=
  normalize schema a b = normalize schema c d

/-- A call applied to the edges of one label. Of a `Single` type a new edge replaces the one
between the same nodes, of a `Multiple` type the one with its id. -/
def applyEdgeOp (schema : EdgeSchema) (label : String) (V : Set Edge) : EdgeTxOp → Set Edge
  | .create edge =>
    if edge.label = label then
      insert edge {v | v ∈ V ∧ ¬ (SamePair schema v.src v.dst edge.src edge.dst ∧
        (schema.cardinality = .single ∨ v.nanoid = edge.nanoid))}
    else V
  | .delete src l dst =>
    if l = label then {v | v ∈ V ∧ ¬ SamePair schema v.src v.dst src dst} else V

/-- The stored edges of a label with the calls applied in order. -/
def edgeOverlay (schema : EdgeSchema) (label : String) (E : Set StoredEdge)
    (ops : List EdgeTxOp) : Set Edge :=
  ops.foldl (applyEdgeOp schema label) (StoredEdge.toEdge label '' E)

/-- The edges from one node to another. -/
def between (a b : String) (V : Set Edge) : Set Edge := {v | v ∈ V ∧ v.src = a ∧ v.dst = b}

/-- Between the endpoints of a pending insert nothing is stored and the overlay has that edge
alone, or the overlay has what is stored. -/
def Kept (schema : EdgeSchema) (label : String) (E : Set StoredEdge) (ops : List EdgeTxOp)
    (p : Edge) : Prop :=
  let stored := between p.src p.dst (StoredEdge.toEdge label '' E)
  let now := between p.src p.dst (edgeOverlay schema label E ops)
  (stored = ∅ ∧ now = {p}) ∨ (stored.Nonempty ∧ now = stored)

section Overlay

variable {schema : EdgeSchema} {label : String} {E : Set StoredEdge}

theorem edgeOverlay_snoc (ops : List EdgeTxOp) (op : EdgeTxOp) :
    edgeOverlay schema label E (ops ++ [op]) =
      applyEdgeOp schema label (edgeOverlay schema label E ops) op := by
  unfold edgeOverlay
  rw [List.foldl_append]
  rfl

theorem stored_label : ∀ v ∈ StoredEdge.toEdge label '' E, v.label = label := by
  rintro v ⟨x, -, rfl⟩
  rfl

theorem edgeOverlay_label (ops : List EdgeTxOp) :
    ∀ v ∈ edgeOverlay schema label E ops, v.label = label := by
  induction ops using List.reverseRecOn with
  | nil => exact stored_label
  | append_singleton ops op ih =>
    intro v hv
    rw [edgeOverlay_snoc] at hv
    cases op with
    | create edge =>
      simp only [applyEdgeOp] at hv
      split at hv
      · next hl =>
        rcases hv with rfl | hv
        · exact hl
        · exact ih v hv.1
      · exact ih v hv
    | delete src l dst =>
      simp only [applyEdgeOp] at hv
      split at hv
      · exact ih v hv.1
      · exact ih v hv

theorem samePair_directed (hdir : schema.isUndirected = false) {a b c d : String} :
    SamePair schema a b c d ↔ a = c ∧ b = d := by
  simp [SamePair, normalize, hdir]

theorem ends_of_samePair {a b c d : String} (h : SamePair schema a b c d) :
    (a = c ∧ b = d) ∨ (a = d ∧ b = c) := by
  unfold SamePair normalize at h
  split at h <;> split at h <;> simp only [Prod.mk.injEq] at h
  · exact Or.inl ⟨h.2, h.1⟩
  · exact Or.inr ⟨h.2, h.1⟩
  · exact Or.inr ⟨h.1, h.2⟩
  · exact Or.inl h

/-- A call on another triple leaves the edges between two nodes of a directed type alone. -/
theorem between_applyEdgeOp (hdir : schema.isUndirected = false) {a b : String} {op : EdgeTxOp}
    (hop : op.ends ≠ (a, label, b)) (V : Set Edge) :
    between a b (applyEdgeOp schema label V op) = between a b V := by
  ext v
  refine and_congr_left fun ⟨hsrc, hdst⟩ => ?_
  cases op with
  | create edge =>
    simp only [applyEdgeOp]
    split
    · next hl =>
      have hne : ¬ (a = edge.src ∧ b = edge.dst) := by
        rintro ⟨rfl, rfl⟩
        exact hop (by rw [← hl]; rfl)
      have hv : v ≠ edge := by
        rintro rfl
        exact hne ⟨hsrc.symm, hdst.symm⟩
      have hp : ¬ SamePair schema v.src v.dst edge.src edge.dst := by
        rw [samePair_directed hdir, hsrc, hdst]
        exact hne
      simp [hp, hv]
    · rfl
  | delete src l dst =>
    simp only [applyEdgeOp]
    split
    · next hl =>
      have hne : ¬ (a = src ∧ b = dst) := by
        rintro ⟨rfl, rfl⟩
        exact hop (by rw [← hl]; rfl)
      have hp : ¬ SamePair schema v.src v.dst src dst := by
        rw [samePair_directed hdir, hsrc, hdst]
        exact hne
      simp [hp]
    · rfl

/-- Where no call was made the overlay has what is stored, and where the last one deleted it has
nothing. -/
theorem between_overlay (hdir : schema.isUndirected = false) (ops : List EdgeTxOp)
    (a b : String) :
    (EdgeTxOp.lastOn ops (a, label, b) = none →
      between a b (edgeOverlay schema label E ops) =
        between a b (StoredEdge.toEdge label '' E)) ∧
    ((EdgeTxOp.lastOn ops (a, label, b)).map EdgeTxOp.pending = some .delete →
      between a b (edgeOverlay schema label E ops) = ∅) := by
  induction ops using List.reverseRecOn with
  | nil => exact ⟨fun _ => rfl, fun h => nomatch h⟩
  | append_singleton ops op ih =>
    rw [edgeOverlay_snoc, EdgeTxOp.lastOn_snoc]
    by_cases hop : op.ends = (a, label, b)
    · rw [if_pos hop]
      refine ⟨fun h => (nomatch h), fun h => ?_⟩
      cases op with
      | create edge => cases h
      | delete src l dst =>
        cases hop
        refine Set.eq_empty_of_forall_notMem ?_
        rintro v ⟨hv, hsrc, hdst⟩
        simp only [applyEdgeOp, if_true] at hv
        exact hv.2 (by rw [hsrc, hdst]; rfl)
    · rw [if_neg hop, between_applyEdgeOp hdir hop]
      exact ih

/-- Calls that do not name a node leave its edges alone. -/
theorem mem_overlay_of_no_call {node : String} {ops : List EdgeTxOp}
    (hcalls : ∀ op ∈ ops, op.ends.2.1 = label → op.ends.1 ≠ node ∧ op.ends.2.2 ≠ node)
    {v : Edge} (hv : v.src = node ∨ v.dst = node) :
    v ∈ edgeOverlay schema label E ops ↔ v ∈ StoredEdge.toEdge label '' E := by
  induction ops using List.reverseRecOn with
  | nil => rfl
  | append_singleton ops op ih =>
    rw [edgeOverlay_snoc, ← ih fun op' hop' => hcalls op' (List.mem_append_left _ hop')]
    have hop := hcalls op (List.mem_append_right _ List.mem_cons_self)
    have hpair : ∀ {a b : String}, a ≠ node ∧ b ≠ node → ¬ SamePair schema v.src v.dst a b := by
      rintro a b ⟨ha, hb⟩ hsame
      rcases ends_of_samePair hsame with ⟨h1, h2⟩ | ⟨h1, h2⟩
      · rcases hv with hv | hv
        · exact ha (h1.symm.trans hv)
        · exact hb (h2.symm.trans hv)
      · rcases hv with hv | hv
        · exact hb (h1.symm.trans hv)
        · exact ha (h2.symm.trans hv)
    cases op with
    | create edge =>
      simp only [applyEdgeOp]
      split
      · next hl =>
        have hne := hop hl
        have hvne : v ≠ edge := by
          rintro rfl
          rcases hv with hv | hv
          · exact hne.1 hv
          · exact hne.2 hv
        have hp : ¬ SamePair schema v.src v.dst edge.src edge.dst := hpair hne
        simp [hvne, hp]
      · rfl
    | delete src l dst =>
      simp only [applyEdgeOp]
      split
      · next hl =>
        have hp : ¬ SamePair schema v.src v.dst src dst := hpair (hop hl)
        simp [hp]
      · rfl

end Overlay

/-! ## Merging -/

section Merging

/-- A pending insert that is not there yet. -/
def addable (atNode : String × String × String → Bool) (edges : List Edge) :
    (Σ _ : String × String × String, PendingWrite Edge) → Option Edge
  | ⟨ends, .insert edge⟩ =>
    if atNode ends && !edges.any (fun e => decide (e.ends = edge.ends)) then some edge else none
  | ⟨_, .delete⟩ => none

/-- The loop over the pending edges. -/
theorem foldl_pending {atNode : String × String × String → Bool}
    {entries : List (Σ _ : String × String × String, PendingWrite Edge)}
    (hkeys : (entries.map Sigma.fst).Nodup)
    (hnamed : ∀ entry ∈ entries, ∀ e, entry.2 = .insert e → entry.1 = e.ends)
    (edges : List Edge) :
    entries.foldl (fun edges entry =>
      match entry.2 with
      | .insert edge =>
        if atNode entry.1 && !edges.any (fun e => decide (e.ends = edge.ends)) then edges ++ [edge]
        else edges
      | .delete => edges) edges = edges ++ entries.filterMap (addable atNode edges) := by
  induction entries generalizing edges with
  | nil => simp
  | cons entry entries ih =>
    rw [List.map_cons, List.nodup_cons] at hkeys
    rw [List.forall_mem_cons] at hnamed
    obtain ⟨ends, w⟩ := entry
    rw [List.foldl_cons]
    cases w with
    | delete =>
      rw [List.filterMap_cons_none rfl]
      exact ih hkeys.2 hnamed.2 edges
    | insert edge =>
      by_cases hadd : (atNode ends && !edges.any (fun e => decide (e.ends = edge.ends))) = true
      · have hsome : addable atNode edges ⟨ends, .insert edge⟩ = some edge := if_pos hadd
        rw [List.filterMap_cons_some hsome]
        show List.foldl _ (if _ then edges ++ [edge] else edges) entries = _
        rw [if_pos hadd, ih hkeys.2 hnamed.2]
        -- the edge just added has other endpoints than those behind it
        have hsame : ∀ entry ∈ entries,
            addable atNode (edges ++ [edge]) entry = addable atNode edges entry := by
          rintro ⟨ends', w'⟩ hentry
          cases w' with
          | delete => rfl
          | insert edge' =>
            have hends : edge.ends ≠ edge'.ends := by
              intro heq
              have h1 := hnamed.1 edge rfl
              have h2 := hnamed.2 _ hentry edge' rfl
              refine hkeys.1 (List.mem_map.mpr ⟨_, hentry, ?_⟩)
              show ends' = ends
              rw [show ends' = edge'.ends from h2, ← heq]
              exact h1.symm
            simp [addable, hends]
        rw [List.filterMap_congr hsame]
        simp
      · have hnone : addable atNode edges ⟨ends, .insert edge⟩ = none := if_neg hadd
        rw [List.filterMap_cons_none hnone]
        show List.foldl _ (if _ then edges ++ [edge] else edges) entries = _
        rw [if_neg hadd]
        exact ih hkeys.2 hnamed.2 edges

/-- The stored edges without a pending delete. -/
def kept (tx : Transaction) (edges : List Edge) : List Edge :=
  edges.filter fun e =>
    match tx.pendingEdges.lookup e.ends with
    | some .delete => false
    | _ => true

theorem mem_kept {tx : Transaction} {edges : List Edge} {e : Edge} :
    e ∈ kept tx edges ↔ e ∈ edges ∧ tx.pendingEdges.lookup e.ends ≠ some .delete := by
  unfold kept
  rw [List.mem_filter]
  refine and_congr_right fun _ => ?_
  split
  · next h => simp [h]
  · next h => simpa using h

variable {order : IterOrder} {tx : Transaction} {atNode : String × String × String → Bool}
  {neighbour : Edge → String} {edges : List Edge}

theorem mergeEdges_eq :
    tx.mergeEdges order atNode neighbour edges = (kept tx edges ++
      (order.iter tx.pendingEdges.entries).filterMap (addable atNode (kept tx edges))).mergeSort
        fun a b => (compare (utf8 (neighbour a)) (utf8 (neighbour b))).isLE := by
  have hperm := order.perm tx.pendingEdges.entries
  have hkeys : ((order.iter tx.pendingEdges.entries).map Sigma.fst).Nodup :=
    (hperm.map _).nodup_iff.mpr tx.pendingEdges.nodupKeys
  have hnamed : ∀ entry ∈ order.iter tx.pendingEdges.entries, ∀ e, entry.2 = .insert e →
      entry.1 = e.ends := by
    rintro ⟨ends, w⟩ hentry e rfl
    exact tx.edgesNamed ends e (AList.mem_lookup_iff.mpr (hperm.mem_iff.mp hentry))
  rw [← foldl_pending hkeys hnamed]
  rfl

theorem mergeEdges_perm :
    (tx.mergeEdges order atNode neighbour edges).Perm (kept tx edges ++
      (order.iter tx.pendingEdges.entries).filterMap (addable atNode (kept tx edges))) := by
  rw [mergeEdges_eq]
  exact List.mergeSort_perm _ _

theorem mem_added {e : Edge} :
    e ∈ (order.iter tx.pendingEdges.entries).filterMap (addable atNode (kept tx edges)) ↔
      tx.pendingEdges.lookup e.ends = some (.insert e) ∧ atNode e.ends = true ∧
        ∀ x ∈ edges, x.ends ≠ e.ends := by
  rw [List.mem_filterMap]
  refine ⟨?_, ?_⟩
  · rintro ⟨⟨ends, w⟩, hentry, hadd⟩
    cases w with
    | delete => cases hadd
    | insert edge =>
      simp only [addable] at hadd
      split at hadd
      · next hcond =>
        obtain rfl := Option.some.inj hadd
        have hlookup := AList.mem_lookup_iff.mpr ((order.perm _).mem_iff.mp hentry)
        obtain rfl : ends = edge.ends := tx.edgesNamed ends edge hlookup
        simp only [Bool.and_eq_true, Bool.not_eq_true', List.any_eq_false, decide_eq_true_eq] at hcond
        refine ⟨hlookup, hcond.1, fun x hx heq => ?_⟩
        refine hcond.2 x (mem_kept.mpr ⟨hx, ?_⟩) heq
        rw [heq, hlookup]
        exact fun h => nomatch h
      · cases hadd
  · rintro ⟨hlookup, hat, hnot⟩
    refine ⟨⟨e.ends, .insert e⟩, (order.perm _).mem_iff.mpr (AList.mem_lookup_iff.mp hlookup), ?_⟩
    have hcond : (atNode e.ends && !(kept tx edges).any (fun x => decide (x.ends = e.ends))) = true := by
      simp only [hat, Bool.true_and, Bool.not_eq_true', List.any_eq_false, decide_eq_true_eq]
      exact fun x hx => hnot x (mem_kept.mp hx).1
    exact if_pos hcond

theorem mem_mergeEdges {e : Edge} :
    e ∈ tx.mergeEdges order atNode neighbour edges ↔
      (e ∈ edges ∧ tx.pendingEdges.lookup e.ends ≠ some .delete) ∨
      (tx.pendingEdges.lookup e.ends = some (.insert e) ∧ atNode e.ends = true ∧
        ∀ x ∈ edges, x.ends ≠ e.ends) := by
  rw [mergeEdges_perm.mem_iff, List.mem_append, mem_kept, mem_added]

theorem mergeEdges_nodup (hedges : edges.Nodup) :
    (tx.mergeEdges order atNode neighbour edges).Nodup := by
  refine mergeEdges_perm.nodup_iff.mpr (List.nodup_append'.mpr ⟨hedges.filter _, ?_, ?_⟩)
  · have hnodup : (order.iter tx.pendingEdges.entries).Nodup :=
      (order.perm _).nodup_iff.mpr (List.NodupKeys.nodup tx.pendingEdges.nodupKeys)
    refine List.pairwise_filterMap.mpr (hnodup.imp_of_mem ?_)
    rintro ⟨ends, w⟩ ⟨ends', w'⟩ hentry hentry' hne e he e' he' rfl
    have hinsert : ∀ {ends : String × String × String} {w : PendingWrite Edge},
        addable atNode (kept tx edges) ⟨ends, w⟩ = some e → w = .insert e := by
      intro ends w h
      cases w with
      | delete => cases h
      | insert edge =>
        simp only [addable] at h
        split at h
        · rw [Option.some.inj h]
        · cases h
    obtain rfl := hinsert he
    obtain rfl := hinsert he'
    have h1 := tx.edgesNamed ends e (AList.mem_lookup_iff.mpr ((order.perm _).mem_iff.mp hentry))
    have h2 := tx.edgesNamed ends' e (AList.mem_lookup_iff.mpr ((order.perm _).mem_iff.mp hentry'))
    exact hne (by rw [h1, h2])
  · intro e he he'
    exact (mem_added.mp he').2.2 e (mem_kept.mp he).1 rfl

/-- What is merged stays as it is. -/
theorem mergeEdges_idem :
    tx.mergeEdges order atNode neighbour (tx.mergeEdges order atNode neighbour edges) =
      tx.mergeEdges order atNode neighbour edges := by
  set merged := tx.mergeEdges order atNode neighbour edges with hmerged
  -- nothing in it is deleted, and every pending edge is there
  have hkept : kept tx merged = merged := by
    refine List.filter_eq_self.mpr fun e he => ?_
    have hlookup : tx.pendingEdges.lookup e.ends ≠ some .delete := by
      rcases mem_mergeEdges.mp he with h | h
      · exact h.2
      · rw [h.1]
        exact fun h' => nomatch h'
    exact (List.mem_filter.mp (mem_kept.mpr ⟨he, hlookup⟩)).2
  have hadded : (order.iter tx.pendingEdges.entries).filterMap (addable atNode merged) = [] := by
    refine List.filterMap_eq_nil_iff.mpr ?_
    rintro ⟨ends, w⟩ hentry
    cases w with
    | delete => rfl
    | insert e =>
      have hlookup := AList.mem_lookup_iff.mpr ((order.perm _).mem_iff.mp hentry)
      obtain rfl : ends = e.ends := tx.edgesNamed ends e hlookup
      refine if_neg fun hcond => ?_
      simp only [Bool.and_eq_true, Bool.not_eq_true', List.any_eq_false, decide_eq_true_eq] at hcond
      by_cases hstored : ∃ x ∈ edges, x.ends = e.ends
      · obtain ⟨x, hx, heq⟩ := hstored
        refine hcond.2 x (mem_mergeEdges.mpr (Or.inl ⟨hx, ?_⟩)) heq
        rw [heq, hlookup]
        exact fun h => nomatch h
      · push Not at hstored
        exact hcond.2 e (mem_mergeEdges.mpr (Or.inr ⟨hlookup, hcond.1, hstored⟩)) rfl
  rw [mergeEdges_eq, hkept, hadded, List.append_nil]
  refine List.mergeSort_of_pairwise ?_
  rw [hmerged, mergeEdges_eq]
  exact pairwise_mergeSort_by (fun e => utf8 (neighbour e)) _

end Merging

/-! ## When a transaction reads its own edge writes -/

/-- Both listings of a node yield its edges, each once. -/
structure ReadsOwnEdges (order : IterOrder) (tx : Transaction) (db : Database) (label node : String)
    (limit : Nat) (side : EdgeSide) (seen : Set Edge) : Prop where
  list : ∃ edges, Drains (fun after => side.list order tx db node label after limit) none edges ∧
    edges.Nodup ∧ ∀ e, e ∈ edges ↔ e ∈ seen
  batch : ∀ nodes, node ∈ nodes → (∀ n ∈ nodes, NulFree n) →
    ∃ results edges, side.batchList order tx db nodes label limit = .ok results ∧
      results node = some edges ∧ edges.Nodup ∧ ∀ e, e ∈ edges ↔ e ∈ seen

/-- What a listing makes of the stored edges of a node: those without a pending delete, and the
pending inserts at the node between whose endpoints nothing is stored. -/
def shown (tx : Transaction) (atNode : String × String × String → Bool) (stored : Set Edge) :
    Set Edge :=
  {e | (e ∈ stored ∧ tx.pendingEdges.lookup e.ends ≠ some .delete) ∨
    (tx.pendingEdges.lookup e.ends = some (.insert e) ∧ atNode e.ends = true ∧
      ∀ x ∈ stored, x.ends ≠ e.ends)}

/-- The stored edges of the node fit on one page, of storage too, and so does what is made of
them. -/
structure Room (schema : EdgeSchema) (tx : Transaction) (ks : Keyspace EdgeEntry)
    (E : Set StoredEdge) (label node : String) (limit : Nat) (side : EdgeSide) : Prop where
  page : (shown tx (side.atNode node label)
    (side.seen schema node (StoredEdge.toEdge label '' E))).encard ≤ limit
  stored : (side.entries schema ks node).length ≤ limit
  clamp : (side.entries schema ks node).length ≤ 1000

section Reads

variable {schema : EdgeSchema} {db : Database} {label node : String} {E : Set StoredEdge}
  {I : Set IdEntry} {limit : Nat} {tx : Transaction} {order : IterOrder}

theorem mem_merged_edges (side : EdgeSide) {all : List Edge}
    (hall : ListsAll (side.listStored db.edges node label none)
      (side.entries schema (db.edges.keyspaces label) node).length
      (side.seen schema node (StoredEdge.toEdge label '' E)) all) (e : Edge) :
    e ∈ tx.mergeEdges order (side.atNode node label) side.neighbour all ↔
      e ∈ shown tx (side.atNode node label)
        (side.seen schema node (StoredEdge.toEdge label '' E)) := by
  rw [mem_mergeEdges]
  exact or_congr (and_congr_left fun _ => hall.mem e) (and_congr_right fun _ =>
    and_congr_right fun _ => forall_congr' fun x => imp_congr_left (hall.mem x))

theorem mergeEdges_room (side : EdgeSide) {all : List Edge}
    (hall : ListsAll (side.listStored db.edges node label none)
      (side.entries schema (db.edges.keyspaces label) node).length
      (side.seen schema node (StoredEdge.toEdge label '' E)) all)
    (hroom : Room schema tx (db.edges.keyspaces label) E label node limit side) :
    (tx.mergeEdges order (side.atNode node label) side.neighbour all).length ≤ limit := by
  classical
  have hnodup : (tx.mergeEdges order (side.atNode node label) side.neighbour all).Nodup :=
    mergeEdges_nodup hall.nodup
  have hset : shown tx (side.atNode node label)
      (side.seen schema node (StoredEdge.toEdge label '' E)) =
      (tx.mergeEdges order (side.atNode node label) side.neighbour all).toFinset := by
    ext e
    rw [Finset.mem_coe, List.mem_toFinset, mem_merged_edges side hall]
  have hpage := hroom.page
  rw [hset, Set.encard_coe_eq_coe_finsetCard, List.toFinset_card_of_nodup hnodup] at hpage
  exact_mod_cast hpage

/-- A listing that fits on one page is the merged list. -/
theorem list_room (side : EdgeSide) {all : List Edge}
    (hall : ListsAll (side.listStored db.edges node label none)
      (side.entries schema (db.edges.keyspaces label) node).length
      (side.seen schema node (StoredEdge.toEdge label '' E)) all)
    (hroom : Room schema tx (db.edges.keyspaces label) E label node limit side) :
    Drains (fun after => side.list order tx db node label after limit) none
      (tx.mergeEdges order (side.atNode node label) side.neighbour all) := by
  obtain ⟨cursor, hfirst⟩ := hall.first (limit + Transaction.listBuffer)
  have hstored := hroom.stored
  have hclamp := hroom.clamp
  have hcount := hall.length
  have htake : all.take (EdgeStore.clampLimit (limit + Transaction.listBuffer)) = all := by
    refine List.take_of_length_le ?_
    unfold EdgeStore.clampLimit
    omega
  rw [htake] at hfirst
  have hlen : (tx.mergeEdges order (side.atNode node label) side.neighbour all).length ≤ limit :=
    mergeEdges_room side hall hroom
  refine .last ?_
  cases side with
  | outgoing =>
    show tx.listEdgesOut order db node label none limit = _
    have hlist : db.edges.listOut node label none (limit + Transaction.listBuffer) =
        .ok (all, cursor) := hfirst
    rw [Transaction.listEdgesOut, hlist]
    exact congrArg Except.ok (if_neg (not_lt.mpr hlen))
  | incoming =>
    show tx.listEdgesIn order db node label none limit = _
    have hlist : db.edges.listIn node label none (limit + Transaction.listBuffer) =
        .ok (all, cursor) := hfirst
    rw [Transaction.listEdgesIn, hlist]
    exact congrArg Except.ok (if_neg (not_lt.mpr hlen))

/-- The lists of several nodes hold the first page of each. -/
theorem listBatch_eq {list : String → Except StorageError (List Edge × Option String)}
    {first : String → List Edge} (nodes : List String)
    (hlist : ∀ n ∈ nodes, ∃ cursor, list n = .ok (first n, cursor)) :
    EdgeStore.listBatch list nodes =
      .ok fun n => if n ∈ nodes then some (first n) else none := by
  induction nodes using List.reverseRecOn with
  | nil => rfl
  | append_singleton nodes node ih =>
    have hinit := ih fun n hn => hlist n (List.mem_append_left _ hn)
    obtain ⟨cursor, hnode⟩ := hlist node (List.mem_append_right _ List.mem_cons_self)
    unfold EdgeStore.listBatch at hinit ⊢
    rw [List.foldlM_append, hinit]
    show ((list node).map _ >>= pure) = _
    rw [hnode, bind_pure]
    refine congrArg Except.ok (funext fun n => ?_)
    by_cases hn : n = node
    · subst hn
      simp
    · simp [hn]

/-- A node's list is merged at its first visit; later visits find nothing to do. -/
theorem mergeBatch_eq {atNode : String → String × String × String → Bool}
    {neighbour : Edge → String} {results : String → Option (List Edge)} {all : List Edge}
    (nodes : List String) (hmem : node ∈ nodes) (hstart : (results node).getD [] = all)
    (hlen : (tx.mergeEdges order (atNode node) neighbour all).length ≤ limit) :
    tx.mergeBatch order atNode neighbour limit nodes results node =
      some (tx.mergeEdges order (atNode node) neighbour all) := by
  unfold Transaction.mergeBatch
  have hvisit : ∀ l : List Edge, tx.mergeEdges order (atNode node) neighbour l =
      tx.mergeEdges order (atNode node) neighbour all →
      (tx.mergeEdges order (atNode node) neighbour l).take limit =
        tx.mergeEdges order (atNode node) neighbour all := by
    intro l hl
    rw [hl]
    exact List.take_of_length_le hlen
  -- what a visit finds merges to the same list, whether it is the first or not
  have hfold : ∀ (nodes : List String) (results : String → Option (List Edge)),
      tx.mergeEdges order (atNode node) neighbour ((results node).getD []) =
        tx.mergeEdges order (atNode node) neighbour all →
      (node ∈ nodes ∨ results node = some (tx.mergeEdges order (atNode node) neighbour all)) →
      nodes.foldl (fun results node => Function.update results node
        (some ((tx.mergeEdges order (atNode node) neighbour ((results node).getD [])).take limit)))
        results node = some (tx.mergeEdges order (atNode node) neighbour all) := by
    intro nodes
    induction nodes with
    | nil =>
      intro results _ hor
      exact hor.resolve_left (List.not_mem_nil)
    | cons n nodes ih =>
      intro results hsame hor
      rw [List.foldl_cons]
      by_cases hn : n = node
      · subst hn
        refine ih _ ?_ (Or.inr ?_)
        · rw [Function.update_self, Option.getD_some, hvisit _ hsame]
          exact mergeEdges_idem
        · rw [Function.update_self, hvisit _ hsame]
      · refine ih _ ?_ ?_
        · rw [Function.update_of_ne (Ne.symm hn)]
          exact hsame
        · rw [Function.update_of_ne (Ne.symm hn)]
          exact hor.imp_left fun h => (List.mem_cons.mp h).resolve_left (Ne.symm hn)
  exact hfold nodes results (by rw [hstart]) (Or.inl hmem)

/-- A batch listing with room for a node has its merged list. -/
theorem batchList_room (side : EdgeSide) (hschema : db.edges.HasSchema label schema)
    (hshape : Shape schema (db.edges.keyspaces label) E I) {all : List Edge}
    (hall : ListsAll (side.listStored db.edges node label none)
      (side.entries schema (db.edges.keyspaces label) node).length
      (side.seen schema node (StoredEdge.toEdge label '' E)) all)
    (hroom : Room schema tx (db.edges.keyspaces label) E label node limit side)
    {nodes : List String} (hmem : node ∈ nodes) (hnodes : ∀ n ∈ nodes, NulFree n) :
    ∃ results, side.batchList order tx db nodes label limit = .ok results ∧
      results node = some (tx.mergeEdges order (side.atNode node label) side.neighbour all) := by
  have hlists : ∀ n, ∃ l, n ∈ nodes →
      ∃ cursor, side.listStored db.edges n label none limit = .ok (l, cursor) := by
    intro n
    by_cases hn : n ∈ nodes
    · obtain ⟨all', hall'⟩ := listStored_all side hschema hshape (hnodes n hn)
      exact ⟨_, fun _ => hall'.first limit⟩
    · exact ⟨[], fun h => absurd h hn⟩
  choose first hfirst using hlists
  have hbatch := listBatch_eq nodes hfirst
  have hstored := hroom.stored
  have hclamp := hroom.clamp
  have hcount := hall.length
  have htake : all.take (EdgeStore.clampLimit limit) = all := by
    refine List.take_of_length_le ?_
    unfold EdgeStore.clampLimit
    omega
  have hhere : first node = all := by
    obtain ⟨cursor, h⟩ := hfirst node hmem
    obtain ⟨cursor', h'⟩ := hall.first limit
    rw [h', htake] at h
    exact (congrArg Prod.fst (Except.ok.inj h)).symm
  have hlen : (tx.mergeEdges order (side.atNode node label) side.neighbour all).length ≤ limit :=
    mergeEdges_room side hall hroom
  have hstart : ((if node ∈ nodes then some (first node) else none).getD []) = all := by
    rw [if_pos hmem, hhere]
    rfl
  cases side with
  | outgoing =>
    refine ⟨_, congrArg (Except.map _) hbatch, ?_⟩
    exact mergeBatch_eq nodes hmem hstart hlen
  | incoming =>
    refine ⟨_, congrArg (Except.map _) hbatch, ?_⟩
    exact mergeBatch_eq nodes hmem hstart hlen

theorem atNode_ends (side : EdgeSide) (e : Edge) :
    side.atNode node label e.ends = true ↔ side.start e = node ∧ e.label = label := by
  cases side with
  | outgoing =>
    show Transaction.outOf node label e.ends = true ↔ _
    rw [Transaction.outOf, Bool.and_eq_true, decide_eq_true_iff, decide_eq_true_iff]
    rfl
  | incoming =>
    show Transaction.into node label e.ends = true ↔ _
    rw [Transaction.into, Bool.and_eq_true, decide_eq_true_iff, decide_eq_true_iff]
    rfl

theorem mem_seen_directed (side : EdgeSide) (hdir : schema.isUndirected = false) {V : Set Edge}
    {e : Edge} : e ∈ side.seen schema node V ↔ e ∈ V ∧ side.start e = node := by
  rw [EdgeSide.seen, if_neg (by simp [hdir])]
  rfl

theorem start_congr (side : EdgeSide) {v p : Edge} (hsrc : v.src = p.src) (hdst : v.dst = p.dst) :
    side.start v = side.start p := by
  cases side with
  | outgoing => exact hsrc
  | incoming => exact hdst

/-- Between the endpoints of a pending insert a listing shows what is stored, or, if that is
nothing, the pending edge. -/
theorem between_shown (side : EdgeSide) (hdir : schema.isUndirected = false) {p : Edge}
    (hp : tx.pendingEdges.lookup p.ends = some (.insert p)) (hlabel : p.label = label)
    (hstart : side.start p = node) {v : Edge} :
    v ∈ between p.src p.dst (shown tx (side.atNode node label)
      (side.seen schema node (StoredEdge.toEdge label '' E))) ↔
      v ∈ between p.src p.dst (StoredEdge.toEdge label '' E) ∨
        (v = p ∧ between p.src p.dst (StoredEdge.toEdge label '' E) = ∅) := by
  have hlabelled : ∀ x ∈ StoredEdge.toEdge label '' E, x.label = label :=
    stored_label
  have hends : ∀ {x : Edge}, x.src = p.src → x.dst = p.dst → x.label = label → x.ends = p.ends := by
    intro x hs hd hl
    unfold Edge.ends
    rw [hs, hd, hl, hlabel]
  refine ⟨?_, ?_⟩
  · rintro ⟨hv | ⟨hv, hat, hnone⟩, hsrc, hdst⟩
    · exact Or.inl ⟨((mem_seen_directed side hdir).mp hv.1).1, hsrc, hdst⟩
    · have hvl := ((atNode_ends side v).mp hat).2
      rw [hends hsrc hdst hvl, hp] at hv
      obtain rfl : p = v := PendingWrite.insert.inj (Option.some.inj hv)
      refine Or.inr ⟨rfl, Set.eq_empty_of_forall_notMem fun x ⟨hx, hs, hd⟩ => ?_⟩
      refine hnone x ((mem_seen_directed side hdir).mpr ⟨hx, ?_⟩) (hends hs hd (hlabelled x hx))
      rw [start_congr side hs hd, hstart]
  · rintro (⟨hv, hsrc, hdst⟩ | ⟨rfl, hempty⟩)
    · refine ⟨Or.inl ⟨(mem_seen_directed side hdir).mpr ⟨hv, ?_⟩, ?_⟩, hsrc, hdst⟩
      · rw [start_congr side hsrc hdst, hstart]
      · rw [hends hsrc hdst (hlabelled v hv), hp]
        exact fun h => nomatch h
    · refine ⟨Or.inr ⟨hp, (atNode_ends side v).mpr ⟨hstart, hlabel⟩, fun x hx heq => ?_⟩, rfl, rfl⟩
      have hx' := ((mem_seen_directed side hdir).mp hx).1
      have hmem : x ∈ between v.src v.dst (StoredEdge.toEdge label '' E) :=
        ⟨hx', congrArg (·.1) heq, congrArg (·.2.2) heq⟩
      rw [hempty] at hmem
      exact hmem

theorem kept_iff {ops : List EdgeTxOp} {p : Edge} :
    Kept schema label E ops p ↔ ∀ v, v ∈ between p.src p.dst (edgeOverlay schema label E ops) ↔
      v ∈ between p.src p.dst (StoredEdge.toEdge label '' E) ∨
        (v = p ∧ between p.src p.dst (StoredEdge.toEdge label '' E) = ∅) := by
  unfold Kept
  dsimp only
  rcases Set.eq_empty_or_nonempty (between p.src p.dst (StoredEdge.toEdge label '' E)) with h | h
  · have hv : ∀ v, (v ∈ between p.src p.dst (StoredEdge.toEdge label '' E) ∨
        (v = p ∧ between p.src p.dst (StoredEdge.toEdge label '' E) = ∅)) ↔ v ∈ ({p} : Set Edge) := by
      intro v
      rw [h]
      exact ⟨fun hv => hv.elim False.elim And.left, fun hv => Or.inr ⟨hv, rfl⟩⟩
    simp only [hv, ← Set.ext_iff]
    refine ⟨?_, fun hnow => Or.inl ⟨h, hnow⟩⟩
    rintro (⟨-, hnow⟩ | ⟨hne, -⟩)
    · exact hnow
    · exact absurd h hne.ne_empty
  · have hv : ∀ v, (v ∈ between p.src p.dst (StoredEdge.toEdge label '' E) ∨
        (v = p ∧ between p.src p.dst (StoredEdge.toEdge label '' E) = ∅)) ↔
        v ∈ between p.src p.dst (StoredEdge.toEdge label '' E) := by
      intro v
      exact ⟨fun hv => hv.elim id fun hv => absurd hv.2 h.ne_empty, Or.inl⟩
    simp only [hv, ← Set.ext_iff]
    refine ⟨?_, fun hnow => Or.inr ⟨h, hnow⟩⟩
    rintro (⟨hempty, -⟩ | ⟨-, hnow⟩)
    · exact absurd hempty h.ne_empty
    · exact hnow

/-- On a directed type a listing shows the overlay exactly if the pending inserts at the node
leave it be. -/
theorem shown_iff_kept (side : EdgeSide) (hdir : schema.isUndirected = false)
    {ops : List EdgeTxOp} (hbuf : EdgeTxOp.Buffered ops tx) :
    (∀ e, e ∈ shown tx (side.atNode node label)
        (side.seen schema node (StoredEdge.toEdge label '' E)) ↔
        e ∈ side.seen schema node (edgeOverlay schema label E ops)) ↔
      ∀ p, tx.pendingEdges.lookup p.ends = some (.insert p) → p.label = label →
        side.start p = node → Kept schema label E ops p := by
  refine ⟨fun hshown p hp hlabel hstart => kept_iff.mpr fun v => ?_, fun hkept e => ?_⟩
  · rw [← between_shown side hdir hp hlabel hstart]
    refine and_congr_left fun ⟨hsrc, hdst⟩ => ?_
    rw [hshown, mem_seen_directed side hdir, start_congr side hsrc hdst]
    exact (and_iff_left hstart).symm
  · -- both sides hold edges of the label at the node only
    by_cases hat : side.start e = node ∧ e.label = label
    · have hseen : e ∈ side.seen schema node (edgeOverlay schema label E ops) ↔
          e ∈ between e.src e.dst (edgeOverlay schema label E ops) := by
        rw [mem_seen_directed side hdir]
        exact ⟨fun h => ⟨h.1, rfl, rfl⟩, fun h => ⟨h.1, hat.1⟩⟩
      have hstored : e ∈ side.seen schema node (StoredEdge.toEdge label '' E) ↔
          e ∈ between e.src e.dst (StoredEdge.toEdge label '' E) := by
        rw [mem_seen_directed side hdir]
        exact ⟨fun h => ⟨h.1, rfl, rfl⟩, fun h => ⟨h.1, hat.1⟩⟩
      have hends : e.ends = (e.src, label, e.dst) := by
        rw [Edge.ends, hat.2]
      have hlookup := hbuf.lookup e.ends
      rw [hends] at hlookup
      rw [hseen]
      cases hlast : EdgeTxOp.lastOn ops (e.src, label, e.dst) with
      | none =>
        rw [hlast] at hlookup
        rw [(between_overlay hdir ops e.src e.dst).1 hlast, ← hstored]
        refine ⟨?_, fun h => Or.inl ⟨h, ?_⟩⟩
        · rintro (h | h)
          · exact h.1
          · rw [hends, hlookup] at h
            exact nomatch h.1
        · rw [hends, hlookup]
          exact fun h => nomatch h
      | some op =>
        rw [hlast] at hlookup
        cases hop : op.pending with
        | delete =>
          rw [(between_overlay hdir ops e.src e.dst).2 (by rw [hlast]; exact congrArg some hop)]
          rw [Option.map_some, hop] at hlookup
          refine ⟨?_, fun h => h.elim⟩
          rintro (h | h)
          · rw [hends] at h
            exact h.2 hlookup
          · rw [hends, hlookup] at h
            exact nomatch h.1
        | insert p =>
          rw [Option.map_some, hop] at hlookup
          have hpends : (e.src, label, e.dst) = p.ends := tx.edgesNamed _ _ hlookup
          have hsrc : e.src = p.src := congrArg (·.1) hpends
          have hdst : e.dst = p.dst := congrArg (·.2.2) hpends
          have hlabel : p.label = label := (congrArg (·.2.1) hpends).symm
          have hstart : side.start p = node := by
            rw [← start_congr side hsrc hdst]
            exact hat.1
          have hp : tx.pendingEdges.lookup p.ends = some (.insert p) := by
            rw [← hpends]
            exact hlookup
          rw [hsrc, hdst, kept_iff.mp (hkept p hp hlabel hstart) e,
            ← between_shown side hdir hp hlabel hstart]
          exact ⟨fun h => ⟨h, hsrc, hdst⟩, fun h => h.1⟩
    · refine iff_of_false (fun h => ?_) (fun h => ?_)
      · rcases h with h | h
        · obtain ⟨hmem, hstart⟩ := (mem_seen_directed side hdir).mp h.1
          exact hat ⟨hstart, stored_label e hmem⟩
        · exact hat ((atNode_ends side e).mp h.2.1)
      · obtain ⟨hmem, hstart⟩ := (mem_seen_directed side hdir).mp h
        exact hat ⟨hstart, edgeOverlay_label ops e hmem⟩

/-- A node that no call names shows what it showed, from both ends. -/
theorem shown_of_no_call (side : EdgeSide) (hund : schema.isUndirected = true)
    {ops : List EdgeTxOp} (hbuf : EdgeTxOp.Buffered ops tx)
    (hcalls : ∀ op ∈ ops, op.ends.2.1 = label → op.ends.1 ≠ node ∧ op.ends.2.2 ≠ node) (e : Edge) :
    e ∈ shown tx (side.atNode node label)
        (side.seen schema node (StoredEdge.toEdge label '' E)) ↔
      e ∈ side.seen schema node (edgeOverlay schema label E ops) := by
  have hnone : ∀ ends : String × String × String, ends.2.1 = label →
      (ends.1 = node ∨ ends.2.2 = node) → tx.pendingEdges.lookup ends = none := by
    intro ends hlabel hnamed
    rw [hbuf.lookup, Option.map_eq_none_iff]
    refine List.find?_eq_none.mpr fun op hop hends => ?_
    have hop' := List.mem_reverse.mp hop
    rw [decide_eq_true_eq] at hends
    subst hends
    exact hnamed.elim (hcalls op hop' hlabel).1 (hcalls op hop' hlabel).2
  have hoverlay : side.seen schema node (edgeOverlay schema label E ops) =
      side.seen schema node (StoredEdge.toEdge label '' E) := by
    simp only [EdgeSide.seen, if_pos hund]
    ext v
    refine exists_congr fun w => ?_
    by_cases hw : w.src = node ∨ w.dst = node
    · rw [mem_overlay_of_no_call hcalls hw]
    · refine iff_of_false ?_ ?_
      · rintro ⟨-, h | h⟩
        · exact hw (Or.inl h.1)
        · exact hw (Or.inr h.1)
      · rintro ⟨-, h | h⟩
        · exact hw (Or.inl h.1)
        · exact hw (Or.inr h.1)
  rw [hoverlay]
  refine ⟨?_, fun h => Or.inl ⟨h, ?_⟩⟩
  · rintro (h | ⟨hlookup, hat, -⟩)
    · exact h.1
    · obtain ⟨hstart, hlabel⟩ := (atNode_ends side e).mp hat
      have hnamed : e.src = node ∨ e.dst = node := by
        cases side with
        | outgoing => exact Or.inl hstart
        | incoming => exact Or.inr hstart
      rw [hnone e.ends hlabel hnamed] at hlookup
      cases hlookup
  · have hlabel : e.label = label ∧ e.src = node := by
      simp only [EdgeSide.seen, if_pos hund] at h
      obtain ⟨w, hw, ⟨hsrc, rfl⟩ | ⟨hdst, rfl⟩⟩ := h
      · exact ⟨stored_label _ hw, hsrc⟩
      · exact ⟨stored_label w hw, hdst⟩
    rw [hnone e.ends hlabel.1 (Or.inl hlabel.2)]
    exact fun h => by cases h

end Reads

/-! ## A hub and its spokes -/

namespace Spokes

open StellarDb.Star (hub spoke star name star_shape stored)
open StellarDb.Follows (schema edge)

local instance : External := .standIn

/-- Another edge between the ends of the first spoke. -/
def other : Edge := edge "follows:other" "users:a" ("users:" ++ name 0)

theorem ends_of_insert (e e' : Edge) (h : PendingWrite.insert e = .insert e') :
    e.ends = e'.ends := by
  cases h
  rfl

/-- The transaction that has created one edge. -/
def created (e : Edge) : Transaction :=
  Transaction.new.pendEdge e.ends (.insert e) (ends_of_insert e)

/-- The only edge shown is the one created. -/
theorem shown_created (e : Edge) (side : EdgeSide) :
    shown (created e) (side.atNode "users:a" "follows")
      (side.seen schema "users:a" (StoredEdge.toEdge "follows" '' ∅)) ⊆ {e} := by
  rintro x (⟨hx, -⟩ | ⟨hx, -, -⟩)
  · rw [Set.image_empty, mem_seen_directed side rfl] at hx
    exact hx.1.elim
  · have hlookup : (created e).pendingEdges.lookup x.ends =
        if e.ends = x.ends then some (.insert e) else none := by
      show (Transaction.new.pendingEdges.insert e.ends (PendingWrite.insert e)).lookup x.ends = _
      split
      · next hk => rw [← hk, AList.lookup_insert]
      · next hk => exact AList.lookup_insert_ne (Ne.symm hk)
    rw [hlookup] at hx
    split at hx
    · cases hx
      rfl
    · cases hx

end Spokes

end StellarDb
