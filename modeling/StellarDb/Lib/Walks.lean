import StellarDb.Lib.Ownership

/-!
# Batches of walks

Several owners work through their hand-over lists one after the other. `undoAll` undoes the
walks in a given order, each undo stopping at its first refused claim. A batch undoes first the
walks that may take keys and then those that only give keys up, both in the order in which they
ran (`undoOrder`), which is not the reverse order. The theorem `undoAll_runAll_iff` says when this
restores the table: no owner loses a key it held before, and no key is handed over from one
taking walk to a later one.

The argument compares the order with the reverse one. Walks without a common key commute
(`undo_comm`), so the last walk of the batch can be undone first; the only pairs with a common
key are the hand-overs.
-/

namespace Ownership

variable {K O : Type}

/-- An owner with its hand-over list, and whether it is undone among the first. -/
structure Walk (K O : Type) where
  owner : O
  first : Bool
  handovers : List (Handover K)

namespace Walk

def Gives (w : Walk K O) (k : K) : Prop := ∃ c ∈ w.handovers, c.1 = some k

def Takes (w : Walk K O) (k : K) : Prop := ∃ c ∈ w.handovers, c.2 = some k

/-- The walk mentions the key. -/
def Touches (w : Walk K O) (k : K) : Prop := w.Gives k ∨ w.Takes k

end Walk

variable [DecidableEq K] [DecidableEq O]

/-! ## Locality -/

theorem run_of_not_key (o : O) (t : Table K O) {ops : List (Op K)} {k : K}
    (h : ∀ op ∈ ops, op.key ≠ k) : (run o t ops).1 k = t k := by
  induction ops generalizing t with
  | nil => rfl
  | cons op ops ih =>
    rw [List.forall_mem_cons] at h
    rw [run]
    split
    · rfl
    · rw [ih _ h.2, apply_of_ne o t h.1]

/-- A run sees only the keys it mentions. -/
theorem run_congr (o : O) {t u : Table K O} {ops : List (Op K)}
    (h : ∀ op ∈ ops, t op.key = u op.key) :
    (run o t ops).2 = (run o u ops).2 ∧ ∀ k, t k = u k → (run o t ops).1 k = (run o u ops).1 k := by
  induction ops generalizing t u with
  | nil => exact ⟨rfl, fun _ hk => hk⟩
  | cons op ops ih =>
    rw [List.forall_mem_cons] at h
    have hforeign : Foreign t o op.key ↔ Foreign u o op.key := by
      unfold Foreign
      rw [h.1]
    have hrefused : Refused t o op ↔ Refused u o op := by
      cases op with
      | claim k => exact hforeign
      | release k => exact Iff.rfl
    have happly : ∀ k, t k = u k → op.apply o t k = op.apply o u k := by
      intro k hk
      unfold Op.apply
      by_cases hf : Foreign t o op.key
      · rw [if_pos hf, if_pos (hforeign.mp hf), hk]
      · rw [if_neg hf, if_neg (mt hforeign.mpr hf)]
        by_cases hkey : k = op.key
        · rw [hkey, Function.update_self, Function.update_self]
        · rw [Function.update_of_ne hkey, Function.update_of_ne hkey, hk]
    rw [run, run]
    by_cases hr : Refused t o op
    · rw [if_pos hr, if_pos (hrefused.mp hr)]
      exact ⟨rfl, fun _ hk => hk⟩
    · rw [if_neg hr, if_neg (mt hrefused.mpr hr)]
      obtain ⟨hok, hsame⟩ := ih fun op' hop' => happly _ (h.2 op' hop')
      exact ⟨hok, fun k hk => hsame k (happly k hk)⟩

/-! ## Tables inside tables -/

section Embed

variable {K' O' : Type} [DecidableEq K'] [DecidableEq O'] {f : K → K'} {g : O → O'}
  {t : Table K O} {t' : Table K' O'}

omit [DecidableEq K] [DecidableEq O] in
def Op.map (f : K → K') : Op K → Op K'
  | .claim k => .claim (f k)
  | .release k => .release (f k)

/-- Apply a function to both keys of a hand-over. -/
def Handover.map (f : K → K') (c : Handover K) : Handover K' := (c.1.map f, c.2.map f)

omit [DecidableEq K] [DecidableEq K'] in
theorem opsOf_map (f : K → K') (cs : List (Handover K)) :
    opsOf (cs.map (Handover.map f)) = (opsOf cs).map (Op.map f) := by
  induction cs with
  | nil => rfl
  | cons c cs ih =>
    obtain ⟨old, new⟩ := c
    cases old <;> cases new <;> simp [opsOf, Handover.map, Op.map] at ih ⊢ <;> exact ih

omit [DecidableEq K] [DecidableEq K'] in
theorem undoOf_map (f : K → K') (cs : List (Handover K)) :
    undoOf (cs.map (Handover.map f)) = (undoOf cs).map (Op.map f) := by
  unfold undoOf
  rw [← opsOf_map, List.map_map, List.map_map]
  rfl

/-- A run in a part of a table: `f` embeds its keys and `g` its owners. -/
theorem run_map (hf : Function.Injective f) (hg : Function.Injective g) (o : O)
    (h : ∀ k, t' (f k) = (t k).map g) (ops : List (Op K)) :
    (run (g o) t' (ops.map (Op.map f))).2 = (run o t ops).2 ∧
      ∀ k, (run (g o) t' (ops.map (Op.map f))).1 (f k) = ((run o t ops).1 k).map g := by
  induction ops generalizing t t' with
  | nil => exact ⟨rfl, h⟩
  | cons op ops ih =>
    have hkey : (op.map f).key = f op.key := by cases op <;> rfl
    have hforeign : Foreign t' (g o) (op.map f).key ↔ Foreign t o op.key := by
      rw [hkey]
      unfold Foreign
      rw [h]
      constructor
      · rintro ⟨o', ho', hne⟩
        obtain ⟨o'', ho'', rfl⟩ := Option.map_eq_some_iff.mp ho'
        exact ⟨o'', ho'', fun heq => hne (congrArg g heq)⟩
      · rintro ⟨o', ho', hne⟩
        exact ⟨g o', by rw [ho']; rfl, fun heq => hne (hg heq)⟩
    have hrefused : Refused t' (g o) (op.map f) ↔ Refused t o op := by
      cases op with
      | claim k => exact hforeign
      | release k => exact Iff.rfl
    have happly : ∀ k, (op.map f).apply (g o) t' (f k) = (op.apply o t k).map g := by
      intro k
      by_cases hfor : Foreign t o op.key
      · rw [apply_of_foreign_key op hfor, apply_of_foreign_key _ (hforeign.mpr hfor), h]
      · rw [apply_of_not_foreign op hfor, apply_of_not_foreign _ (mt hforeign.mp hfor), hkey]
        by_cases hk : k = op.key
        · rw [hk, Function.update_self, Function.update_self]
          cases op <;> rfl
        · rw [Function.update_of_ne hk, Function.update_of_ne (fun heq => hk (hf heq)), h]
    rw [List.map_cons, run, run]
    by_cases hr : Refused t o op
    · rw [if_pos hr, if_pos (hrefused.mpr hr)]
      exact ⟨rfl, h⟩
    · rw [if_neg hr, if_neg (mt hrefused.mp hr)]
      exact ih happly

end Embed

namespace Walk

variable {t : Table K O} {w x : Walk K O}

/-- Work through the list. -/
def run (t : Table K O) (w : Walk K O) : Table K O × Bool :=
  Ownership.run w.owner t (opsOf w.handovers)

/-- Walk the list the other way round, index by index. -/
def undo (t : Table K O) (w : Walk K O) : Table K O :=
  (Ownership.run w.owner t (undoOf w.handovers)).1

omit [DecidableEq K] [DecidableEq O] in
theorem touches_of_mem_undoOf {op : Op K} (h : op ∈ undoOf w.handovers) : w.Touches op.key := by
  cases op with
  | claim k =>
    obtain ⟨c, hc, hk⟩ := claim_mem_opsOf.mp h
    obtain ⟨d, hd, rfl⟩ := List.mem_map.mp hc
    exact Or.inl ⟨d, hd, hk⟩
  | release k =>
    obtain ⟨c, hc, hk⟩ := release_mem_opsOf.mp h
    obtain ⟨d, hd, rfl⟩ := List.mem_map.mp hc
    exact Or.inr ⟨d, hd, hk⟩

theorem undo_of_not_touches {k : K} (h : ¬ w.Touches k) : w.undo t k = t k :=
  run_of_not_key _ _ fun _ hop hk => h (hk ▸ touches_of_mem_undoOf hop)

/-- Undos without a common key commute. -/
theorem undo_comm (h : ∀ k, x.Touches k → ¬ w.Touches k) :
    w.undo (x.undo t) = x.undo (w.undo t) := by
  funext k
  by_cases hw : w.Touches k
  · have hx : ¬ x.Touches k := fun hx => h k hx hw
    rw [undo_of_not_touches hx]
    refine (run_congr w.owner fun op hop => ?_).2 k (undo_of_not_touches hx)
    exact undo_of_not_touches fun hx => h op.key hx (touches_of_mem_undoOf hop)
  · rw [undo_of_not_touches hw]
    refine ((run_congr x.owner fun op hop => ?_).2 k (undo_of_not_touches hw)).symm
    exact undo_of_not_touches (h op.key (touches_of_mem_undoOf hop))

end Walk

/-! ## Several walks -/

/-- One walk after the other. -/
def runAll (t : Table K O) (ws : List (Walk K O)) : Table K O := ws.foldl (fun t w => (w.run t).1) t

/-- One undo after the other. -/
def undoAll (t : Table K O) (ws : List (Walk K O)) : Table K O := ws.foldl Walk.undo t

/-- No walk is refused. -/
def AllOk : Table K O → List (Walk K O) → Prop
  | _, [] => True
  | t, w :: ws => (w.run t).2 = true ∧ AllOk (w.run t).1 ws

theorem runAll_append (t : Table K O) (ws ws' : List (Walk K O)) :
    runAll t (ws ++ ws') = runAll (runAll t ws) ws' := List.foldl_append ..

theorem undoAll_append (t : Table K O) (ws ws' : List (Walk K O)) :
    undoAll t (ws ++ ws') = undoAll (undoAll t ws) ws' := List.foldl_append ..

theorem allOk_append (t : Table K O) (ws ws' : List (Walk K O)) :
    AllOk t (ws ++ ws') ↔ AllOk t ws ∧ AllOk (runAll t ws) ws' := by
  induction ws generalizing t with
  | nil => simp [AllOk, runAll]
  | cons w ws ih =>
    rw [List.cons_append, AllOk, AllOk, ih, and_assoc]
    rfl

/-- The keys of an owner that does not take part. -/
theorem runAll_other {ws : List (Walk K O)} {o : O} (h : ∀ w ∈ ws, w.owner ≠ o)
    (t : Table K O) (k : K) : runAll t ws k = some o ↔ t k = some o := by
  induction ws generalizing t with
  | nil => rfl
  | cons w ws ih =>
    rw [List.forall_mem_cons] at h
    show runAll (w.run t).1 ws k = some o ↔ _
    rw [ih h.2]
    exact run_other_iff (Ne.symm h.1) t _ k

theorem undoAll_other {ws : List (Walk K O)} {o : O} (h : ∀ w ∈ ws, w.owner ≠ o)
    (t : Table K O) (k : K) : undoAll t ws k = some o ↔ t k = some o := by
  induction ws generalizing t with
  | nil => rfl
  | cons w ws ih =>
    rw [List.forall_mem_cons] at h
    show undoAll (w.undo t) ws k = some o ↔ _
    rw [ih h.2]
    exact run_other_iff (Ne.symm h.1) t _ k

/-- A walk that has no key in common with those before it may be undone first. -/
theorem undoAll_move {xs : List (Walk K O)} {w : Walk K O}
    (h : ∀ x ∈ xs, ∀ k, x.Touches k → ¬ w.Touches k) (ys : List (Walk K O)) (t : Table K O) :
    undoAll t (xs ++ w :: ys) = undoAll (w.undo t) (xs ++ ys) := by
  induction xs generalizing t with
  | nil => rfl
  | cons x xs ih =>
    rw [List.forall_mem_cons] at h
    show undoAll (x.undo t) (xs ++ w :: ys) = undoAll (x.undo (w.undo t)) (xs ++ ys)
    rw [ih h.2, Walk.undo_comm h.1]

/-! ## Undoing a batch

The walks that may take keys are marked `first`. Every owner has one walk, and owns at the
start every key it gives up. -/

section Batch

variable {t : Table K O} {ws : List (Walk K O)}

/-- First the walks that may take keys, then the others. -/
def undoOrder (ws : List (Walk K O)) : List (Walk K O) :=
  ws.filter (·.first) ++ ws.filter (! ·.first)

/-- What a batch starts from. -/
structure Fair (t : Table K O) (ws : List (Walk K O)) : Prop where
  owners : ws.Pairwise fun x w => x.owner ≠ w.owner
  owned : ∀ w ∈ ws, ∀ k, w.Gives k → t k = some w.owner
  givers : ∀ w ∈ ws, w.first = false → ∀ k, ¬ w.Takes k

/-- No key goes from one taking walk to a later one. -/
def NoHandover (ws : List (Walk K O)) : Prop :=
  ws.Pairwise fun x w => x.first = true → w.first = true → ∀ k, x.Gives k → ¬ w.Takes k

omit [DecidableEq K] [DecidableEq O] in
theorem mem_undoOrder {w : Walk K O} : w ∈ undoOrder ws ↔ w ∈ ws := by
  simp only [undoOrder, List.mem_append, List.mem_filter, ← and_or_left]
  cases w.first <;> simp

omit [DecidableEq K] [DecidableEq O] in
theorem Fair.of_append {ws' : List (Walk K O)} (h : Fair t (ws ++ ws')) :
    Fair t ws where
  owners := (List.pairwise_append.mp h.owners).1
  owned := fun w hw => h.owned w (List.mem_append_left _ hw)
  givers := fun w hw => h.givers w (List.mem_append_left _ hw)

omit [DecidableEq K] [DecidableEq O] in
theorem Fair.owner_ne {w : Walk K O} (h : Fair t (ws ++ [w])) :
    ∀ x ∈ ws, x.owner ≠ w.owner := by
  intro x hx
  exact (List.pairwise_append.mp h.owners).2.2 x hx w (List.mem_singleton_self w)

/-- A taken key is not foreign when its walk begins. -/
theorem not_foreign_of_takes {w : Walk K O} {u : Table K O} (hok : (w.run u).2 = true) {k : K}
    (hk : w.Takes k) : ¬ Foreign u w.owner k :=
  (run_ok_iff w.owner u _).mp hok k (claim_mem_opsOf.mpr hk)

/-- A key that a walk takes and does not give up is its own afterwards. -/
theorem run_of_takes {w : Walk K O} {u : Table K O} (hok : (w.run u).2 = true) {k : K}
    (hk : w.Takes k) (hno : ¬ w.Gives k) : (w.run u).1 k = some w.owner := by
  refine run_of_last_claim hok (not_foreign_of_takes hok hk) ?_
  obtain ⟨c, hc, hck⟩ := hk
  cases hlast : last (opsOf w.handovers) k with
  | none => exact absurd hck (last_opsOf_eq_none_iff.mp hlast c hc).2
  | some b =>
    cases b with
    | true => rfl
    | false =>
      obtain ⟨d, post, hsuf, hd, -⟩ := last_opsOf_eq_release_iff.mp hlast
      exact absurd ⟨d, mem_of_suffix hsuf, hd⟩ hno

/-- Two walks of a batch have a key in common only if it is handed over. -/
theorem not_touches_of_fair {w x : Walk K O} (h : Fair t (ws ++ [w]))
    (hok : AllOk t (ws ++ [w])) (hx : x ∈ ws) {k : K} (hno : x.Gives k → ¬ w.Takes k)
    (hxk : x.Touches k) : ¬ w.Touches k := by
  have hne : ∀ y ∈ ws, y.owner ≠ w.owner := h.owner_ne
  obtain ⟨pre, mid, rfl⟩ := List.append_of_mem hx
  have hmid : ∀ y ∈ mid, y.owner ≠ x.owner := by
    intro y hy heq
    have hpw := (List.pairwise_append.mp h.of_append.owners).2.1
    exact (List.pairwise_cons.mp hpw).1 y hy heq.symm
  rw [allOk_append, allOk_append] at hok
  obtain ⟨⟨-, hokx, -⟩, hokw, -⟩ := hok
  intro hwk
  rcases hwk with hgive | htake
  · have htk := h.owned w (by simp) k hgive
    rcases hxk with hxg | hxt
    · rw [h.owned x (by simp) k hxg] at htk
      exact hne x hx (Option.some.inj htk)
    · -- the key is still with `w` when `x` asks for it
      have hown : runAll t pre k = some w.owner :=
        (runAll_other (fun y hy => hne y (by simp [hy])) t k).mpr htk
      exact not_foreign_of_takes hokx hxt ⟨w.owner, hown, (hne x hx).symm⟩
  · rcases hxk with hxg | hxt
    · exact hno hxg htake
    · -- the key is with `x` when `w` asks for it
      have hxown := run_of_takes hokx hxt fun hxg => hno hxg htake
      have hown : runAll t (pre ++ x :: mid) k = some x.owner := by
        rw [runAll_append]
        exact (runAll_other hmid _ k).mpr hxown
      exact not_foreign_of_takes hokw htake ⟨x.owner, hown, hne x hx⟩

/-- Undoing the last walk of a batch first, complete or cut short, and then the others. -/
theorem undoAll_top_iff {w : Walk K O} (hne : ∀ x ∈ ws, x.owner ≠ w.owner)
    (howned : ∀ k, w.Gives k → t k = some w.owner) {order : List (Walk K O)}
    (horder : ∀ x ∈ order, x ∈ ws) :
    undoAll (w.undo (w.run (runAll t ws)).1) order = t ↔
      KeepsHeld w.owner t w.handovers ∧ undoAll (runAll t ws) order = t := by
  have hsame : ∀ k, runAll t ws k = some w.owner ↔ t k = some w.owner := runAll_other hne t
  have hkeep : KeepsHeld w.owner (runAll t ws) w.handovers ↔ KeepsHeld w.owner t w.handovers := by
    unfold KeepsHeld
    simp only [hsame]
  have hundo := undo_run_eq_iff (o := w.owner) (t := runAll t ws)
    fun c hc k hk => (hsame k).mpr (howned k ⟨c, hc, hk⟩)
  by_cases hk : KeepsHeld w.owner t w.handovers
  · have hback : w.undo (w.run (runAll t ws)).1 = runAll t ws := hundo.2.mpr (hkeep.mpr hk)
    rw [hback]
    exact (and_iff_right hk).symm
  · -- a lost key of `w` is not restored by the undos of the others
    refine iff_of_false ?_ fun h => hk h.1
    intro hfinal
    obtain ⟨k, hown, hlost⟩ := undo_loses hundo.1 (fun k hown => by
      rw [run_foreign_iff]
      exact not_foreign_of_own hown) (mt hkeep.mp hk)
    have hend : undoAll (w.undo (w.run (runAll t ws)).1) order k = some w.owner := by
      rw [hfinal]
      exact (hsame k).mp hown
    rw [undoAll_other (fun x hx => hne x (horder x hx))] at hend
    exact absurd (hlost.symm.trans hend) (by simp)

/-- A key handed over to a later taking walk does not come back: its first owner is undone
while the second one still has it. -/
theorem noHandover_of_restored (h : Fair t ws) (hok : AllOk t ws)
    (hfinal : undoAll (runAll t ws) (undoOrder ws) = t) : NoHandover ws := by
  refine List.pairwise_iff_forall_sublist.mpr ?_
  intro x w hsub htx htw k hgive htake
  have hne : x.owner ≠ w.owner := List.pairwise_iff_forall_sublist.mp h.owners hsub
  have htk : t k = some x.owner := h.owned x (hsub.subset (by simp)) k hgive
  have hnogive : ¬ w.Gives k := by
    intro hg
    rw [h.owned w (hsub.subset (by simp)) k hg] at htk
    exact hne (Option.some.inj htk).symm
  -- the second walk has the key at the end of the batch
  have hend : runAll t ws k = some w.owner := by
    obtain ⟨pre, post, rfl⟩ := List.append_of_mem (hsub.subset (by simp : w ∈ [x, w]))
    have hpost : ∀ y ∈ post, y.owner ≠ w.owner := fun y hy =>
      ((List.pairwise_cons.mp (List.pairwise_append.mp h.owners).2.1).1 y hy).symm
    rw [allOk_append] at hok
    rw [runAll_append]
    exact (runAll_other hpost _ k).mpr (run_of_takes hok.2.1 htake hnogive)
  -- in the undo order it still stands behind the first one
  have hsub' : [x, w].Sublist (undoOrder ws) := by
    have hfilter := hsub.filter (·.first)
    rw [List.filter_cons_of_pos htx, List.filter_cons_of_pos htw, List.filter_nil] at hfilter
    exact hfilter.trans (List.sublist_append_left ..)
  have howners : (undoOrder ws).Pairwise fun x w => x.owner ≠ w.owner :=
    ((List.filter_append_perm (fun w : Walk K O => w.first) ws).pairwise_iff Ne.symm).mpr h.owners
  obtain ⟨pre, post, hsplit, hw⟩ : ∃ pre post, undoOrder ws = pre ++ x :: post ∧
      w ∈ post := by
    obtain ⟨pre, rest, hsplit, hpre, hrest⟩ := List.cons_sublist_iff.mp hsub'
    obtain ⟨a, b, rfl⟩ := List.append_of_mem hpre
    exact ⟨a, b ++ rest, by simp [hsplit], List.mem_append_right _ (hrest.subset (by simp))⟩
  rw [hsplit] at howners hfinal
  obtain ⟨-, hxpost, hprepost⟩ := List.pairwise_append.mp howners
  have hstill : (x.undo (undoAll (runAll t ws) pre)) k = some w.owner :=
    (run_other_iff hne.symm _ _ k).mpr
      ((undoAll_other (fun y hy => hprepost y hy w (List.mem_cons_of_mem _ hw)) _ k).mpr hend)
  have hback : undoAll (x.undo (undoAll (runAll t ws) pre)) post k = some x.owner := by
    rw [undoAll_append] at hfinal
    exact (congrFun hfinal k).trans htk
  rw [undoAll_other (fun y hy => ((List.pairwise_cons.mp hxpost).1 y hy).symm), hstill] at hback
  exact hne (Option.some.inj hback).symm

/-- The batch order restores the table iff no owner loses a key it held before and no key is
handed over from a taking walk to a later one. -/
theorem undoAll_runAll_iff (h : Fair t ws) (hok : AllOk t ws) :
    undoAll (runAll t ws) (undoOrder ws) = t ↔
      (∀ w ∈ ws, KeepsHeld w.owner t w.handovers) ∧ NoHandover ws := by
  suffices hmain : NoHandover ws → (undoAll (runAll t ws) (undoOrder ws) = t ↔
      ∀ w ∈ ws, KeepsHeld w.owner t w.handovers) by
    constructor
    · intro hfinal
      have hno := noHandover_of_restored h hok hfinal
      exact ⟨(hmain hno).mp hfinal, hno⟩
    · rintro ⟨hkeep, hno⟩
      exact (hmain hno).mpr hkeep
  induction ws using List.reverseRecOn with
  | nil => simp [undoOrder, undoAll, runAll]
  | append_singleton ws w ih =>
    intro hno
    obtain ⟨hno', -, hlast⟩ := List.pairwise_append.mp hno
    have hfree : ∀ x ∈ ws, (x.first = true → w.first = true → ∀ k, x.Gives k → ¬ w.Takes k) :=
      fun x hx => hlast x hx w (List.mem_singleton_self w)
    -- the last walk has no key in common with the walks undone before it
    have hmove : undoAll (runAll t (ws ++ [w])) (undoOrder (ws ++ [w])) =
        undoAll (w.undo (w.run (runAll t ws)).1) (undoOrder ws) := by
      have hrun : runAll t (ws ++ [w]) = (w.run (runAll t ws)).1 := by
        rw [runAll_append]
        rfl
      rw [hrun]
      cases htw : w.first with
      | true =>
        have horder : undoOrder (ws ++ [w]) =
            ws.filter (·.first) ++ w :: ws.filter (! ·.first) := by
          simp [undoOrder, htw]
        rw [horder, undoAll_move]
        · rfl
        · intro x hx k hxk
          obtain ⟨hx, htx⟩ := List.mem_filter.mp hx
          exact not_touches_of_fair h hok hx (hfree x hx htx htw k) hxk
      | false =>
        have horder : undoOrder (ws ++ [w]) = undoOrder ws ++ w :: [] := by
          simp [undoOrder, htw]
        rw [horder, undoAll_move, List.append_nil]
        intro x hx k hxk
        exact not_touches_of_fair h hok (mem_undoOrder.mp hx)
          (fun _ => h.givers w (by simp) htw k) hxk
    rw [hmove, undoAll_top_iff h.owner_ne (h.owned w (by simp)) (fun x => mem_undoOrder.mp),
      ih h.of_append (((allOk_append ..).mp hok).1) hno']
    simp only [List.forall_mem_append, List.forall_mem_singleton]
    exact and_comm

/-! ## Batches that stop anywhere -/

/-- Wherever the batch stops, no owner has lost a key it held before, and no key went from a
taking walk to a later one. -/
def Undoable (t : Table K O) (ws : List (Walk K O)) : Prop :=
  ∀ done w, done ++ [w] <+: ws → AllOk t done →
    KeepsHeld w.owner t w.handovers ∧
      ((w.run (runAll t done)).2 = true → ∀ x ∈ done, x.first = true → w.first = true →
        ∀ k, x.Gives k → ¬ w.Takes k)

theorem AllOk.of_prefix {done : List (Walk K O)} (hok : AllOk t ws) (h : done <+: ws) :
    AllOk t done := by
  obtain ⟨rest, rfl⟩ := h
  exact ((allOk_append ..).mp hok).1

omit [DecidableEq K] [DecidableEq O] in
theorem Fair.of_prefix {done : List (Walk K O)} (h : Fair t ws) (hpre : done <+: ws) :
    Fair t done := by
  obtain ⟨rest, rfl⟩ := hpre
  exact h.of_append

/-- A batch that stops between two walks. -/
theorem Undoable.restored (hu : Undoable t ws) (h : Fair t ws) {done : List (Walk K O)}
    (hpre : done <+: ws) (hok : AllOk t done) : undoAll (runAll t done) (undoOrder done) = t := by
  rw [undoAll_runAll_iff (h.of_prefix hpre) hok]
  clear h
  induction done using List.reverseRecOn with
  | nil => exact ⟨by simp, List.Pairwise.nil⟩
  | append_singleton done w ih =>
    obtain ⟨hokd, hokw, -⟩ := (allOk_append ..).mp hok
    obtain ⟨hkeep, hno⟩ := ih ((List.prefix_append ..).trans hpre) hokd
    obtain ⟨hkeepw, hnow⟩ := hu done w hpre hokd
    refine ⟨List.forall_mem_append.mpr ⟨hkeep, List.forall_mem_singleton.mpr hkeepw⟩, ?_⟩
    refine List.pairwise_append.mpr ⟨hno, List.pairwise_singleton .., ?_⟩
    intro x hx y hy
    rw [List.mem_singleton.mp hy]
    exact hnow hokw x hx

/-- A batch that stops within a walk. -/
theorem Undoable.restored_cut (hu : Undoable t ws) (h : Fair t ws) {done : List (Walk K O)}
    {w : Walk K O} (hpre : done ++ [w] <+: ws) (hok : AllOk t done) :
    undoAll (w.undo (w.run (runAll t done)).1) (undoOrder done) = t := by
  have hfair := h.of_prefix hpre
  rw [undoAll_top_iff hfair.owner_ne (hfair.owned w (by simp)) fun x => mem_undoOrder.mp]
  exact ⟨(hu done w hpre hok).1, hu.restored h ((List.prefix_append ..).trans hpre) hok⟩

/-- If the batch is undone without a trace where it stops by itself, it is undone without a
trace wherever it stops. -/
theorem undoable_of_restored (h : Fair t ws)
    (hback : (AllOk t ws ∧ undoAll (runAll t ws) (undoOrder ws) = t) ∨
      ∃ done w, done ++ [w] <+: ws ∧ AllOk t done ∧ (w.run (runAll t done)).2 = false ∧
        undoAll (w.undo (w.run (runAll t done)).1) (undoOrder done) = t) : Undoable t ws := by
  -- what the restored part of the batch says about its walks
  have hpart : ∀ part, part <+: ws → AllOk t part → undoAll (runAll t part) (undoOrder part) = t →
      ∀ done w, done ++ [w] <+: part → KeepsHeld w.owner t w.handovers ∧
        ∀ x ∈ done, x.first = true → w.first = true → ∀ k, x.Gives k → ¬ w.Takes k := by
    intro part hpre hok hback done w hdone
    obtain ⟨hkeep, hno⟩ := (undoAll_runAll_iff (h.of_prefix hpre) hok).mp hback
    refine ⟨hkeep w (hdone.subset (by simp)), ?_⟩
    intro x hx
    obtain ⟨rest, rfl⟩ := hdone
    exact (List.pairwise_append.mp (List.pairwise_append.mp hno).1).2.2 x hx w (by simp)
  intro done w hpre hok
  rcases hback with ⟨hokws, hall⟩ | ⟨cut, x, hprex, hokcut, hrefused, hcut⟩
  · obtain ⟨hkeep, hno⟩ := hpart ws List.prefix_rfl hokws hall done w hpre
    exact ⟨hkeep, fun _ => hno⟩
  · have hfair := h.of_prefix hprex
    obtain ⟨hkeepx, hback⟩ := (undoAll_top_iff hfair.owner_ne (hfair.owned x (by simp))
      fun x => mem_undoOrder.mp).mp hcut
    rcases lt_trichotomy done.length cut.length with hlt | heq | hgt
    · have hin : done ++ [w] <+: cut := List.prefix_of_prefix_length_le hpre
        ((List.prefix_append ..).trans hprex) (by simpa using hlt)
      obtain ⟨hkeep, hno⟩ := hpart cut ((List.prefix_append ..).trans hprex) hokcut hback done w hin
      exact ⟨hkeep, fun _ => hno⟩
    · have hsame : done ++ [w] = cut ++ [x] :=
        (List.prefix_of_prefix_length_le hpre hprex (by simp [heq])).eq_of_length (by simp [heq])
      obtain ⟨rfl, hwx⟩ := List.append_inj hsame heq
      obtain rfl := List.singleton_inj.mp hwx
      refine ⟨hkeepx, fun hw => ?_⟩
      rw [hrefused] at hw
      cases hw
    · have hin : cut ++ [x] <+: done := List.prefix_of_prefix_length_le hprex
        ((List.prefix_append ..).trans hpre) (by simpa using hgt)
      obtain ⟨-, hokx, -⟩ := (allOk_append ..).mp (hok.of_prefix hin)
      rw [hrefused] at hokx
      cases hokx

end Batch

end Ownership
