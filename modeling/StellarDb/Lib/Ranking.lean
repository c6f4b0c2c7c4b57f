import StellarDb.Lib.Window

/-!
# Rankings cut off

`rank key l` puts the items of a list in the order of their keys, the highest first, and leaves
items of one key in the order of the list; `top key n l` keeps the first `n` of them.

Two orders of the same items have the same ranked keys. They have the same top `n` when no two
items tie that could stand in it (`top_perm`), and where such a tie exists a list and its reverse
differ (`settled_of_top_reverse`).
-/

namespace Ranking

variable {α β : Type} [LinearOrder β] (key : α → β)

def rank (l : List α) : List α := l.insertionSort fun a b => key b ≤ key a

def top (n : Nat) (l : List α) : List α := (rank key l).take n

/-- Items that tie are beyond the first `n`. -/
def Settled (n : Nat) (l : List α) : Prop :=
  ∀ a ∈ l, ∀ b ∈ l, a ≠ b → key a = key b → n ≤ (l.filter fun c => key a < key c).length

theorem Settled.perm {n : Nat} {l l' : List α} (h : Settled key n l) (hperm : l.Perm l') :
    Settled key n l' := by
  intro a ha b hb hne htie
  rw [← (hperm.filter _).length_eq]
  exact h a (hperm.mem_iff.mpr ha) b (hperm.mem_iff.mpr hb) hne htie

theorem settled_map {γ : Type} {f : γ → α} (hf : Function.Injective f) {n : Nat} {l : List γ} :
    Settled key n (l.map f) ↔ Settled (fun c => key (f c)) n l := by
  have hlen : ∀ k : β, ((l.map f).filter fun c => k < key c).length
      = (l.filter fun c => k < key (f c)).length := fun k => by
    rw [List.filter_map, List.length_map]
    rfl
  constructor
  · intro h a ha b hb hne htie
    rw [← hlen]
    exact h _ (List.mem_map_of_mem ha) _ (List.mem_map_of_mem hb) (hf.ne hne) htie
  · intro h x hx y hy hne htie
    obtain ⟨a, ha, rfl⟩ := List.mem_map.mp hx
    obtain ⟨b, hb, rfl⟩ := List.mem_map.mp hy
    rw [hlen]
    exact h a ha b hb (fun heq => hne (by rw [heq])) htie

theorem rank_perm (l : List α) : (rank key l).Perm l := List.perm_insertionSort _ l

theorem orders (l : List α) : Windows.Orders (fun a b => key b ≤ key a) l where
  total a _ b _ := le_total (key b) (key a)
  trans _ _ _ _ _ _ hab hbc := hbc.trans hab

theorem pairwise_rank (l : List α) : (rank key l).Pairwise fun a b => key b ≤ key a :=
  Windows.pairwise_insertionSort (orders key l)

theorem pairwise_top (n : Nat) (l : List α) : (top key n l).Pairwise fun a b => key b ≤ key a :=
  (pairwise_rank key l).sublist (List.take_sublist n _)

theorem mem_top {n : Nat} {l : List α} {a : α} (h : a ∈ top key n l) : a ∈ l :=
  (rank_perm key l).mem_iff.mp (List.mem_of_mem_take h)

theorem length_top (n : Nat) (l : List α) : (top key n l).length = min n l.length := by
  rw [top, List.length_take, (rank_perm key l).length_eq]

theorem getElem_top {n i : Nat} {l : List α} (hi : i < (top key n l).length)
    (hi' : i < (rank key l).length) : (top key n l)[i] = (rank key l)[i] :=
  List.getElem_take

theorem nodup_top (n : Nat) {l : List α} (h : l.Nodup) : (top key n l).Nodup :=
  ((rank_perm key l).nodup_iff.mpr h).sublist (List.take_sublist n _)

/-- What is cut off ranks no higher than what is kept. -/
theorem le_of_not_mem_top {n : Nat} {l : List α} {a b : α} (ha : a ∈ top key n l) (hb : b ∈ l)
    (hcut : b ∉ top key n l) : key b ≤ key a := by
  have hrank : b ∈ rank key l := (rank_perm key l).mem_iff.mpr hb
  rw [← List.take_append_drop n (rank key l), List.mem_append] at hrank
  have hsorted := pairwise_rank key l
  rw [← List.take_append_drop n (rank key l), List.pairwise_append] at hsorted
  exact hsorted.2.2 a ha b (hrank.resolve_left hcut)

/-! ## Another order of the items -/

theorem rank_keys {l l' : List α} (h : l.Perm l') : (rank key l).map key = (rank key l').map key := by
  have hperm : ((rank key l).map key).Perm ((rank key l').map key) :=
    (((rank_perm key l).trans h).trans (rank_perm key l').symm).map key
  have hsorted : ∀ l : List α, ((rank key l).map key).Pairwise (· ≥ ·) := fun l =>
    List.pairwise_map.mpr (pairwise_rank key l)
  exact hperm.eq_of_pairwise (fun a b _ _ hab hba => le_antisymm hba hab) (hsorted l) (hsorted l')

/-- Whatever ranks higher than an item stands before it. -/
theorem length_higher_le {l front behind : List α} {a : α}
    (h : rank key l = front ++ a :: behind) :
    (l.filter fun c => key a < key c).length ≤ front.length := by
  have hsorted := pairwise_rank key l
  rw [h, List.pairwise_append, List.pairwise_cons] at hsorted
  have hnone : (a :: behind).filter (fun c => key a < key c) = [] := by
    rw [List.filter_eq_nil_iff]
    intro c hc hlt
    rcases List.mem_cons.mp hc with rfl | hc
    · exact absurd (of_decide_eq_true hlt) (lt_irrefl _)
    · exact absurd (of_decide_eq_true hlt) (not_lt.mpr (hsorted.2.1.1 c hc))
  rw [← ((rank_perm key l).filter _).length_eq, h, List.filter_append, hnone, List.append_nil]
  exact List.length_filter_le _ _

theorem top_perm {n : Nat} {l l' : List α} (h : l.Perm l') (hsettled : Settled key n l) :
    top key n l = top key n l' := by
  have hkeys := rank_keys key h
  have hlen : (rank key l).length = (rank key l').length := by
    rw [(rank_perm key l).length_eq, (rank_perm key l').length_eq, h.length_eq]
  apply List.ext_getElem
  · rw [length_top, length_top, h.length_eq]
  · intro i hi hi'
    have hin : i < n ∧ i < (rank key l).length := by
      rw [top, List.length_take] at hi
      omega
    have hin' : i < (rank key l').length := hlen ▸ hin.2
    rw [getElem_top key hi hin.2, getElem_top key hi' hin']
    by_contra hne
    -- the two items at this position tie, so `n` items rank higher, of which `i` stand before
    have htie : key (rank key l)[i] = key (rank key l')[i] := by
      have hget := congrArg (fun ks => ks[i]?) hkeys
      simpa [hin.2, hin'] using hget
    have hhigher := hsettled _ ((rank_perm key l).mem_iff.mp (List.getElem_mem hin.2)) _
      (h.mem_iff.mpr ((rank_perm key l').mem_iff.mp (List.getElem_mem hin'))) hne htie
    have hsplit : rank key l
        = (rank key l).take i ++ (rank key l)[i] :: (rank key l).drop (i + 1) := by
      rw [← List.drop_eq_getElem_cons hin.2, List.take_append_drop]
    have hbefore := length_higher_le key hsplit
    rw [List.length_take] at hbefore
    omega

/-! ## A list and its reverse -/

/-- A list whose front is closed splits there. -/
theorem filter_append_filter_not {p : α → Bool} {l : List α}
    (h : l.Pairwise fun a b => p b = true → p a = true) :
    l.filter p ++ l.filter (fun a => !p a) = l := by
  induction l with
  | nil => rfl
  | cons a l ih =>
    obtain ⟨ha, hl⟩ := List.pairwise_cons.mp h
    cases hp : p a with
    | true =>
      rw [List.filter_cons_of_pos hp, List.filter_cons_of_neg (by simp [hp]), List.cons_append,
        ih hl]
    | false =>
      have hnone : ∀ b ∈ l, p b = false := fun b hb => by
        by_contra hb'
        rw [ha b hb (by simpa using hb')] at hp
        cases hp
      rw [List.filter_cons_of_neg (by simp [hp]), List.filter_cons_of_pos (by simp [hp]),
        List.filter_eq_nil_iff.mpr fun b hb => by simp [hnone b hb],
        List.filter_eq_self.mpr fun b hb => by simp [hnone b hb], List.nil_append]

/-- The sort is stable. -/
theorem filter_rank (l : List α) (k : β) :
    (rank key l).filter (fun a => key a = k) = l.filter fun a => key a = k := by
  rw [rank, Windows.filter_insertionSort (orders key l)]
  apply List.Pairwise.insertionSort_eq
  apply List.pairwise_of_forall_mem_list
  intro a ha b hb
  have ha' : key a = k := of_decide_eq_true (List.mem_filter.mp ha).2
  have hb' : key b = k := of_decide_eq_true (List.mem_filter.mp hb).2
  rw [ha', hb']

/-- The items of one key among the first `n`: as many as fit behind those that rank higher, in the
order of the list. -/
theorem filter_top (n : Nat) (l : List α) (k : β) :
    (top key n l).filter (fun a => key a = k) =
      (l.filter fun a => key a = k).take (n - (l.filter fun a => k < key a).length) := by
  let higher := (rank key l).filter fun a => k < key a
  let others := (rank key l).filter fun a => !decide (k < key a)
  have hhigher : higher.length = (l.filter fun a => k < key a).length :=
    ((rank_perm key l).filter _).length_eq
  -- the ranking is what ranks higher, then the ties, then the rest
  have hrank : higher ++ others = rank key l := by
    apply filter_append_filter_not
    refine (pairwise_rank key l).imp fun hab hb => ?_
    exact decide_eq_true ((of_decide_eq_true hb).trans_le hab)
  have hothers : others.filter (fun a => key a = k) ++ others.filter (fun a => !decide (key a = k))
      = others := by
    apply filter_append_filter_not
    refine ((pairwise_rank key l).sublist List.filter_sublist).imp_of_mem ?_
    intro a b ha _ hab hb
    have hle : ¬k < key a := by simpa using (List.mem_filter.mp ha).2
    have hb' : key b = k := of_decide_eq_true hb
    rw [hb'] at hab
    exact decide_eq_true (le_antisymm (not_lt.mp hle) hab)
  have hties : others.filter (fun a => key a = k) = l.filter fun a => key a = k := by
    rw [← filter_rank key l k, List.filter_filter]
    apply List.filter_congr
    intro a _
    by_cases ha : key a = k
    · simp [ha]
    · simp [ha]
  have hno : ∀ m, (higher.take m).filter (fun a => key a = k) = [] := fun m => by
    rw [List.filter_eq_nil_iff]
    intro a ha heq
    have hlt : k < key a :=
      of_decide_eq_true (List.mem_filter.mp (List.mem_of_mem_take ha)).2
    exact hlt.ne' (of_decide_eq_true heq)
  have hrest : ∀ m, ((others.filter fun a => !decide (key a = k)).take m).filter
      (fun a => key a = k) = [] := fun m => by
    rw [List.filter_eq_nil_iff]
    intro a ha heq
    have hne := (List.mem_filter.mp (List.mem_of_mem_take ha)).2
    simp only [Bool.not_eq_true', decide_eq_false_iff_not] at hne
    exact hne (of_decide_eq_true heq)
  have hall : ∀ m, ((l.filter fun a => key a = k).take m).filter (fun a => key a = k)
      = (l.filter fun a => key a = k).take m := fun m => by
    rw [List.filter_eq_self]
    exact fun a ha => (List.mem_filter.mp (List.mem_of_mem_take ha)).2
  rw [top, ← hrank, List.take_append, List.filter_append, hno, List.nil_append, hhigher,
    ← hothers, hties, List.take_append, List.filter_append, hrest, List.append_nil, hall]

theorem settled_of_top_reverse {n : Nat} {l : List α} (hnodup : l.Nodup)
    (h : top key n l = top key n l.reverse) : Settled key n l := by
  intro a ha b hb hne htie
  by_contra hlt
  have hties := congrArg (List.filter fun c => key c = key a) h
  rw [filter_top, filter_top, List.filter_reverse, List.filter_reverse, List.length_reverse]
    at hties
  obtain ⟨m, hm⟩ : ∃ m, n - (l.filter fun c => key a < key c).length = m + 1 :=
    ⟨n - (l.filter fun c => key a < key c).length - 1, by omega⟩
  rw [hm] at hties
  have hamem : a ∈ l.filter fun c => key c = key a := List.mem_filter.mpr ⟨ha, by simp⟩
  have hbmem : b ∈ l.filter fun c => key c = key a := List.mem_filter.mpr ⟨hb, by simp [htie]⟩
  have hdup := hnodup.filter fun c => key c = key a
  -- the first tie would also be the last one
  match hsplit : l.filter fun c => key c = key a with
  | [] =>
    rw [hsplit] at hamem
    cases hamem
  | [c] =>
    rw [hsplit, List.mem_singleton] at hamem hbmem
    exact hne (hamem.trans hbmem.symm)
  | c :: d :: rest =>
    rw [hsplit, List.reverse_cons] at hties
    obtain ⟨last, front, hback⟩ := List.exists_cons_of_ne_nil
      (show (d :: rest).reverse ≠ [] by simp)
    rw [hback, List.cons_append, List.take_succ_cons, List.take_succ_cons] at hties
    have hlast : last ∈ d :: rest := by
      rw [← List.mem_reverse, hback]
      exact List.mem_cons_self
    rw [hsplit, List.nodup_cons] at hdup
    rw [(List.cons.inj hties).1] at hdup
    exact hdup.1 hlast

end Ranking
