import Mathlib.Data.List.Sort

/-!
# Windows of filtered lists

`window skip count l` skips `skip` items and takes `count` of the rest. When do two filters leave
the same window of a list without repetitions? `window_filter_iff` answers it for a filter against
the whole list, `drop_filter_iff` for two filters without a count, and
`drop_eq_window_iff` for a first filter that never lets more than `count` items through.

A stable sort commutes with filters (`filter_insertionSort`), where the relation orders the items
of the list.
-/

namespace Windows

variable {α : Type}

def window (skip : Nat) (count : Option Nat) (l : List α) : List α :=
  match count with
  | some n => (l.drop skip).take n
  | none => l.drop skip

/-- The items up to the end of the window. -/
def upTo (skip : Nat) (count : Option Nat) (l : List α) : List α :=
  match count with
  | some n => l.take (skip + n)
  | none => l

theorem window_succ (skip : Nat) (count : Option Nat) (a : α) (l : List α) :
    window (skip + 1) count (a :: l) = window skip count l := by
  cases count <;> rfl

theorem upTo_succ (skip : Nat) (count : Option Nat) (a : α) (l : List α) :
    upTo (skip + 1) count (a :: l) = a :: upTo skip count l := by
  cases count with
  | none => rfl
  | some n =>
    show (a :: l).take (skip + 1 + n) = a :: l.take (skip + n)
    rw [show skip + 1 + n = skip + n + 1 by omega]
    rfl

theorem window_subset {skip : Nat} {count : Option Nat} {l : List α} {a : α}
    (h : a ∈ window skip count l) : a ∈ l.drop skip := by
  cases count with
  | none => exact h
  | some n => exact List.mem_of_mem_take h

section Filter

variable {p q : α → Bool}

theorem take_filter_iff (l : List α) (n : Nat) :
    (l.filter q).take n = l.take n ↔ ∀ a ∈ l.take n, q a = true := by
  induction l generalizing n with
  | nil => simp
  | cons a l ih =>
    cases n with
    | zero => simp
    | succ n =>
      by_cases hq : q a = true
      · rw [List.filter_cons_of_pos hq, List.take_succ_cons, List.take_succ_cons,
          List.forall_mem_cons, List.cons.injEq, ih n]
        simp only [true_and, hq]
      · rw [List.filter_cons_of_neg hq]
        constructor
        · intro h x hx
          rw [← h] at hx
          exact (List.mem_filter.mp (List.mem_of_mem_take hx)).2
        · intro h
          exact absurd (h a (by simp)) hq

/-- The item at the front of a window is lost for good when the filter drops one before it. -/
theorem window_filter_iff {l : List α} (hl : l.Nodup) (skip : Nat) (count : Option Nat) :
    window skip count (l.filter q) = window skip count l ↔
      count = some 0 ∨ l.length ≤ skip ∨ ∀ a ∈ upTo skip count l, q a = true := by
  induction skip generalizing l with
  | zero =>
    have hnil : l.length ≤ 0 → ∀ a ∈ upTo 0 count l, q a = true := by
      intro h
      obtain rfl := List.length_eq_zero_iff.mp (Nat.le_zero.mp h)
      cases count <;> simp [upTo]
    cases count with
    | none =>
      show l.filter q = l ↔ _
      rw [List.filter_eq_self]
      exact ⟨fun h => Or.inr (Or.inr h), fun h => h.elim nofun (·.elim hnil id)⟩
    | some n =>
      show (l.filter q).take n = l.take n ↔ _
      rw [take_filter_iff]
      have hupTo : upTo 0 (some n) l = l.take n := by
        show l.take (0 + n) = _
        rw [Nat.zero_add]
      rw [hupTo] at hnil ⊢
      refine ⟨fun h => Or.inr (Or.inr h), ?_⟩
      rintro (h | h | h)
      · cases h
        simp
      · exact hnil h
      · exact h
  | succ skip ih =>
    cases l with
    | nil => cases count <;> simp [window]
    | cons a l =>
      obtain ⟨ha, hl'⟩ := List.nodup_cons.mp hl
      rw [window_succ, upTo_succ, List.forall_mem_cons, List.length_cons,
        Nat.add_le_add_iff_right]
      by_cases hq : q a = true
      · rw [List.filter_cons_of_pos hq, window_succ, ih hl']
        simp only [hq, true_and]
      · rw [List.filter_cons_of_neg hq]
        constructor
        · intro h
          by_contra hno
          simp only [not_or] at hno
          obtain ⟨hcount, hlen, -⟩ := hno
          have hlt : skip < l.length := not_le.mp hlen
          -- the front of the window lies behind itself in the filtered list
          have hfront : l[skip] ∈ window skip count l := by
            have hdrop := List.drop_eq_getElem_cons hlt
            cases count with
            | none =>
              show l[skip] ∈ l.drop skip
              rw [hdrop]
              exact List.mem_cons_self
            | some n =>
              cases n with
              | zero => exact absurd rfl hcount
              | succ n =>
                show l[skip] ∈ (l.drop skip).take (n + 1)
                rw [hdrop]
                exact List.mem_cons_self
          rw [← h] at hfront
          have hbehind := ((List.filter_sublist (p := q) (l := l)).drop (skip + 1)).subset
            (window_subset hfront)
          have hnodup := hl'.sublist (List.drop_sublist skip l)
          rw [List.drop_eq_getElem_cons hlt, List.nodup_cons] at hnodup
          exact hnodup.1 hbehind
        · rintro (h | h | h)
          · rw [h]
            simp [window]
          · have hfilter := (List.length_filter_le q l).trans h
            cases count <;> simp [window, List.drop_eq_nil_of_le, h, Nat.le_succ_of_le hfilter]
          · exact absurd h.1 hq

/-- Two filters leave the same behind `skip` items when they let equally many through, and what
only one of them lets through is skipped. -/
theorem drop_filter_iff {l : List α} (hl : l.Nodup) (skip : Nat) :
    (l.filter p).drop skip = (l.filter q).drop skip ↔
      ((l.filter p).length ≤ skip ∧ (l.filter q).length ≤ skip) ∨
        ((l.filter p).length = (l.filter q).length ∧
          (∀ a ∈ l.filter p, q a = false → a ∈ (l.filter p).take skip) ∧
          ∀ a ∈ l.filter q, p a = false → a ∈ (l.filter q).take skip) := by
  constructor
  · intro h
    have hlen := congrArg List.length h
    rw [List.length_drop, List.length_drop] at hlen
    -- an item behind the skipped ones is let through by both
    have hmem : ∀ {x y : List α} {r : α → Bool}, x.drop skip = (l.filter r).drop skip →
        ∀ a ∈ x, r a = false → a ∈ x.take skip := by
      intro x y r hxy a ha hr
      rw [← List.take_append_drop skip x, List.mem_append, hxy] at ha
      apply ha.resolve_right
      intro hdrop
      rw [(List.mem_filter.mp (List.mem_of_mem_drop hdrop)).2] at hr
      cases hr
    by_cases hp : (l.filter p).length ≤ skip
    · exact Or.inl ⟨hp, by omega⟩
    · exact Or.inr ⟨by omega, hmem (y := []) h, hmem (y := []) h.symm⟩
  · rintro (⟨hp, hq⟩ | ⟨hlen, hp, hq⟩)
    · rw [List.drop_eq_nil_of_le hp, List.drop_eq_nil_of_le hq]
    · -- both tails end the list of the items that both filters let through
      have htail : ∀ {r r' : α → Bool},
          (∀ a ∈ l.filter r, r' a = false → a ∈ (l.filter r).take skip) →
          (l.filter r).filter r' =
            ((l.filter r).take skip).filter r' ++ (l.filter r).drop skip := by
        intro r r' h
        have hnodup : (l.filter r).Nodup := hl.filter r
        have hall : ((l.filter r).drop skip).filter r' = (l.filter r).drop skip := by
          rw [List.filter_eq_self]
          intro a ha
          by_contra hr
          have hfront := h a (List.mem_of_mem_drop ha) (Bool.eq_false_iff.mpr hr)
          rw [← List.take_append_drop skip (l.filter r), List.nodup_append] at hnodup
          exact hnodup.2.2 a hfront a ha rfl
        conv_lhs => rw [← List.take_append_drop skip (l.filter r)]
        rw [List.filter_append, hall]
      have hboth : (l.filter p).filter q = (l.filter q).filter p := by
        rw [List.filter_filter, List.filter_filter]
        congr 1
        funext a
        exact Bool.and_comm _ _
      rw [htail hp, htail hq] at hboth
      refine (List.append_inj' hboth ?_).2
      rw [List.length_drop, List.length_drop, hlen]

/-- What one filter lets through is the front of what another one does. -/
theorem filter_eq_take_iff (l : List α) :
    l.filter p = (l.filter q).take (l.filter p).length ↔
      (∀ a ∈ l.filter p, q a = true) ∧
        ∀ a b, [a, b].Sublist l → q a = true → p a = false → p b = false := by
  induction l with
  | nil => simp
  | cons x l ih =>
    -- a pair starts at `x`, or lies in the rest
    have hpairs : (∀ a b, [a, b].Sublist (x :: l) → q a = true → p a = false → p b = false) ↔
        (∀ b ∈ l, q x = true → p x = false → p b = false) ∧
          ∀ a b, [a, b].Sublist l → q a = true → p a = false → p b = false := by
      constructor
      · intro h
        exact ⟨fun b hb => h x b (List.Sublist.cons_cons x (List.singleton_sublist.mpr hb)),
          fun a b hab => h a b (hab.cons x)⟩
      · rintro ⟨hx, hrest⟩ a b hab
        cases hab with
        | cons _ hab => exact hrest a b hab
        | cons_cons _ hab => exact hx b (List.singleton_sublist.mp hab)
    rw [hpairs]
    cases hp : p x with
    | true =>
      rw [List.filter_cons_of_pos hp, List.length_cons, List.forall_mem_cons]
      cases hq : q x with
      | true =>
        rw [List.filter_cons_of_pos hq, List.take_succ_cons, List.cons.injEq, ih]
        simp
      | false =>
        have hno : x :: l.filter p ≠ (l.filter q).take ((l.filter p).length + 1) := by
          intro h
          have hx : x ∈ l.filter q := by
            apply List.mem_of_mem_take (i := (l.filter p).length + 1)
            rw [← h]
            exact List.mem_cons_self
          rw [(List.mem_filter.mp hx).2] at hq
          cases hq
        rw [List.filter_cons_of_neg (by simp [hq])]
        simp [hno]
    | false =>
      rw [List.filter_cons_of_neg (by simp [hp])]
      cases hq : q x with
      | false =>
        rw [List.filter_cons_of_neg (by simp [hq]), ih]
        simp
      | true =>
        rw [List.filter_cons_of_pos hq]
        cases hfront : l.filter p with
        | nil =>
          have hnone : ∀ b ∈ l, p b = false := fun b hb =>
            Bool.eq_false_iff.mpr (List.filter_eq_nil_iff.mp hfront b hb)
          constructor
          · intro _
            exact ⟨nofun, fun b hb _ _ => hnone b hb,
              fun a b hab _ _ => hnone b (hab.subset (by simp))⟩
          · exact fun _ => rfl
        | cons b rest =>
          have hb : b ∈ l.filter p := by
            rw [hfront]
            exact List.mem_cons_self
          obtain ⟨hmem, hpb⟩ := List.mem_filter.mp hb
          constructor
          · -- then `x` would be the first item that `p` lets through
            intro h
            obtain rfl := (List.cons.inj h).1
            rw [hpb] at hp
            cases hp
          · intro h
            rw [h.2.1 b hmem rfl rfl] at hpb
            cases hpb

/-- A first filter that lets at most a window through: with nothing skipped, it may also stop at a
full window. -/
theorem drop_eq_window_iff (l : List α) (skip n : Nat) (hn : 0 < n)
    (hlen : (l.filter p).length ≤ n) :
    (l.filter p).drop skip = window skip (some n) (l.filter q) ↔
      (l.filter p).drop skip = (l.filter q).drop skip ∨
        (skip = 0 ∧ (l.filter p).length = n ∧ (∀ a ∈ l.filter p, q a = true) ∧
          ∀ a b, [a, b].Sublist l → q a = true → p a = false → p b = false) := by
  show (l.filter p).drop skip = ((l.filter q).drop skip).take n ↔ _
  constructor
  · intro h
    have hlens := congrArg List.length h
    rw [List.length_take, List.length_drop, List.length_drop] at hlens
    by_cases hshort : (l.filter q).length - skip ≤ n
    · rw [List.take_of_length_le (by rw [List.length_drop]; exact hshort)] at h
      exact Or.inl h
    · -- the window is full, so the first filter let `n` items through and none was skipped
      obtain rfl : skip = 0 := by omega
      have hfull : (l.filter p).length = n := by omega
      rw [List.drop_zero, List.drop_zero, ← hfull, filter_eq_take_iff] at h
      exact Or.inr ⟨rfl, hfull, h⟩
  · rintro (h | ⟨rfl, hfull, h⟩)
    · rw [← h, List.take_of_length_le]
      rw [List.length_drop]
      omega
    · rw [List.drop_zero, List.drop_zero, ← hfull]
      exact (filter_eq_take_iff l).mpr h

end Filter

/-! ## Stable sorts and filters -/

section Stable

variable {r : α → α → Prop} [DecidableRel r]

/-- The relation orders these items: any two are related, and it is transitive on them. -/
structure Orders (r : α → α → Prop) (l : List α) : Prop where
  total : ∀ a ∈ l, ∀ b ∈ l, r a b ∨ r b a
  trans : ∀ a ∈ l, ∀ b ∈ l, ∀ c ∈ l, r a b → r b c → r a c

omit [DecidableRel r] in
theorem Orders.subset {l l' : List α} (h : Orders r l) (hsub : ∀ a ∈ l', a ∈ l) : Orders r l' where
  total a ha b hb := h.total a (hsub a ha) b (hsub b hb)
  trans a ha b hb c hc := h.trans a (hsub a ha) b (hsub b hb) c (hsub c hc)

theorem pairwise_orderedInsert {a : α} {l : List α} (h : Orders r (a :: l))
    (hl : l.Pairwise r) : (l.orderedInsert r a).Pairwise r := by
  induction l with
  | nil => simp
  | cons b l ih =>
    obtain ⟨hb, hl'⟩ := List.pairwise_cons.mp hl
    by_cases hab : r a b
    · rw [List.orderedInsert_cons_of_le _ _ hab]
      refine List.pairwise_cons.mpr ⟨fun c hc => ?_, hl⟩
      rcases List.mem_cons.mp hc with rfl | hc
      · exact hab
      · exact h.trans a (by simp) b (by simp) c (by simp [hc]) hab (hb c hc)
    · rw [List.orderedInsert_of_not_le _ _ hab]
      have hba := (h.total a (by simp) b (by simp)).resolve_left hab
      have hsub : Orders r (a :: l) := h.subset fun c hc => by
        rcases List.mem_cons.mp hc with rfl | hc <;> simp_all
      refine List.pairwise_cons.mpr ⟨fun c hc => ?_, ih hsub hl'⟩
      rcases (List.mem_orderedInsert r).mp hc with rfl | hc
      exacts [hba, hb c hc]

theorem pairwise_insertionSort {l : List α} (h : Orders r l) : (l.insertionSort r).Pairwise r := by
  induction l with
  | nil => simp
  | cons a l ih =>
    rw [List.insertionSort_cons]
    have hsub : Orders r l := h.subset fun b hb => List.mem_cons_of_mem a hb
    apply pairwise_orderedInsert _ (ih hsub)
    exact h.subset fun b hb => by
      simpa only [List.mem_cons, List.mem_insertionSort] using hb

theorem filter_orderedInsert {a : α} {l : List α} (q : α → Bool) (h : Orders r (a :: l))
    (hl : l.Pairwise r) : (l.orderedInsert r a).filter q =
      if q a = true then (l.filter q).orderedInsert r a else l.filter q := by
  induction l with
  | nil => cases hq : q a <;> simp [hq]
  | cons b l ih =>
    obtain ⟨hb, hl'⟩ := List.pairwise_cons.mp hl
    have hsub : Orders r (a :: l) := h.subset fun c hc => by
      rcases List.mem_cons.mp hc with rfl | hc <;> simp_all
    by_cases hab : r a b
    · rw [List.orderedInsert_cons_of_le _ _ hab]
      cases hq : q a with
      | false => rw [List.filter_cons_of_neg (by simp [hq]), if_neg (by simp)]
      | true =>
        -- what the filter leaves of the rest lies behind `b`, and so behind `a`
        rw [List.filter_cons_of_pos hq, if_pos rfl]
        cases hkept : (b :: l).filter q with
        | nil => rfl
        | cons c rest =>
          have hc : c ∈ b :: l := by
            apply (List.mem_filter (p := q)).mp _ |>.1
            rw [hkept]
            exact List.mem_cons_self
          have hac : r a c := by
            rcases List.mem_cons.mp hc with rfl | hc
            · exact hab
            · exact h.trans a (by simp) b (by simp) c (by simp [hc]) hab (hb c hc)
          rw [List.orderedInsert_cons_of_le _ _ hac]
    · rw [List.orderedInsert_of_not_le _ _ hab]
      cases hqb : q b with
      | true =>
        rw [List.filter_cons_of_pos hqb, List.filter_cons_of_pos hqb, ih hsub hl',
          List.orderedInsert_of_not_le _ _ hab]
        split <;> rfl
      | false =>
        rw [List.filter_cons_of_neg (by simp [hqb]), List.filter_cons_of_neg (by simp [hqb]),
          ih hsub hl']

theorem filter_insertionSort {l : List α} (h : Orders r l) (q : α → Bool) :
    (l.insertionSort r).filter q = (l.filter q).insertionSort r := by
  induction l with
  | nil => rfl
  | cons a l ih =>
    have hsub : Orders r l := h.subset fun b hb => List.mem_cons_of_mem a hb
    have hinsert : Orders r (a :: l.insertionSort r) := h.subset fun b hb => by
      simpa only [List.mem_cons, List.mem_insertionSort] using hb
    rw [List.insertionSort_cons, filter_orderedInsert q hinsert (pairwise_insertionSort hsub),
      ih hsub]
    cases hq : q a with
    | true => rw [if_pos rfl, List.filter_cons_of_pos hq, List.insertionSort_cons]
    | false => rw [if_neg (by simp), List.filter_cons_of_neg (by simp [hq])]

end Stable

end Windows
