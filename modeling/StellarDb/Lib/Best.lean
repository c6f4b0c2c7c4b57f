import Mathlib.Data.List.Perm.Basic

/-!
# Running best

`best lt` goes through a list and replaces what it holds by an item that is less. For a strict
weak order the item it ends with has none below it, and of the items with none below them it is
the first: so its answer depends on the order of the list exactly as far as these items differ.
-/

namespace Bests

variable {α : Type} (lt : α → α → Prop) [DecidableRel lt]

def keepBest : Option α → α → Option α
  | none, a => some a
  | some b, a => if lt a b then some a else some b

def best (l : List α) : Option α := l.foldl (keepBest lt) none

/-- No two items are less than each other, and not being less is transitive. -/
structure StrictWeak (S : Set α) : Prop where
  asymm : ∀ a ∈ S, ∀ b ∈ S, lt a b → ¬ lt b a
  trans_not : ∀ a ∈ S, ∀ b ∈ S, ∀ c ∈ S, ¬ lt a b → ¬ lt b c → ¬ lt a c

variable {lt} {S : Set α}

theorem foldl_keepBest (h : StrictWeak lt S) {b : α} {l : List α} (hS : ∀ a ∈ b :: l, a ∈ S) :
    ∃ r ∈ b :: l, l.foldl (keepBest lt) (some b) = some r ∧ ∀ a ∈ b :: l, ¬ lt a r := by
  induction l generalizing b with
  | nil =>
    refine ⟨b, List.mem_singleton_self b, rfl, fun a ha => ?_⟩
    obtain rfl := List.mem_singleton.mp ha
    have hmem := hS a ha
    exact fun hlt => h.asymm a hmem a hmem hlt hlt
  | cons a l ih =>
    obtain ⟨hb, hrest⟩ := List.forall_mem_cons.mp hS
    have ha := hrest a List.mem_cons_self
    rw [List.foldl_cons, keepBest]
    by_cases hlt : lt a b
    · rw [if_pos hlt]
      obtain ⟨r, hr, heq, hleast⟩ := ih hrest
      refine ⟨r, List.mem_cons_of_mem _ hr, heq, ?_⟩
      intro c hc
      rcases List.mem_cons.mp hc with rfl | hc
      · -- what was held before is above `a`, and so not below `r`
        exact h.trans_not c hb a ha r (hrest r hr) (h.asymm a ha c hb hlt)
          (hleast a List.mem_cons_self)
      · exact hleast c hc
    · rw [if_neg hlt]
      have hS' : ∀ c ∈ b :: l, c ∈ S := List.forall_mem_cons.mpr
        ⟨hb, fun c hc => hrest c (List.mem_cons_of_mem _ hc)⟩
      obtain ⟨r, hr, heq, hleast⟩ := ih hS'
      refine ⟨r, ?_, heq, ?_⟩
      · rcases List.mem_cons.mp hr with rfl | hr
        · exact List.mem_cons_self
        · exact List.mem_cons_of_mem _ (List.mem_cons_of_mem _ hr)
      · intro c hc
        rcases List.mem_cons.mp hc with rfl | hc
        · exact hleast c List.mem_cons_self
        rcases List.mem_cons.mp hc with rfl | hc
        · exact h.trans_not c ha b hb r (hS' r hr) hlt (hleast b List.mem_cons_self)
        · exact hleast c (List.mem_cons_of_mem _ hc)

/-- The best is an item with none below it. -/
theorem best_spec (h : StrictWeak lt S) {l : List α} (hS : ∀ a ∈ l, a ∈ S) (hne : l ≠ []) :
    ∃ r ∈ l, best lt l = some r ∧ ∀ a ∈ l, ¬ lt a r := by
  cases l with
  | nil => exact absurd rfl hne
  | cons b l => exact foldl_keepBest h hS

/-- A first item with none below it is the best. -/
theorem best_cons {b : α} {l : List α} (h : ∀ a ∈ l, ¬ lt a b) : best lt (b :: l) = some b := by
  unfold best
  rw [List.foldl_cons, keepBest]
  induction l with
  | nil => rfl
  | cons a l ih =>
    obtain ⟨ha, hl⟩ := List.forall_mem_cons.mp h
    rw [List.foldl_cons, keepBest, if_neg ha]
    exact ih hl

end Bests
