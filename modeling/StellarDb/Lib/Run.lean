import Mathlib.Data.List.Infix

/-!
# Runs — invariants of a state under a list of steps

A run folds a step function over a list. `Meets` says that every step of the run meets a
condition in the state it starts from; a property that such steps keep holds after every
prefix of the run (`foldl_invariant`).
-/

namespace Runs

variable {σ α : Type*} {step : σ → α → σ} {P : σ → α → Prop}

/-- Every step of the run meets `P` in the state it starts from. -/
def Meets (step : σ → α → σ) (P : σ → α → Prop) : σ → List α → Prop
  | _, [] => True
  | s, a :: as => P s a ∧ Meets step P (step s a) as

instance Meets.decidable [∀ s a, Decidable (P s a)] :
    ∀ (s : σ) (as : List α), Decidable (Meets step P s as)
  | _, [] => inferInstanceAs (Decidable True)
  | s, a :: as =>
    have := Meets.decidable (step s a) as
    inferInstanceAs (Decidable (P s a ∧ Meets step P (step s a) as))

theorem foldl_invariant (Inv : σ → Prop) (hstep : ∀ s a, Inv s → P s a → Inv (step s a))
    {s : σ} (h : Inv s) {as : List α} (hmeets : Meets step P s as) :
    ∀ done, done <+: as → Inv (done.foldl step s) := by
  induction as generalizing s with
  | nil =>
    intro done hdone
    rw [List.prefix_nil.mp hdone]
    exact h
  | cons a as ih =>
    intro done hdone
    rcases List.prefix_cons_iff.mp hdone with rfl | ⟨done', rfl, hdone'⟩
    · exact h
    · exact ih (hstep s a h hmeets.1) hmeets.2 done' hdone'

theorem meets_append {s : σ} {as bs : List α} :
    Meets step P s (as ++ bs) ↔ Meets step P s as ∧ Meets step P (as.foldl step s) bs := by
  induction as generalizing s with
  | nil => exact ⟨fun h => ⟨trivial, h⟩, And.right⟩
  | cons a as ih =>
    show P s a ∧ Meets step P (step s a) (as ++ bs) ↔ _
    rw [ih]
    exact and_assoc.symm

/-- What holds from one point of a run on holds at every later one. -/
theorem foldl_later (Inv : σ → Prop) (hstep : ∀ s a, Inv s → P s a → Inv (step s a)) {s : σ}
    {as bs cs : List α} (hmeets : Meets step P s cs) (hfront : as ++ bs <+: cs)
    (h : Inv (as.foldl step s)) : Inv ((as ++ bs).foldl step s) := by
  obtain ⟨rest, rfl⟩ := hfront
  have hbs := (meets_append.mp (meets_append.mp hmeets).1).2
  rw [List.foldl_append]
  exact foldl_invariant Inv hstep h hbs bs (List.prefix_refl _)

/-- A condition that always holds. -/
theorem Meets.of_forall (h : ∀ s a, P s a) (s : σ) (as : List α) : Meets step P s as := by
  induction as generalizing s with
  | nil => trivial
  | cons a as ih => exact ⟨h s a, ih (step s a)⟩

/-- A weaker condition. -/
theorem Meets.mono {Q : σ → α → Prop} {s : σ} {as : List α} (h : Meets step P s as)
    (hPQ : ∀ s a, P s a → Q s a) : Meets step Q s as := by
  induction as generalizing s with
  | nil => trivial
  | cons a as ih => exact ⟨hPQ s a h.1, ih h.2⟩

/-- Two conditions on the steps are one. -/
theorem Meets.and {Q : σ → α → Prop} {s : σ} {as : List α} (hP : Meets step P s as)
    (hQ : Meets step Q s as) : Meets step (fun s a => P s a ∧ Q s a) s as := by
  induction as generalizing s with
  | nil => trivial
  | cons a as ih => exact ⟨⟨hP.1, hQ.1⟩, ih hP.2 hQ.2⟩

/-- The condition at every point of the run. -/
theorem meets_iff {s : σ} {as : List α} : Meets step P s as ↔
    ∀ done a, done ++ [a] <+: as → P (done.foldl step s) a := by
  induction as generalizing s with
  | nil =>
    refine ⟨fun _ done a h => ?_, fun _ => trivial⟩
    exact absurd (List.prefix_nil.mp h) (List.append_ne_nil_of_right_ne_nil _ (List.cons_ne_nil _ _))
  | cons a as ih =>
    show P s a ∧ Meets step P (step s a) as ↔ _
    rw [ih]
    constructor
    · rintro ⟨ha, has⟩ done b hdone
      cases done with
      | nil =>
        obtain rfl := (List.cons_prefix_cons.mp hdone).1
        exact ha
      | cons c done =>
        obtain ⟨rfl, hrest⟩ := List.cons_prefix_cons.mp hdone
        exact has done b hrest
    · intro h
      exact ⟨h [] a ⟨as, rfl⟩, fun done b hdone =>
        h (a :: done) b (List.cons_prefix_cons.mpr ⟨rfl, hdone⟩)⟩

end Runs
