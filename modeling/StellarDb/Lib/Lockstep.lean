import Mathlib.Logic.Basic

/-!
# Two programs in step

Programs with a state and an error, as functions of the state. `Lockstep` relates two of them over
different states: from related states they answer the same and leave related states. `Keeps` is a
part of the state that a program leaves alone, `Yields` a property of its answers. Each has its
rule for a sequence.
-/

/-- The state is kept also where an error is returned. -/
abbrev Stateful (ε S α : Type) := ExceptT ε (StateM S) α

namespace Stateful

variable {ε S T α β σ : Type}

def start (x : Stateful ε S α) (s : S) : Except ε α × S := x s

/-- A program given by what it does to each state. -/
def of (f : S → Except ε α × S) : Stateful ε S α := f

@[simp] theorem start_of (f : S → Except ε α × S) (s : S) : (of f).start s = f s := rfl

@[simp] theorem start_pure (a : α) (s : S) :
    (pure a : Stateful ε S α).start s = (.ok a, s) := rfl

@[simp] theorem start_throw (e : ε) (s : S) :
    (throw e : Stateful ε S α).start s = (.error e, s) := rfl

/-- After an error nothing more is run. -/
theorem start_bind (x : Stateful ε S α) (f : α → Stateful ε S β) (s : S) :
    (x >>= f).start s =
      match x.start s with
      | (.ok a, s') => (f a).start s'
      | (.error e, s') => (.error e, s') := by
  have hcont : (x >>= f).start s =
      (ExceptT.bindCont f (x.start s).1 : StateM S (Except ε β)) (x.start s).2 := rfl
  rw [hcont]
  cases x.start s with
  | mk r s' =>
    cases r with
    | ok a => rfl
    | error e => rfl

/-! ## What a program leaves alone -/

/-- The part `p` of the state is as before, whatever is returned. -/
def Keeps (p : S → σ) (x : Stateful ε S α) : Prop := ∀ s, p (x.start s).2 = p s

namespace Keeps

variable {p : S → σ}

theorem pure (a : α) : Keeps p (Pure.pure a : Stateful ε S α) := fun _ => rfl

theorem throw (e : ε) : Keeps p (throwThe ε e : Stateful ε S α) := fun _ => rfl

theorem bind {x : Stateful ε S α} {f : α → Stateful ε S β} (hx : Keeps p x)
    (hf : ∀ a, Keeps p (f a)) : Keeps p (x >>= f) := by
  intro s
  have hxs := hx s
  rw [start_bind]
  cases h : x.start s with
  | mk r s' =>
    rw [h] at hxs
    cases r with
    | ok a => exact (hf a s').trans hxs
    | error e => exact hxs

end Keeps

/-! ## What a program answers -/

def Yields (P : α → Prop) (x : Stateful ε S α) : Prop := ∀ s a, (x.start s).1 = .ok a → P a

namespace Yields

variable {P : α → Prop} {Q : β → Prop}

theorem pure {a : α} (h : P a) : Yields P (Pure.pure a : Stateful ε S α) := by
  intro s b hb
  rw [start_pure] at hb
  exact Except.ok.inj hb ▸ h

theorem bind {x : Stateful ε S α} {f : α → Stateful ε S β} (hx : Yields P x)
    (hf : ∀ a, P a → Yields Q (f a)) : Yields Q (x >>= f) := by
  intro s b hb
  have hxs := hx s
  rw [start_bind] at hb
  cases h : x.start s with
  | mk r s' =>
    rw [h] at hb hxs
    cases r with
    | ok a => exact hf a (hxs a rfl) s' b hb
    | error e => cases hb

end Yields

/-! ## Two programs -/

/-- From related states both answer the same and leave related states. -/
def Lockstep (R : S → T → Prop) (x : Stateful ε S α) (y : Stateful ε T α) : Prop :=
  ∀ s t, R s t → (x.start s).1 = (y.start t).1 ∧ R (x.start s).2 (y.start t).2

namespace Lockstep

variable {R : S → T → Prop}

theorem pure (a : α) : Lockstep R (Pure.pure a : Stateful ε S α) (Pure.pure a) :=
  fun _ _ h => ⟨rfl, h⟩

theorem throw (e : ε) :
    Lockstep R (throwThe ε e : Stateful ε S α) (throwThe ε e : Stateful ε T α) :=
  fun _ _ h => ⟨rfl, h⟩

/-- What follows has to agree on the answers the first part can give. -/
theorem bind_of_yields {P : α → Prop} {x : Stateful ε S α} {y : Stateful ε T α}
    {f : α → Stateful ε S β} {g : α → Stateful ε T β} (hx : Lockstep R x y) (hP : Yields P x)
    (hf : ∀ a, P a → Lockstep R (f a) (g a)) : Lockstep R (x >>= f) (y >>= g) := by
  intro s t hR
  obtain ⟨hres, hst⟩ := hx s t hR
  have hPs := hP s
  rw [start_bind, start_bind]
  cases hxs : x.start s with
  | mk r s' =>
    cases hyt : y.start t with
    | mk r' t' =>
      rw [hxs] at hres hst hPs
      rw [hyt] at hres hst
      subst hres
      cases r with
      | ok a => exact hf a (hPs a rfl) s' t' hst
      | error e => exact ⟨rfl, hst⟩

theorem bind {x : Stateful ε S α} {y : Stateful ε T α} {f : α → Stateful ε S β}
    {g : α → Stateful ε T β} (hx : Lockstep R x y) (hf : ∀ a, Lockstep R (f a) (g a)) :
    Lockstep R (x >>= f) (y >>= g) :=
  bind_of_yields (P := fun _ => True) hx (fun _ _ _ => trivial) fun a _ => hf a

end Lockstep

end Stateful
