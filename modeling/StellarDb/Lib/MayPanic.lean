import Mathlib.Data.List.Basic

/-!
# Code that may panic

A function with a result, an error, or no return at all: `ExceptT` over `Option`, where `none` is
the panic. `Panics` is read off a sequence of steps by `panics_bind_iff`.
-/

/-- `none` is a panic, `some` the value or the error that is returned. -/
abbrev MayPanic (ε α : Type) := ExceptT ε Option α

namespace MayPanic

variable {ε α β : Type}

/-- A panic. -/
def abort : MayPanic ε α := (none : Option (Except ε α))

/-- A call that returns. -/
def returns (r : Except ε α) : MayPanic ε α := (some r : Option (Except ε α))

def Panics (x : MayPanic ε α) : Prop := x = abort

/-- A slice with its end: out of bounds it is a panic. -/
def slice (as : List α) (first last : Nat) : MayPanic ε (List α) :=
  if first ≤ last ∧ last ≤ as.length then pure ((as.drop first).take (last - first)) else abort

theorem panics_abort : Panics (abort : MayPanic ε α) := rfl

theorem not_panics_returns (r : Except ε α) : ¬ Panics (returns r) := nofun

theorem not_panics_pure (a : α) : ¬ Panics (pure a : MayPanic ε α) := nofun

theorem not_panics_throw (e : ε) : ¬ Panics (throw e : MayPanic ε α) := nofun

/-- What is not a panic returns. -/
theorem exists_returns {x : MayPanic ε α} (h : ¬ Panics x) : ∃ r, x = returns r := by
  cases x with
  | none => exact absurd rfl h
  | some r => exact ⟨r, rfl⟩

/-- A sequence panics at its first part, or at what follows the value of the first part. -/
theorem panics_bind_iff {x : MayPanic ε α} {f : α → MayPanic ε β} :
    Panics (x >>= f) ↔ Panics x ∨ ∃ a, x = pure a ∧ Panics (f a) := by
  match x with
  | none => exact ⟨fun _ => Or.inl rfl, fun _ => rfl⟩
  | some (.error e) =>
    constructor
    · exact nofun
    · intro h
      rcases h with h | ⟨a, ha, _⟩
      · cases h
      · cases ha
  | some (.ok a) =>
    constructor
    · exact fun h => Or.inr ⟨a, rfl, h⟩
    · intro h
      rcases h with h | ⟨b, hb, hf⟩
      · cases h
      · cases hb
        exact hf

/-- It panics in the bad case, and returns else. -/
def returnsUnless (bad : Bool) (r : Except ε α) : MayPanic ε α := if bad then abort else returns r

theorem returnsUnless_false (r : Except ε α) : returnsUnless false r = returns r := rfl

theorem panics_returnsUnless_iff {bad : Bool} {r : Except ε α} :
    Panics (returnsUnless bad r) ↔ bad = true := by
  cases bad with
  | true => exact ⟨fun _ => rfl, fun _ => rfl⟩
  | false => exact ⟨fun h => absurd h (not_panics_returns r), nofun⟩

theorem slice_of_le {as : List α} {first last : Nat} (h : first ≤ last ∧ last ≤ as.length) :
    (slice as first last : MayPanic ε (List α)) = pure ((as.drop first).take (last - first)) :=
  if_pos h

end MayPanic
