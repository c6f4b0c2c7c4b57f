import Mathlib.Logic.Function.Basic

/-!
# Mirroring — one value kept in two places

Parties keep a value in two places, front and back. A party writes one place first and owes the
same value to the other place until it has written that too; parties may do so at the same time.
A mirror is `Settled` when both places agree or some party owes the value of one place to the
other. A first write always settles a mirror; a write that pays a debt, or that makes none, does
when it is `Covered`.
-/

namespace Mirroring

inductive Side where
  | front
  | back
  deriving DecidableEq

def Side.other : Side → Side
  | .front => .back
  | .back => .front

@[simp] theorem Side.other_other (side : Side) : side.other.other = side := by
  cases side <;> rfl

theorem Side.other_ne (side : Side) : side.other ≠ side := by
  cases side <;> exact nofun

@[ext]
structure Mirror (ι α : Type) where
  value : Side → α
  /-- The write a party has still to make. -/
  owed : ι → Option (Side × α)

variable {ι α : Type}

inductive Act (ι α : Type) where
  /-- Write one place and owe the value to the other. -/
  | first (i : ι) (side : Side) (v : α)
  /-- Write what is owed. -/
  | second (i : ι)
  /-- Write one place only. -/
  | overwrite (side : Side) (v : α)

namespace Mirror

def put (m : Mirror ι α) (side : Side) (v : α) : Mirror ι α :=
  { m with value := Function.update m.value side v }

def owe [DecidableEq ι] (m : Mirror ι α) (i : ι) (debt : Option (Side × α)) : Mirror ι α :=
  { m with owed := Function.update m.owed i debt }

def step [DecidableEq ι] (m : Mirror ι α) : Act ι α → Mirror ι α
  | .first i side v => (m.put side v).owe i (some (side.other, v))
  | .second i =>
    match m.owed i with
    | some (side, v) => (m.put side v).owe i none
    | none => m
  | .overwrite side v => m.put side v

def Agrees (m : Mirror ι α) : Prop := m.value .front = m.value .back

def Settled (m : Mirror ι α) : Prop :=
  m.Agrees ∨ ∃ i side, m.owed i = some (side, m.value side.other)

/-- Writing `v` at `side` leaves nothing behind: the other place has `v`, or a party other than
the writer owes the value of the other place to this one, or `v` to the other place. -/
def Covers (m : Mirror ι α) (writer : Option ι) (side : Side) (v : α) : Prop :=
  v = m.value side.other ∨
    ∃ j, some j ≠ writer ∧
      (m.owed j = some (side, m.value side.other) ∨ m.owed j = some (side.other, v))

def Covered (m : Mirror ι α) : Act ι α → Prop
  | .first _ _ _ => True
  | .second i => ∀ side v, m.owed i = some (side, v) → m.Covers (some i) side v
  | .overwrite side v => m.Covers none side v

theorem agrees_iff (m : Mirror ι α) (side : Side) :
    m.Agrees ↔ m.value side = m.value side.other := by
  cases side
  · exact Iff.rfl
  · exact eq_comm

@[simp] theorem put_value_self (m : Mirror ι α) (side : Side) (v : α) :
    (m.put side v).value side = v := Function.update_self ..

@[simp] theorem put_value_other (m : Mirror ι α) (side : Side) (v : α) :
    (m.put side v).value side.other = m.value side.other :=
  Function.update_of_ne (Side.other_ne side) _ _

@[simp] theorem owe_self [DecidableEq ι] (m : Mirror ι α) (i : ι) : m.owe i (m.owed i) = m :=
  Mirror.ext rfl (Function.update_eq_self i m.owed)

/-- The write itself, whatever becomes of the writer's debt. -/
theorem Covers.settled {m m' : Mirror ι α} {writer : Option ι} {side : Side} {v : α}
    (h : m.Covers writer side v) (hvalue : m'.value = (m.put side v).value)
    (howed : ∀ j, some j ≠ writer → m'.owed j = m.owed j) : m'.Settled := by
  have hself : m'.value side = v := by rw [hvalue, put_value_self]
  have hother : m'.value side.other = m.value side.other := by rw [hvalue, put_value_other]
  rcases h with heq | ⟨j, hj, hback | hforth⟩
  · refine Or.inl ((agrees_iff m' side).mpr ?_)
    rw [hself, hother, heq]
  · refine Or.inr ⟨j, side, ?_⟩
    rw [howed j hj, hother]
    exact hback
  · refine Or.inr ⟨j, side.other, ?_⟩
    rw [howed j hj, Side.other_other, hself]
    exact hforth

theorem step_second [DecidableEq ι] {m : Mirror ι α} {i : ι} {side : Side} {v : α}
    (h : m.owed i = some (side, v)) : m.step (.second i) = (m.put side v).owe i none := by
  simp only [step, h]

theorem settled_step [DecidableEq ι] {m : Mirror ι α} {a : Act ι α} (h : m.Settled)
    (hcovered : m.Covered a) : (m.step a).Settled := by
  cases a with
  | first i side v =>
    refine Or.inr ⟨i, side.other, ?_⟩
    show Function.update m.owed i (some (side.other, v)) i = _
    rw [Function.update_self, Side.other_other]
    exact congrArg (fun x => some (side.other, x)) (put_value_self m side v).symm
  | second i =>
    cases howed : m.owed i with
    | none =>
      have hsame : m.step (.second i) = m := by simp only [step, howed]
      rwa [hsame]
    | some debt =>
      obtain ⟨side, v⟩ := debt
      rw [step_second howed]
      refine (hcovered side v howed).settled rfl ?_
      intro j hj
      exact Function.update_of_ne (fun hji => hj (congrArg some hji)) _ _
  | overwrite side v => exact Covers.settled hcovered rfl fun _ _ => rfl

/-- With no debts left, a settled mirror agrees. -/
theorem Settled.agrees {m : Mirror ι α} (h : m.Settled) (hquiet : ∀ i, m.owed i = none) :
    m.Agrees := by
  rcases h with h | ⟨i, side, howed⟩
  · exact h
  · rw [hquiet i] at howed
    cases howed

end Mirror

end Mirroring
