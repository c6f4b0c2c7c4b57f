import Mathlib.Data.List.Basic

/-!
# Joined names

Parts joined with a separator, and the words between the separators of a name. Joining loses
where a part ended that has separators of its own: two joined lists are the same exactly if the
words of their parts, in a row, are (`joined_eq_iff`).
-/

namespace Joined

variable {α : Type*} {sep : α} {parts : List (List α)}

theorem mem_intercalate {a : α} (hne : a ≠ sep) :
    a ∈ [sep].intercalate parts ↔ ∃ part ∈ parts, a ∈ part := by
  induction parts with
  | nil => simp
  | cons part parts ih =>
    cases parts with
    | nil => simp
    | cons next rest =>
      rw [List.intercalate_cons_cons, List.mem_append, List.mem_append, ih]
      simp [hne]

variable [DecidableEq α]

theorem splitOn_injective (sep : α) : Function.Injective (List.splitOn sep) := by
  intro a b h
  have ha : [sep].intercalate (a.splitOn sep) = a := List.intercalate_splitOn sep
  rw [← ha, h, List.intercalate_splitOn]

/-- The words of joined parts are those of the parts. -/
theorem splitOn_intercalate (hne : parts ≠ []) :
    ([sep].intercalate parts).splitOn sep = parts.flatMap (List.splitOn sep) := by
  induction parts with
  | nil => exact absurd rfl hne
  | cons part parts ih =>
    cases parts with
    | nil => simp
    | cons next rest =>
      rw [List.intercalate_cons_cons, List.append_assoc, List.singleton_append,
        List.splitOn_append_cons_self, ih (List.cons_ne_nil next rest), ← List.flatMap_cons]

theorem joined_eq_iff {parts' : List (List α)} (hne : parts ≠ []) (hne' : parts' ≠ []) :
    [sep].intercalate parts = [sep].intercalate parts' ↔
      parts.flatMap (List.splitOn sep) = parts'.flatMap (List.splitOn sep) := by
  rw [← splitOn_intercalate hne, ← splitOn_intercalate hne']
  exact (splitOn_injective sep).eq_iff.symm

end Joined
