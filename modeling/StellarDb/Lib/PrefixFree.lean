import Mathlib.Data.List.Basic
import Mathlib.Data.Set.Defs

/-!
# Prefix-free codes

A code is a set of words; it is prefix-free when no word is the front of another. Words of such a
code can be written one after the other without anything between them: a row of words is the front
of another text exactly when its words are the first words there (`flatten_prefix_iff`), and two
rows of one length are ordered word by word, whatever follows them (`compare_flatten`).
-/

namespace Codes

variable {β : Type}

/-- No word is the front of another one. -/
def PrefixFree (C : Set (List β)) : Prop := ∀ u ∈ C, ∀ v ∈ C, u <+: v → u = v

/-! ## The order of words -/

section Order

variable [Ord β] [Std.LawfulEqOrd β]

/-- A common front does not count. -/
theorem compare_append_common (u x y : List β) : compare (u ++ x) (u ++ y) = compare x y := by
  induction u with
  | nil => rfl
  | cons c u ih =>
    have hself : compare c c = .eq := Std.ReflCmp.compare_self
    rw [List.cons_append, List.cons_append, List.compare_cons_cons, hself, ih]
    rfl

/-- Where neither word is the front of the other they settle the order, whatever follows. -/
theorem compare_append_of_not_front {u v : List β} (huv : ¬ u <+: v) (hvu : ¬ v <+: u)
    (x y : List β) : compare (u ++ x) (v ++ y) = compare u v := by
  induction u generalizing v with
  | nil => exact absurd List.nil_prefix huv
  | cons c u ih =>
    cases v with
    | nil => exact absurd List.nil_prefix hvu
    | cons d v =>
      rw [List.cons_append, List.cons_append, List.compare_cons_cons, List.compare_cons_cons]
      cases hcd : compare c d with
      | lt => rfl
      | gt => rfl
      | eq =>
        obtain rfl := Std.LawfulEqCmp.eq_of_compare hcd
        rw [List.cons_prefix_cons, not_and] at huv hvu
        exact congrArg _ (ih (huv rfl) (hvu rfl))

end Order

/-! ## Rows of words -/

namespace PrefixFree

variable {C : Set (List β)} (hC : PrefixFree C)

include hC

/-- Two words that begin one text are one word. -/
theorem eq_of_append_prefix {u v x y : List β} (hu : u ∈ C) (hv : v ∈ C)
    (h : u ++ x <+: v ++ y) : u = v := by
  have hfront : u <+: v ++ y := (List.prefix_append u x).trans h
  rcases List.prefix_or_prefix_of_prefix hfront (List.prefix_append v y) with huv | hvu
  · exact hC u hu v hv huv
  · exact (hC v hv u hu hvu).symm

/-- The words of a row are found again in front of whatever follows. -/
theorem flatten_prefix_iff {us vs : List (List β)} (hus : ∀ u ∈ us, u ∈ C)
    (hvs : ∀ v ∈ vs, v ∈ C) (hlength : us.length ≤ vs.length) (rest : List β) :
    us.flatten <+: vs.flatten ++ rest ↔ us <+: vs := by
  -- word by word, the first words are the same or nothing is the front of anything
  induction us generalizing vs with
  | nil => exact iff_of_true List.nil_prefix List.nil_prefix
  | cons u us ih =>
    cases vs with
    | nil => cases hlength
    | cons v vs =>
      rw [List.forall_mem_cons] at hus hvs
      have hrest := ih hus.2 hvs.2 (Nat.le_of_succ_le_succ hlength)
      rw [List.flatten_cons, List.flatten_cons, List.append_assoc, List.cons_prefix_cons]
      constructor
      · intro h
        obtain rfl := hC.eq_of_append_prefix hus.1 hvs.1 h
        exact ⟨rfl, hrest.mp ((List.prefix_append_right_inj u).mp h)⟩
      · intro ⟨huv, h⟩
        rw [huv]
        exact (List.prefix_append_right_inj v).mpr (hrest.mpr h)

/-- Rows of one length are ordered word by word, and then as what follows them. -/
theorem compare_flatten [Ord β] [Std.LawfulEqOrd β] {us vs : List (List β)}
    (hus : ∀ u ∈ us, u ∈ C) (hvs : ∀ v ∈ vs, v ∈ C) (hlength : us.length = vs.length)
    (x y : List β) :
    compare (us.flatten ++ x) (vs.flatten ++ y) = (compare us vs).then (compare x y) := by
  induction us generalizing vs with
  | nil =>
    cases vs with
    | nil => rfl
    | cons v vs => cases hlength
  | cons u us ih =>
    cases vs with
    | nil => cases hlength
    | cons v vs =>
      rw [List.forall_mem_cons] at hus hvs
      rw [List.flatten_cons, List.flatten_cons, List.append_assoc, List.append_assoc,
        List.compare_cons_cons]
      by_cases huv : u = v
      · subst huv
        have hself : compare u u = .eq := Std.ReflCmp.compare_self
        rw [compare_append_common, ih hus.2 hvs.2 (Nat.succ.inj hlength), hself]
        rfl
      · have hne : compare u v ≠ .eq := fun h => huv (Std.LawfulEqCmp.eq_of_compare h)
        rw [compare_append_of_not_front (fun h => huv (hC u hus.1 v hvs.1 h))
          (fun h => huv (hC v hvs.1 u hus.1 h).symm)]
        cases hcmp : compare u v with
        | lt => rfl
        | gt => rfl
        | eq => exact absurd hcmp hne

end PrefixFree

end Codes
