import Mathlib.Data.List.Basic
import Mathlib.Order.Nat

/-!
# Gaps between spans

`gaps lo hi spans` walks over spans of a range, in order, and collects the pieces between them
that are not empty. It finds exactly the maximal free intervals (`mem_gaps_iff`), in order
(`pairwise_gaps`). A span without length separates the pieces on both its sides.
-/

namespace Gaps

/-- The spans lie in the range, one behind the other. -/
def Spans (lo hi : Nat) : List (Nat × Nat) → Prop
  | [] => lo ≤ hi
  | span :: spans => lo ≤ span.1 ∧ span.1 ≤ span.2 ∧ Spans span.2 hi spans

/-- Collect what lies between `lo` and the first span, and so on. -/
def gaps (lo hi : Nat) : List (Nat × Nat) → List (Nat × Nat)
  | [] => if lo < hi then [(lo, hi)] else []
  | span :: spans => (if lo < span.1 then [(lo, span.1)] else []) ++ gaps span.2 hi spans

/-- An interval of the range with every span before or behind it. -/
structure Free (lo hi : Nat) (spans : List (Nat × Nat)) (piece : Nat × Nat) : Prop where
  lt : piece.1 < piece.2
  lo_le : lo ≤ piece.1
  le_hi : piece.2 ≤ hi
  apart : ∀ span ∈ spans, span.2 ≤ piece.1 ∨ piece.2 ≤ span.1

/-- A free interval that no other one contains. -/
def Maximal (lo hi : Nat) (spans : List (Nat × Nat)) (piece : Nat × Nat) : Prop :=
  Free lo hi spans piece ∧
    ∀ other, Free lo hi spans other → other.1 ≤ piece.1 → piece.2 ≤ other.2 → other = piece

section

variable {lo hi : Nat} {spans : List (Nat × Nat)}

theorem Spans.bounds (h : Spans lo hi spans) :
    lo ≤ hi ∧ ∀ span ∈ spans, lo ≤ span.1 ∧ span.1 ≤ span.2 ∧ span.2 ≤ hi := by
  induction spans generalizing lo with
  | nil => exact ⟨h, nofun⟩
  | cons span spans ih =>
    obtain ⟨hlo, hle, hrest⟩ := h
    obtain ⟨hhi, hall⟩ := ih hrest
    refine ⟨by omega, List.forall_mem_cons.mpr ⟨⟨hlo, hle, hhi⟩, fun s hs => ?_⟩⟩
    have := hall s hs
    omega

/-- An interval whose ends are ends of the range or of spans. -/
def Bounded (lo hi : Nat) (spans : List (Nat × Nat)) (piece : Nat × Nat) : Prop :=
  piece.1 < piece.2 ∧ (piece.1 = lo ∨ ∃ span ∈ spans, span.2 = piece.1) ∧
    (piece.2 = hi ∨ ∃ span ∈ spans, span.1 = piece.2) ∧
    ∀ span ∈ spans, span.2 ≤ piece.1 ∨ piece.2 ≤ span.1

theorem mem_gaps_iff_bounded (h : Spans lo hi spans) (piece : Nat × Nat) :
    piece ∈ gaps lo hi spans ↔ Bounded lo hi spans piece := by
  obtain ⟨a, b⟩ := piece
  induction spans generalizing lo with
  | nil =>
    show (a, b) ∈ (if lo < hi then [(lo, hi)] else []) ↔ a < b ∧ (a = lo ∨ _) ∧ (b = hi ∨ _) ∧ _
    split <;> simp <;> omega
  | cons span spans ih =>
    obtain ⟨s, e⟩ := span
    obtain ⟨hlo, hle, hrest⟩ := h
    obtain ⟨hhi, hall⟩ := hrest.bounds
    have hfirst : (a, b) ∈ (if lo < s then [(lo, s)] else []) ↔ lo < s ∧ a = lo ∧ b = s := by
      split <;> simp <;> omega
    show (a, b) ∈ (if lo < s then [(lo, s)] else []) ++ gaps e hi spans ↔ _
    rw [List.mem_append, hfirst, ih hrest]
    simp only [Bounded, List.exists_mem_cons_iff, List.forall_mem_cons]
    constructor
    · rintro (⟨hlt, rfl, rfl⟩ | ⟨hab, ha, hb, hapart⟩)
      · exact ⟨hlt, Or.inl rfl, Or.inr (Or.inl rfl), Or.inr le_rfl, fun m hm =>
          Or.inr (hle.trans (hall m hm).1)⟩
      · have hea : e ≤ a := by
          rcases ha with rfl | ⟨m, hm, rfl⟩
          · exact le_rfl
          · exact (hall m hm).1.trans (hall m hm).2.1
        refine ⟨hab, Or.inr ?_, hb.imp id Or.inr, Or.inl hea, hapart⟩
        exact ha.imp Eq.symm id
    · rintro ⟨hab, ha, hb, hspan, hapart⟩
      rcases hspan with hea | hbs
      · -- behind the first span
        refine Or.inr ⟨hab, ?_, ?_, hapart⟩
        · rcases ha with rfl | rfl | ha
          · exact Or.inl (by omega)
          · exact Or.inl rfl
          · exact Or.inr ha
        · rcases hb with rfl | rfl | hb
          · exact Or.inl rfl
          · omega
          · exact Or.inr hb
      · -- before it: both ends are those of the first gap
        refine Or.inl ?_
        have hb' : b = s := by
          rcases hb with rfl | rfl | ⟨m, hm, rfl⟩
          · omega
          · rfl
          · have := (hall m hm).1
            omega
        have ha' : a = lo := by
          rcases ha with rfl | rfl | ⟨m, hm, rfl⟩
          · rfl
          · omega
          · have := hall m hm
            omega
        omega

theorem bounded_iff_maximal (h : Spans lo hi spans) (piece : Nat × Nat) :
    Bounded lo hi spans piece ↔ Maximal lo hi spans piece := by
  obtain ⟨hhi, hall⟩ := h.bounds
  obtain ⟨a, b⟩ := piece
  constructor
  · rintro ⟨hab, ha, hb, hapart⟩
    simp only at hab ha hb hapart
    have hloa : lo ≤ a := by
      rcases ha with rfl | ⟨m, hm, rfl⟩
      · exact le_rfl
      · have := hall m hm
        omega
    have hbhi : b ≤ hi := by
      rcases hb with rfl | ⟨m, hm, rfl⟩
      · exact le_rfl
      · have := hall m hm
        omega
    refine ⟨⟨hab, hloa, hbhi, hapart⟩, fun other hfree hle hge => ?_⟩
    obtain ⟨a', b'⟩ := other
    obtain ⟨hlt', hlo', hhi', hapart'⟩ := hfree
    simp only at hlt' hlo' hhi' hapart' hle hge
    have ha' : a' = a := by
      rcases ha with rfl | ⟨m, hm, rfl⟩
      · omega
      · have := hapart' m hm
        have := hall m hm
        omega
    have hb' : b' = b := by
      rcases hb with rfl | ⟨m, hm, rfl⟩
      · omega
      · have := hapart' m hm
        have := hall m hm
        omega
    rw [ha', hb']
  · rintro ⟨⟨hab, hloa, hbhi, hapart⟩, hmax⟩
    simp only at hab hloa hbhi hapart hmax
    refine ⟨hab, ?_, ?_, hapart⟩
    · -- otherwise the interval could begin one earlier
      by_contra hno
      simp only [not_or, not_exists, not_and] at hno
      have := hmax (a - 1, b) ⟨by simp only; omega, by simp only; omega, hbhi, fun m hm => by
        have := hapart m hm
        have := hno.2 m hm
        simp only
        omega⟩ (by simp only; omega) le_rfl
      have := congrArg Prod.fst this
      simp only at this
      omega
    · by_contra hno
      simp only [not_or, not_exists, not_and] at hno
      have := hmax (a, b + 1) ⟨by simp only; omega, hloa, by simp only; omega, fun m hm => by
        have := hapart m hm
        have := hno.2 m hm
        simp only
        omega⟩ le_rfl (by simp only; omega)
      have := congrArg Prod.snd this
      simp only at this
      omega

theorem mem_gaps_iff (h : Spans lo hi spans) (piece : Nat × Nat) :
    piece ∈ gaps lo hi spans ↔ Maximal lo hi spans piece :=
  (mem_gaps_iff_bounded h piece).trans (bounded_iff_maximal h piece)

theorem pairwise_gaps (h : Spans lo hi spans) :
    (gaps lo hi spans).Pairwise fun p q => p.2 ≤ q.1 := by
  induction spans generalizing lo with
  | nil =>
    unfold gaps
    split <;> simp
  | cons span spans ih =>
    obtain ⟨hlo, hle, hrest⟩ := h
    unfold gaps
    split
    · refine List.pairwise_cons.mpr ⟨fun q hq => ?_, ih hrest⟩
      have := ((mem_gaps_iff hrest q).mp hq).1.lo_le
      show span.1 ≤ q.1
      omega
    · exact ih hrest

end

end Gaps
