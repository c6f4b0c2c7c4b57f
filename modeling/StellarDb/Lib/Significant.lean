import Mathlib.Data.Int.Log
import Mathlib.Data.Rat.Floor
import Mathlib.Tactic.FieldSimp
import Mathlib.Tactic.Linarith
import Mathlib.Tactic.Positivity

/-!
# Significant digits

A positive number is written `0.d₁d₂… * 10 ^ e` with `d₁ ≠ 0` in one way. `position q` is `e`,
`leading k q` is the number the first `k` digits make, and `truncate k q` is what they say of `q`.
Two such numbers of `k` digits compare like their positions, and then like their digits
(`compare_scaled`).
-/

namespace Significant

/-- Where the point goes in `0.d₁d₂…` with `d₁ ≠ 0`. -/
def position (q : ℚ) : ℤ := Int.log 10 q + 1

/-- The first `k` significant digits. -/
def leading (k : ℕ) (q : ℚ) : ℕ := ⌊q * 10 ^ ((k : ℤ) - position q)⌋₊

/-- The number with the digits behind the first `k` cut off. -/
def truncate (k : ℕ) (q : ℚ) : ℚ := leading k q * 10 ^ (position q - k)

theorem ten_zpow_pos (e : ℤ) : (0 : ℚ) < 10 ^ e := zpow_pos (by norm_num) e

theorem position_eq {q : ℚ} {e : ℤ} (hlo : (10 : ℚ) ^ (e - 1) ≤ q) (hhi : q < 10 ^ e) :
    position q = e := by
  have hq : 0 < q := (ten_zpow_pos (e - 1)).trans_le hlo
  have hle : e - 1 ≤ Int.log 10 q :=
    (Int.zpow_le_iff_le_log (b := 10) (by norm_num) hq).mp (by exact_mod_cast hlo)
  have hlt : Int.log 10 q < e :=
    (Int.lt_zpow_iff_log_lt (b := 10) (by norm_num) hq).mp (by exact_mod_cast hhi)
  unfold position
  omega

theorem position_bounds {q : ℚ} (hq : 0 < q) :
    (10 : ℚ) ^ (position q - 1) ≤ q ∧ q < 10 ^ position q := by
  have hlo := Int.zpow_log_le_self (b := 10) (by norm_num) hq
  have hhi := Int.lt_zpow_succ_log_self (b := 10) (by norm_num) q
  unfold position
  rw [add_sub_cancel_right]
  exact ⟨by exact_mod_cast hlo, by exact_mod_cast hhi⟩

theorem mul_zpow_sub {q : ℚ} (e f : ℤ) (h : q < 10 ^ e) : q * 10 ^ (f - e) < 10 ^ f := by
  calc q * 10 ^ (f - e) < 10 ^ e * 10 ^ (f - e) := by
        exact mul_lt_mul_of_pos_right h (ten_zpow_pos _)
    _ = 10 ^ f := by rw [← zpow_add₀ (by norm_num), add_sub_cancel]

theorem le_mul_zpow_sub {q : ℚ} (e f : ℤ) (h : 10 ^ e ≤ q) : 10 ^ f ≤ q * 10 ^ (f - e) := by
  calc (10 : ℚ) ^ f = 10 ^ e * 10 ^ (f - e) := by
        rw [← zpow_add₀ (by norm_num), add_sub_cancel]
    _ ≤ q * 10 ^ (f - e) := mul_le_mul_of_nonneg_right h (ten_zpow_pos _).le

/-- The leading digits make a number of exactly `k` digits. -/
theorem leading_bounds {q : ℚ} (hq : 0 < q) {k : ℕ} (hk : 1 ≤ k) :
    10 ^ (k - 1) ≤ leading k q ∧ leading k q < 10 ^ k := by
  obtain ⟨hlo, hhi⟩ := position_bounds hq
  have hnonneg : 0 ≤ q * 10 ^ ((k : ℤ) - position q) :=
    mul_nonneg hq.le (ten_zpow_pos _).le
  constructor
  · apply Nat.le_floor
    have h := le_mul_zpow_sub (position q - 1) (k - 1) hlo
    rw [show (k : ℤ) - 1 - (position q - 1) = k - position q by ring] at h
    rw [Nat.cast_pow, Nat.cast_ofNat, ← zpow_natCast, Nat.cast_sub hk, Nat.cast_one]
    exact h
  · apply (Nat.floor_lt hnonneg).mpr
    have h := mul_zpow_sub (position q) k hhi
    rw [Nat.cast_pow, Nat.cast_ofNat, ← zpow_natCast]
    exact h

/-- Numbers of `k` digits at their positions. -/
theorem compare_scaled {k m n : ℕ} {e f : ℤ} (hm : 10 ^ (k - 1) ≤ m ∧ m < 10 ^ k)
    (hn : 10 ^ (k - 1) ≤ n ∧ n < 10 ^ k) (hk : 1 ≤ k) :
    compare ((m : ℚ) * 10 ^ (e - k)) (n * 10 ^ (f - k)) = (compare e f).then (compare m n) := by
  -- a lower position makes a smaller number
  have hlower : ∀ {m n : ℕ} {e f : ℤ}, m < 10 ^ k → 10 ^ (k - 1) ≤ n → e < f →
      (m : ℚ) * 10 ^ (e - k) < n * 10 ^ (f - k) := by
    intro m n e f hm hn hef
    have hm' : (m : ℚ) < 10 ^ (k : ℤ) := by
      rw [zpow_natCast]
      exact_mod_cast hm
    have hn' : (10 : ℚ) ^ ((k : ℤ) - 1) ≤ n := by
      rw [← Nat.cast_one, ← Nat.cast_sub hk, zpow_natCast]
      exact_mod_cast hn
    have hhi := mul_zpow_sub k e hm'
    have hlo := le_mul_zpow_sub (k - 1) (f - 1) hn'
    rw [show f - 1 - ((k : ℤ) - 1) = f - k by ring] at hlo
    exact (hhi.trans_le (zpow_le_zpow_right₀ (by norm_num) (by omega))).trans_le hlo
  rcases lt_trichotomy e f with hef | rfl | hef
  · rw [compare_lt_iff_lt.mpr (hlower hm.2 hn.1 hef), compare_lt_iff_lt.mpr hef]
    rfl
  · rw [compare_eq_iff_eq.mpr (rfl : e = e)]
    show _ = compare m n
    have hpos := ten_zpow_pos (e - k)
    rcases lt_trichotomy m n with hmn | rfl | hmn
    · rw [compare_lt_iff_lt.mpr hmn, compare_lt_iff_lt]
      exact mul_lt_mul_of_pos_right (by exact_mod_cast hmn) hpos
    · rw [compare_eq_iff_eq.mpr rfl, compare_eq_iff_eq.mpr rfl]
    · rw [compare_gt_iff_gt.mpr hmn, compare_gt_iff_gt]
      exact mul_lt_mul_of_pos_right (by exact_mod_cast hmn) hpos
  · rw [compare_gt_iff_gt.mpr (hlower hn.2 hm.1 hef), compare_gt_iff_gt.mpr hef]
    rfl

end Significant
