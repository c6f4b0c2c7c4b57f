import Mathlib.Order.MinMax
import Mathlib.Tactic.NormNum

/-!
# Machine words of 64 bits

Checked, saturating and casting arithmetic on `UInt64` and `Int64`, each with the one fact that
says what it does to the number the word stands for.
-/

namespace Words

/-! ## Casts -/

/-- A signed word read as unsigned keeps its residue. -/
theorem toNat_toUInt64 (n : Int64) : (n.toUInt64.toNat : Int) = n.toInt % 2 ^ 64 := by
  have hcond := BitVec.toInt_eq_toNat_cond n.toBitVec
  have hlt := n.toUInt64.toNat_lt
  have hint : n.toBitVec.toInt = n.toInt := rfl
  have hnat : n.toBitVec.toNat = n.toUInt64.toNat := rfl
  rw [hint, hnat] at hcond
  split at hcond <;> omega

/-- An unsigned word read as signed keeps what fits. -/
theorem toInt_toInt64 {n : UInt64} (h : n.toNat < 2 ^ 63) : n.toInt64.toInt = n.toNat := by
  have hcond := BitVec.toInt_eq_toNat_cond n.toBitVec
  have hint : n.toBitVec.toInt = n.toInt64.toInt := rfl
  have hnat : n.toBitVec.toNat = n.toNat := rfl
  rw [hint, hnat] at hcond
  rw [hcond, if_pos (by omega)]

theorem toNat_ofNat (n : Nat) : (UInt64.ofNat n).toNat = n % 2 ^ 64 :=
  UInt64.toNat_ofNat'

/-- Clamping to the signed range. -/
theorem toInt_ofIntClamp (i : Int) :
    (Int64.ofIntClamp i).toInt = max (-2 ^ 63) (min i (2 ^ 63 - 1)) := by
  have hmin : Int64.minValue.toInt = -2 ^ 63 := rfl
  have hmax : Int64.maxValue.toInt = 2 ^ 63 - 1 := rfl
  unfold Int64.ofIntClamp
  split
  · next hlo =>
    split
    · next hhi =>
      rw [Int64.toInt_ofIntLE]
      omega
    · next hhi => omega
  · next hlo => omega

/-! ## Saturating arithmetic -/

/-- `a.saturating_add(b)` on `i64`. -/
def saturatingAddI64 (a b : Int64) : Int64 := .ofIntClamp (a.toInt + b.toInt)

/-- `a.saturating_sub(b)` on `i64`. -/
def saturatingSubI64 (a b : Int64) : Int64 := .ofIntClamp (a.toInt - b.toInt)

/-- `a.unsigned_abs()` -/
def unsignedAbs (a : Int64) : UInt64 := .ofNat a.toInt.natAbs

/-- `a.saturating_add(b)` on `u64`. -/
def saturatingAddU64 (a b : UInt64) : UInt64 := .ofNat (min (a.toNat + b.toNat) (2 ^ 64 - 1))

/-- `a.saturating_sub(b)` on `u64`. -/
def saturatingSubU64 (a b : UInt64) : UInt64 := .ofNat (a.toNat - b.toNat)

/-- `a.saturating_mul(b)` on `u64`. -/
def saturatingMulU64 (a b : UInt64) : UInt64 := .ofNat (min (a.toNat * b.toNat) (2 ^ 64 - 1))

theorem saturatingAddI64_toInt (a b : Int64) :
    (saturatingAddI64 a b).toInt = max (-2 ^ 63) (min (a.toInt + b.toInt) (2 ^ 63 - 1)) :=
  toInt_ofIntClamp _

theorem saturatingSubI64_toInt (a b : Int64) :
    (saturatingSubI64 a b).toInt = max (-2 ^ 63) (min (a.toInt - b.toInt) (2 ^ 63 - 1)) :=
  toInt_ofIntClamp _

theorem unsignedAbs_toNat (a : Int64) : (unsignedAbs a).toNat = a.toInt.natAbs := by
  have hlo := a.le_toInt
  have hhi := a.toInt_lt
  show (UInt64.ofNat a.toInt.natAbs).toNat = a.toInt.natAbs
  rw [toNat_ofNat]
  omega

theorem saturatingMulU64_toNat (a b : UInt64) :
    (saturatingMulU64 a b).toNat = min (a.toNat * b.toNat) (2 ^ 64 - 1) := by
  show (UInt64.ofNat _).toNat = _
  rw [toNat_ofNat]
  omega

/-! ## Checked arithmetic -/

/-- `a.checked_add(b)` on `u64`. -/
def checkedAddU64 (a b : UInt64) : Option UInt64 :=
  if a.toNat + b.toNat < 2 ^ 64 then some (a + b) else none

/-- `a.checked_mul(b)` on `u64`. -/
def checkedMulU64 (a b : UInt64) : Option UInt64 :=
  if a.toNat * b.toNat < 2 ^ 64 then some (a * b) else none

/-- `a.checked_add(b)` on `i64`. -/
def checkedAddI64 (a b : Int64) : Option Int64 :=
  if -2 ^ 63 ≤ a.toInt + b.toInt ∧ a.toInt + b.toInt < 2 ^ 63 then some (a + b) else none

/-- `a.checked_sub(b)` on `i64`. -/
def checkedSubI64 (a b : Int64) : Option Int64 :=
  if -2 ^ 63 ≤ a.toInt - b.toInt ∧ a.toInt - b.toInt < 2 ^ 63 then some (a - b) else none

/-- The exact result as a word, or nothing when it does not fit. -/
def exactU64 (n : Nat) : Option UInt64 := if n < 2 ^ 64 then some (.ofNat n) else none

theorem exactU64_toNat (n : UInt64) : exactU64 n.toNat = some n := by
  rw [exactU64, if_pos n.toNat_lt, UInt64.ofNat_toNat]

theorem checkedAddU64_eq (a b : UInt64) : checkedAddU64 a b = exactU64 (a.toNat + b.toNat) := by
  unfold checkedAddU64 exactU64
  rw [UInt64.ofNat_add, UInt64.ofNat_toNat, UInt64.ofNat_toNat]

theorem checkedMulU64_eq (a b : UInt64) : checkedMulU64 a b = exactU64 (a.toNat * b.toNat) := by
  unfold checkedMulU64 exactU64
  rw [UInt64.ofNat_mul, UInt64.ofNat_toNat, UInt64.ofNat_toNat]

end Words
