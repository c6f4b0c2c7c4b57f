import StellarDb.Lib.Keyspace

/-!
# The bytewise order

Facts about `compare` on byte strings that a range scan rests on: a common front part does
not count (`compare_append_self`), a difference found in time settles the comparison whatever
follows (`compare_append_of_length`), and a base-`b` reading of digits of one length is ordered
like the numbers it reads (`compare_add_mul`). Sorting by a byte string sorts
(`pairwise_mergeSort_by`).
-/

namespace Keyspaces

/-- A comparison and the comparison the other way round. -/
theorem compare_bytes_swap (a b : Bytes) : compare a b = (compare b a).swap :=
  Std.OrientedCmp.eq_swap

theorem compare_bytes_self (a : Bytes) : compare a a = .eq := Std.ReflCmp.compare_self

theorem pairwise_mergeSort_by {α : Type} (key : α → Bytes) (l : List α) :
    (l.mergeSort fun a b => (compare (key a) (key b)).isLE).Pairwise
      fun a b => (compare (key a) (key b)).isLE = true := by
  refine List.pairwise_mergeSort ?_ ?_ l
  · intro a b d hab hbd
    exact Std.TransCmp.isLE_trans hab hbd
  · intro a b
    rw [Bool.or_eq_true]
    cases hab : compare (key a) (key b) with
    | gt =>
      right
      rw [compare_bytes_swap, hab]
      rfl
    | _ => exact Or.inl rfl

@[simp] theorem compare_append_self (a x y : Bytes) :
    compare (a ++ x) (a ++ y) = compare x y := by
  induction a with
  | nil => rfl
  | cons c a ih =>
    have hself : compare c c = .eq := Std.ReflCmp.compare_self
    rw [List.cons_append, List.cons_append, List.compare_cons_cons, hself, ih]
    rfl

theorem compare_self_append (a x : Bytes) (hx : x ≠ []) : compare a (a ++ x) = .lt := by
  have h := compare_append_self a [] x
  rw [List.append_nil] at h
  rw [h]
  cases x with
  | nil => exact absurd rfl hx
  | cons b x => rfl

/-- A difference between strings of one length settles the order of everything that extends
them. -/
theorem compare_append_of_length {a b : Bytes} (hlen : a.length = b.length)
    (hne : compare a b ≠ .eq) (x y : Bytes) : compare (a ++ x) (b ++ y) = compare a b := by
  induction a generalizing b with
  | nil =>
    cases b with
    | nil => exact absurd rfl hne
    | cons d b => cases hlen
  | cons c a ih =>
    cases b with
    | nil => cases hlen
    | cons d b =>
      rw [List.compare_cons_cons] at hne
      rw [List.cons_append, List.cons_append, List.compare_cons_cons, List.compare_cons_cons]
      cases hcd : compare c d with
      | lt => rfl
      | gt => rfl
      | eq =>
        rw [hcd] at hne
        exact congrArg _ (ih (by simpa using hlen) hne)

/-- The order of two numbers written as a high and a low part. -/
theorem compare_add_mul {b l₁ l₂ r₁ r₂ : Nat} (h₁ : l₁ < b) (h₂ : l₂ < b) :
    compare (l₁ + b * r₁) (l₂ + b * r₂) = (compare r₁ r₂).then (compare l₁ l₂) := by
  rcases lt_trichotomy r₁ r₂ with hr | rfl | hr
  · have hstep : b * (r₁ + 1) ≤ b * r₂ := Nat.mul_le_mul_left b hr
    rw [Nat.mul_succ] at hstep
    have hlt : l₁ + b * r₁ < l₂ + b * r₂ := by omega
    rw [Nat.compare_eq_lt.mpr hlt, Nat.compare_eq_lt.mpr hr]
    rfl
  · have hself : compare r₁ r₁ = .eq := Nat.compare_eq_eq.mpr rfl
    rw [hself]
    show _ = compare l₁ l₂
    rcases lt_trichotomy l₁ l₂ with hl | rfl | hl
    · rw [Nat.compare_eq_lt.mpr hl, Nat.compare_eq_lt.mpr (by omega)]
    · rw [Nat.compare_eq_eq.mpr rfl, Nat.compare_eq_eq.mpr rfl]
    · rw [Nat.compare_eq_gt.mpr hl, Nat.compare_eq_gt.mpr (by omega)]
  · have hstep : b * (r₂ + 1) ≤ b * r₁ := Nat.mul_le_mul_left b hr
    rw [Nat.mul_succ] at hstep
    have hlt : l₂ + b * r₂ < l₁ + b * r₁ := by omega
    rw [Nat.compare_eq_gt.mpr hlt, Nat.compare_eq_gt.mpr hr]
    rfl

/-- Bytes below 256 are ordered like their numbers. -/
theorem compare_ofNat {m n : Nat} (hm : m < 256) (hn : n < 256) :
    compare (UInt8.ofNat m) (UInt8.ofNat n) = compare m n := by
  have hlt : UInt8.ofNat m < UInt8.ofNat n ↔ m < n := by
    rw [UInt8.lt_iff_toNat_lt, UInt8.toNat_ofNat', UInt8.toNat_ofNat', Nat.mod_eq_of_lt hm,
      Nat.mod_eq_of_lt hn]
  have heq : UInt8.ofNat m = UInt8.ofNat n ↔ m = n := by
    rw [← UInt8.toNat_inj, UInt8.toNat_ofNat', UInt8.toNat_ofNat', Nat.mod_eq_of_lt hm,
      Nat.mod_eq_of_lt hn]
  simp only [compare, compareOfLessAndEq, hlt, heq]

/-- Every other byte lies above zero. -/
theorem compare_zero_byte {c : UInt8} (hc : c ≠ 0) : compare 0 c = .lt := by
  have hpos : (0 : UInt8) < c := by
    rw [UInt8.lt_iff_toNat_lt]
    have hne : c.toNat ≠ 0 := fun h => hc (UInt8.toNat_inj.mp (by simpa using h))
    simpa using Nat.pos_of_ne_zero hne
  simp only [compare, compareOfLessAndEq, hpos, if_true]

/-- Every other byte lies below `0xFF`. -/
theorem lt_ff_of_ne {c : UInt8} (hc : c ≠ 0xFF) : c < 0xFF := by
  have hne : c.toNat ≠ 255 := fun h => hc (UInt8.toNat_inj.mp h)
  have hlt := c.toNat_lt
  rw [UInt8.lt_iff_toNat_lt]
  show c.toNat < 255
  omega

theorem compare_byte_ff {c : UInt8} (hc : c ≠ 0xFF) : compare c 0xFF = .lt := by
  simp only [compare, compareOfLessAndEq, lt_ff_of_ne hc, if_true]

/-- Nothing lies between a byte and the next one. -/
theorem compare_add_one {b c : UInt8} (hb : b < 0xFF) :
    compare c (b + 1) = .lt ↔ compare c b ≠ .gt := by
  have hnat : (b + 1).toNat = b.toNat + 1 := by
    rw [UInt8.lt_iff_toNat_lt] at hb
    have h255 : (0xFF : UInt8).toNat = 255 := rfl
    rw [UInt8.toNat_add]
    show (b.toNat + 1) % 2 ^ 8 = _
    omega
  have hlt : c < b + 1 ↔ c.toNat < b.toNat + 1 := by rw [UInt8.lt_iff_toNat_lt, hnat]
  have hlt' : c < b ↔ c.toNat < b.toNat := UInt8.lt_iff_toNat_lt
  have heq : c = b ↔ c.toNat = b.toNat := UInt8.toNat_inj.symm
  simp only [compare, compareOfLessAndEq, hlt, hlt', heq]
  split_ifs <;> simp <;> omega

/-- Complementing every byte turns the order round. -/
theorem compare_map_complement {a b : Bytes} (hlen : a.length = b.length) :
    compare (a.map (0xFF - ·)) (b.map (0xFF - ·)) = compare b a := by
  induction a generalizing b with
  | nil =>
    cases b with
    | nil => rfl
    | cons d b => cases hlen
  | cons c a ih =>
    cases b with
    | nil => cases hlen
    | cons d b =>
      have hbyte : compare (0xFF - c) (0xFF - d) = compare d c := by
        have hsub : ∀ x : UInt8, (0xFF - x).toNat = 255 - x.toNat := by
          intro x
          have hx := x.toNat_lt
          rw [UInt8.toNat_sub_of_le _ _ (by rw [UInt8.le_iff_toNat_le]; simp; omega)]
          rfl
        have hc := c.toNat_lt
        have hd := d.toNat_lt
        have hlt : (0xFF - c < 0xFF - d) ↔ d < c := by
          rw [UInt8.lt_iff_toNat_lt, UInt8.lt_iff_toNat_lt, hsub, hsub]
          omega
        have heq : (0xFF - c = 0xFF - d) ↔ d = c := by
          rw [← UInt8.toNat_inj, ← UInt8.toNat_inj, hsub, hsub]
          omega
        simp only [compare, compareOfLessAndEq, hlt, heq]
      rw [List.map_cons, List.map_cons, List.compare_cons_cons, List.compare_cons_cons, hbyte,
        ih (by simpa using hlen)]

end Keyspaces
