import StellarDb.Lib.Significant
import StellarDb.Encoding.Order
import StellarDb.Query.KeyTexts

/-!
# StellarDb — the numbers that encoded bytes stand for (`storage/encoding.rs`)

The three number encoders agree on one format: sixteen bytes are a sign, a position and 26 digits,
and stand for one number (`EncodesNumber`); the bytes of two numbers compare as the numbers do
(`EncodesNumber.compare_eq`). So an encoder orders values exactly as the numbers it keeps of them:
an integer is kept whole, a decimal loses what lies behind its first 26 digits, and a double of
magnitude `2 ^ 63` becomes the integer next to it (`keptNumber`).
-/

namespace StellarDb

open Keyspaces Significant

/-! ## Digits -/

/-- The number that decimal digits make. -/
def digitsNumber (ds : List Nat) : Nat := ds.foldl (fun acc d => acc * 10 + d) 0

theorem digitsNumber_append_singleton (ds : List Nat) (d : Nat) :
    digitsNumber (ds ++ [d]) = digitsNumber ds * 10 + d := by
  rw [digitsNumber, List.foldl_append]
  rfl

theorem digitsNumber_append (ds es : List Nat) :
    digitsNumber (ds ++ es) = digitsNumber ds * 10 ^ es.length + digitsNumber es := by
  induction es using List.reverseRecOn with
  | nil =>
    rw [List.append_nil, List.length_nil, pow_zero, Nat.mul_one]
    rfl
  | append_singleton es e ih =>
    rw [← List.append_assoc, digitsNumber_append_singleton, ih, digitsNumber_append_singleton,
      List.length_append, List.length_singleton, pow_succ]
    ring

theorem digitsNumber_lt {ds : List Nat} (h : ∀ d ∈ ds, d < 10) :
    digitsNumber ds < 10 ^ ds.length := by
  induction ds using List.reverseRecOn with
  | nil => decide
  | append_singleton ds d ih =>
    have hds := ih fun x hx => h x (List.mem_append_left _ hx)
    have hd := h d (List.mem_append_right _ List.mem_cons_self)
    rw [digitsNumber_append_singleton, List.length_append, List.length_singleton, pow_succ]
    omega

/-- The digits of the number that digits make. -/
theorem bcdDigits_digitsNumber {ds : List Nat} (h : ∀ d ∈ ds, d < 10) :
    bcdDigits (digitsNumber ds) ds.length = ds := by
  induction ds using List.reverseRecOn with
  | nil => rfl
  | append_singleton ds d ih =>
    have hds := ih fun x hx => h x (List.mem_append_left _ hx)
    have hd := h d (List.mem_append_right _ List.mem_cons_self)
    rw [digitsNumber_append_singleton, List.length_append, List.length_singleton, bcdDigits,
      List.range_succ, List.map_append]
    congr 1
    · refine Eq.trans ?_ hds
      unfold bcdDigits
      apply List.map_congr_left
      intro i hi
      have hi := List.mem_range.mp hi
      rw [show ds.length + 1 - 1 - i = (ds.length - 1 - i) + 1 by omega, pow_succ',
        ← Nat.div_div_eq_div_mul, show (digitsNumber ds * 10 + d) / 10 = digitsNumber ds by omega]
    · rw [List.map_singleton, Nat.add_sub_cancel, Nat.sub_self, pow_zero, Nat.div_one]
      congr 1
      omega

theorem digitsNumber_bcdDigits (n c : Nat) : digitsNumber (bcdDigits n c) = n % 10 ^ c := by
  induction c with
  | zero => rw [pow_zero, Nat.mod_one]; rfl
  | succ c ih =>
    rw [bcdDigits_succ, ← List.singleton_append, digitsNumber_append, ih, bcdDigits_length,
      Nat.mod_pow_succ]
    show (0 * 10 + n / 10 ^ c % 10) * 10 ^ c + n % 10 ^ c = _
    ring

theorem digitsNumber_zeros (j : Nat) : digitsNumber (List.replicate j 0) = 0 := by
  induction j with
  | zero => rfl
  | succ j ih => rw [List.replicate_succ', digitsNumber_append_singleton, ih]

theorem digitsNumber_take {ds : List Nat} (h : ∀ d ∈ ds, d < 10) (k : Nat) :
    digitsNumber (ds.take k) = digitsNumber ds / 10 ^ (ds.length - k) := by
  have hrest : digitsNumber (ds.drop k) < 10 ^ (ds.drop k).length :=
    digitsNumber_lt fun d hd => h d (List.mem_of_mem_drop hd)
  have hsplit := digitsNumber_append (ds.take k) (ds.drop k)
  rw [List.length_drop] at hrest hsplit
  rw [List.take_append_drop] at hsplit
  rw [hsplit, Nat.add_comm, Nat.add_mul_div_right _ _ (by positivity), Nat.div_eq_of_lt hrest,
    Nat.zero_add]

/-- The first 26 digits, filled up with zeros. -/
def firstDigits (ds : List Nat) : List Nat := (ds ++ List.replicate 26 0).take 26

theorem firstDigits_length (ds : List Nat) : (firstDigits ds).length = 26 := by
  rw [firstDigits, List.length_take, List.length_append, List.length_replicate]
  omega

theorem firstDigits_lt {ds : List Nat} (h : ∀ d ∈ ds, d < 10) : ∀ d ∈ firstDigits ds, d < 10 := by
  intro d hd
  rcases List.mem_append.mp (List.mem_of_mem_take hd) with hd | hd
  · exact h d hd
  · rw [List.eq_of_mem_replicate hd]
    decide

theorem digitsNumber_firstDigits {ds : List Nat} (h : ∀ d ∈ ds, d < 10) :
    digitsNumber (firstDigits ds) = digitsNumber ds * 10 ^ 26 / 10 ^ ds.length := by
  have hall : ∀ d ∈ ds ++ List.replicate 26 0, d < 10 := by
    intro d hd
    rcases List.mem_append.mp hd with hd | hd
    · exact h d hd
    · rw [List.eq_of_mem_replicate hd]
      decide
  rw [firstDigits, digitsNumber_take hall, digitsNumber_append, digitsNumber_zeros,
    List.length_append, List.length_replicate, Nat.add_sub_cancel, Nat.add_zero]

/-- The mantissa bytes: thirteen of them, filled up with zeros. -/
theorem packBcd_fill (ds : List Nat) :
    (packBcd ds).take 13 ++ List.replicate (13 - (packBcd ds).length) 0
      = packBcd (firstDigits ds) := by
  have hlen : (packBcd (firstDigits ds)).length = 13 := by
    rw [packBcd_length, firstDigits_length]
  have hget : ∀ i < 13, (packBcd (firstDigits ds))[i]? =
      some (UInt8.ofNat (ds.getD (2 * i) 0 * 16 + ds.getD (2 * i + 1) 0)) := by
    intro i hi
    have hdigit : ∀ j < 26, (firstDigits ds).getD j 0 = ds.getD j 0 := by
      intro j hj
      rw [List.getD_eq_getElem?_getD, List.getD_eq_getElem?_getD, firstDigits,
        List.getElem?_take_of_lt hj, List.getElem?_append]
      split
      · rfl
      · next hout =>
        rw [List.getElem?_replicate, List.getElem?_eq_none (not_lt.mp hout)]
        split <;> rfl
    unfold packBcd
    rw [firstDigits_length, List.getElem?_map, List.getElem?_range hi, Option.map_some,
      hdigit _ (by omega), hdigit _ (by omega)]
  apply List.ext_getElem?
  intro i
  by_cases hi : i < 13
  · rw [hget i hi]
    by_cases hin : i < (ds.length + 1) / 2
    · rw [List.getElem?_append_left (by rw [List.length_take, packBcd_length]; omega),
        List.getElem?_take_of_lt hi, packBcd, List.getElem?_map, List.getElem?_range hin,
        Option.map_some]
    · have hzero : ∀ j, 2 * i ≤ j → ds.getD j 0 = 0 := by
        intro j hj
        rw [List.getD_eq_getElem?_getD, List.getElem?_eq_none (by omega), Option.getD_none]
      rw [List.getElem?_append_right (by rw [List.length_take, packBcd_length]; omega),
        List.getElem?_replicate, List.length_take, packBcd_length, if_pos (by omega),
        hzero _ le_rfl, hzero _ (by omega)]
      rfl
  · have hout : (packBcd (firstDigits ds))[i]? = none :=
      List.getElem?_eq_none (by rw [hlen]; omega)
    rw [hout, List.getElem?_eq_none]
    rw [List.length_append, List.length_take, List.length_replicate]
    omega

/-! ## The format -/

/-- The two bytes of a position. -/
def positionBytes (e : Int) : Bytes :=
  [UInt8.ofNat ((0x4000 + e).toNat / 256), UInt8.ofNat ((0x4000 + e).toNat % 256)]

/-- What follows the sign byte of a positive number: its position and 26 digits. -/
def numberBytes (e : Int) (n : Nat) : Bytes := positionBytes e ++ intToBcd n 26

/-- A position that two bytes hold, and 26 digits of which the first is not zero. -/
structure Normal (e : Int) (n : Nat) : Prop where
  digits : 10 ^ (26 - 1) ≤ n ∧ n < 10 ^ 26
  position : -8192 ≤ e ∧ e ≤ 8192

theorem numberBytes_length (e : Int) (n : Nat) : (numberBytes e n).length = 15 := by
  show (intToBcd n 26).length + 1 + 1 = 15
  rw [intToBcd_length]

theorem compare_numberBytes {e f : Int} {m n : Nat} (hm : Normal e m) (hn : Normal f n) :
    compare (numberBytes e m) (numberBytes f n) = (compare e f).then (compare m n) := by
  have hm' := hm.position
  have hn' := hn.position
  have hposition : compare e f = compare (0x4000 + e).toNat (0x4000 + f).toNat := by
    rcases lt_trichotomy e f with h | rfl | h
    · rw [compare_lt_iff_lt.mpr h, Nat.compare_eq_lt.mpr (by omega)]
    · rw [compare_eq_iff_eq.mpr rfl, compare_eq_iff_eq.mpr rfl]
    · rw [compare_gt_iff_gt.mpr h, Nat.compare_eq_gt.mpr (by omega)]
  have hsplit := @compare_add_mul 256 ((0x4000 + e).toNat % 256) ((0x4000 + f).toNat % 256)
    ((0x4000 + e).toNat / 256) ((0x4000 + f).toNat / 256) (Nat.mod_lt _ (by decide))
    (Nat.mod_lt _ (by decide))
  rw [Nat.mod_add_div, Nat.mod_add_div] at hsplit
  unfold numberBytes positionBytes
  rw [List.cons_append, List.cons_append, List.nil_append, List.cons_append, List.cons_append,
    List.nil_append, List.compare_cons_cons, List.compare_cons_cons,
    compare_ofNat (by omega) (by omega), compare_ofNat (by omega) (by omega),
    compare_intToBcd hm.digits.2 hn.digits.2, hposition, hsplit]
  cases compare ((0x4000 + e).toNat / 256) ((0x4000 + f).toNat / 256) <;> rfl

/-- The number that sixteen bytes stand for. -/
inductive EncodesNumber : Bytes → ℚ → Prop where
  | zero : EncodesNumber numericZero 0
  | pos {e : Int} {n : Nat} (h : Normal e n) :
    EncodesNumber (numericSignPositive :: numberBytes e n) (n * 10 ^ (e - (26 : ℕ)))
  | neg {e : Int} {n : Nat} (h : Normal e n) :
    EncodesNumber (numericSignNegative :: (numberBytes e n).map (0xFF - ·))
      (-(n * 10 ^ (e - (26 : ℕ))))

theorem Normal.scaled_pos {e : Int} {n : Nat} (h : Normal e n) :
    (0 : ℚ) < n * 10 ^ (e - (26 : ℕ)) := by
  have hn : 0 < n := lt_of_lt_of_le (by decide) h.digits.1
  exact mul_pos (by exact_mod_cast hn) (ten_zpow_pos _)

/-- Encoded numbers are ordered by their bytes. -/
theorem EncodesNumber.compare_eq {a b : Bytes} {q r : ℚ} (ha : EncodesNumber a q)
    (hb : EncodesNumber b r) : compare a b = compare q r := by
  have h0f : compare numericSignNegative numericSignPositive = .lt := by decide
  have h08 : compare numericSignNegative numericSignZero = .lt := by decide
  have h8f : compare numericSignZero numericSignPositive = .lt := by decide
  have hff : compare numericSignPositive numericSignPositive = .eq := by decide
  have h00 : compare numericSignNegative numericSignNegative = .eq := by decide
  have hf0 : compare numericSignPositive numericSignNegative = .gt := by decide
  have h80 : compare numericSignZero numericSignNegative = .gt := by decide
  have hf8 : compare numericSignPositive numericSignZero = .gt := by decide
  cases ha with
  | zero =>
    cases hb with
    | zero => rw [compare_bytes_self, compare_eq_iff_eq.mpr rfl]
    | pos hn =>
      rw [compare_lt_iff_lt.mpr hn.scaled_pos, numericZero, List.compare_cons_cons, h8f]
      rfl
    | neg hn =>
      rw [compare_gt_iff_gt.mpr (neg_lt_zero.mpr hn.scaled_pos), numericZero,
        List.compare_cons_cons, h80]
      rfl
  | pos hm =>
    cases hb with
    | zero =>
      rw [compare_gt_iff_gt.mpr hm.scaled_pos, numericZero, List.compare_cons_cons, hf8]
      rfl
    | pos hn =>
      rw [List.compare_cons_cons, hff, compare_numberBytes hm hn,
        compare_scaled hm.digits hn.digits (by decide)]
      rfl
    | neg hn =>
      rw [List.compare_cons_cons, hf0,
        compare_gt_iff_gt.mpr ((neg_lt_zero.mpr hn.scaled_pos).trans hm.scaled_pos)]
      rfl
  | neg hm =>
    cases hb with
    | zero =>
      rw [compare_lt_iff_lt.mpr (neg_lt_zero.mpr hm.scaled_pos), numericZero,
        List.compare_cons_cons, h08]
      rfl
    | pos hn =>
      rw [List.compare_cons_cons, h0f,
        compare_lt_iff_lt.mpr ((neg_lt_zero.mpr hm.scaled_pos).trans hn.scaled_pos)]
      rfl
    | neg hn =>
      have hneg : ∀ q r : ℚ, compare (-q) (-r) = compare r q := by
        intro q r
        rcases lt_trichotomy r q with h | rfl | h
        · rw [compare_lt_iff_lt.mpr h, compare_lt_iff_lt.mpr (neg_lt_neg h)]
        · rw [compare_eq_iff_eq.mpr rfl, compare_eq_iff_eq.mpr rfl]
        · rw [compare_gt_iff_gt.mpr h, compare_gt_iff_gt.mpr (neg_lt_neg h)]
      rw [List.compare_cons_cons, h00,
        compare_map_complement (by rw [numberBytes_length, numberBytes_length]),
        compare_numberBytes hn hm, hneg, compare_scaled hn.digits hm.digits (by decide)]
      rfl

/-! ## What the encoders keep -/

/-- Decimal digits, the first of which is not zero. -/
structure LeadingDigits (ds : List Nat) : Prop where
  lt : ∀ d ∈ ds, d < 10
  lead : 10 ^ (ds.length - 1) ≤ digitsNumber ds
  ne_nil : ds ≠ []

namespace LeadingDigits

variable {ds : List Nat} (h : LeadingDigits ds) (e : Int)

include h

theorem position_eq : position (digitsNumber ds * 10 ^ (e - ds.length)) = e := by
  have hlen : 1 ≤ ds.length := List.length_pos_iff.mpr h.ne_nil
  have hlo : (10 : ℚ) ^ ((ds.length : ℤ) - 1) ≤ digitsNumber ds := by
    rw [← Nat.cast_one, ← Nat.cast_sub hlen, zpow_natCast]
    exact_mod_cast h.lead
  have hhi : (digitsNumber ds : ℚ) < 10 ^ (ds.length : ℤ) := by
    rw [zpow_natCast]
    exact_mod_cast digitsNumber_lt h.lt
  apply Significant.position_eq
  · have hle := le_mul_zpow_sub _ (e - 1) hlo
    rw [show e - 1 - ((ds.length : ℤ) - 1) = e - ds.length by ring] at hle
    exact hle
  · exact mul_zpow_sub _ e hhi

theorem pos : (0 : ℚ) < digitsNumber ds * 10 ^ (e - ds.length) := by
  have hn : 0 < digitsNumber ds := lt_of_lt_of_le (by positivity) h.lead
  exact mul_pos (by exact_mod_cast hn) (ten_zpow_pos _)

theorem leading_eq :
    leading 26 (digitsNumber ds * 10 ^ (e - ds.length)) = digitsNumber (firstDigits ds) := by
  rw [leading, h.position_eq, mul_assoc, ← zpow_add₀ (by norm_num),
    show e - ds.length + (((26 : ℕ) : ℤ) - e) = ((26 : ℕ) : ℤ) - ds.length by ring,
    zpow_sub₀ (by norm_num), zpow_natCast, zpow_natCast, digitsNumber_firstDigits h.lt,
    ← mul_div_assoc]
  exact_mod_cast Nat.floor_div_eq_div (K := ℚ) (digitsNumber ds * 10 ^ 26) (10 ^ ds.length)

/-- Position and packed digits, cut or filled to fifteen bytes. -/
theorem numberBytes_eq :
    positionBytes e ++ (packBcd ds).take 13 ++ List.replicate (13 - (packBcd ds).length) 0
      = numberBytes e (leading 26 (digitsNumber ds * 10 ^ (e - ds.length))) := by
  rw [List.append_assoc, packBcd_fill, h.leading_eq, numberBytes]
  show _ = _ ++ packBcd (bcdDigits _ 26)
  rw [← firstDigits_length ds, bcdDigits_digitsNumber (firstDigits_lt h.lt)]

theorem normal (he : -8192 ≤ e ∧ e ≤ 8192) :
    Normal e (leading 26 (digitsNumber ds * 10 ^ (e - ds.length))) :=
  ⟨leading_bounds (h.pos e) (by decide), he⟩

theorem truncate_eq : truncate 26 (digitsNumber ds * 10 ^ (e - ds.length)) =
    leading 26 (digitsNumber ds * 10 ^ (e - ds.length)) * 10 ^ (e - (26 : ℕ)) := by
  rw [truncate, h.position_eq]

end LeadingDigits

/-! ### Integers -/

theorem leadingDigits_bcdDigits {n c : Nat} (hc : 1 ≤ c) (hlo : 10 ^ (c - 1) ≤ n)
    (hhi : n < 10 ^ c) : LeadingDigits (bcdDigits n c) where
  lt d hd := by
    obtain ⟨i, -, rfl⟩ := List.mem_map.mp hd
    exact Nat.mod_lt _ (by decide)
  lead := by
    rw [bcdDigits_length, digitsNumber_bcdDigits, Nat.mod_eq_of_lt hhi]
    exact hlo
  ne_nil h := by
    have := bcdDigits_length n c
    rw [h] at this
    exact absurd this (by simp; omega)

/-- The bytes of a magnitude, which is kept whole. -/
theorem magnitudeBytes_eq {n : Nat} (h0 : 0 < n) (h : n < 10 ^ 20) :
    ∃ e m, Normal e m ∧ magnitudeBytes n = numberBytes e m ∧
      (n : ℚ) = m * 10 ^ (e - (26 : ℕ)) := by
  obtain ⟨hc1, hc20, hhi, hlo⟩ := countDigitsU64_spec h0 h
  generalize hcount : countDigitsU64 n = c at hc1 hc20 hhi hlo
  have hlead := leadingDigits_bcdDigits hc1 hlo hhi
  have hnumber : digitsNumber (bcdDigits n c) = n := by
    rw [digitsNumber_bcdDigits, Nat.mod_eq_of_lt hhi]
  have hq : (digitsNumber (bcdDigits n c) : ℚ) * 10 ^ ((c : ℤ) - (bcdDigits n c).length) = n := by
    rw [hnumber, bcdDigits_length, sub_self, zpow_zero, mul_one]
  have hbytes := hlead.numberBytes_eq c
  have hnormal := hlead.normal c (by omega)
  have hdigits := hlead.leading_eq c
  rw [hq] at hbytes hnormal hdigits
  refine ⟨c, leading 26 (n : ℚ), hnormal, ?_, ?_⟩
  · have hlen := intToBcd_length n c
    have hposition : positionBytes c = [0x40, UInt8.ofNat c] := by
      unfold positionBytes
      rw [show ((0x4000 + (c : ℤ)).toNat / 256) = 0x40 by omega,
        show ((0x4000 + (c : ℤ)).toNat % 256) = c by omega]
      rfl
    rw [← hbytes, magnitudeBytes, hcount, hposition]
    show _ = [0x40, UInt8.ofNat c] ++ (intToBcd n c).take 13 ++ List.replicate
      (13 - (intToBcd n c).length) 0
    rw [List.take_of_length_le (by omega)]
    rfl
  · rw [hdigits, digitsNumber_firstDigits hlead.lt, hnumber, bcdDigits_length,
      Nat.mul_div_assoc _ (Nat.pow_dvd_pow 10 (by omega)), Nat.pow_div (by omega) (by decide),
      Nat.cast_mul, Nat.cast_pow, Nat.cast_ofNat, mul_assoc, ← zpow_natCast, ← zpow_add₀ (by norm_num),
      Nat.cast_sub (by omega), show ((26 : ℕ) : ℤ) - c + (c - (26 : ℕ)) = 0 by ring, zpow_zero,
      mul_one]

theorem encodesNumber_int {n : Int} (h : n.natAbs < 10 ^ 20) :
    EncodesNumber (encodeI64FixedWidth n) n := by
  rcases lt_trichotomy n 0 with hneg | rfl | hpos
  · obtain ⟨e, m, hnormal, hbytes, hq⟩ := magnitudeBytes_eq (n := n.natAbs) (by omega) h
    rw [encodeI64FixedWidth_neg hneg h, hbytes,
      show (n : ℚ) = -(m * 10 ^ (e - (26 : ℕ))) by
        rw [← hq, Nat.cast_natAbs, abs_of_neg hneg, Int.cast_neg, neg_neg]]
    exact .neg hnormal
  · rw [Int.cast_zero]
    exact .zero
  · obtain ⟨e, m, hnormal, hbytes, hq⟩ := magnitudeBytes_eq (n := n.natAbs) (by omega) h
    rw [encodeI64FixedWidth_pos hpos h, hbytes,
      show (n : ℚ) = m * 10 ^ (e - (26 : ℕ)) by
        rw [← hq, Nat.cast_natAbs, abs_of_pos hpos]]
    exact .pos hnormal

/-! ### Doubles -/

/-- `abs_f.trunc()` is `abs_f` where the significand says so. -/
theorem F64.absRat_eq_truncAbs {f : F64} (h : f.isIntegral = true) : f.absRat = f.truncAbs := by
  unfold F64.absRat F64.truncAbs
  split
  · next hexp =>
    obtain ⟨k, hk⟩ := Int.eq_ofNat_of_zero_le hexp
    rw [hk, zpow_natCast, Int.toNat_natCast, Nat.cast_mul, Nat.cast_pow, Nat.cast_ofNat]
  · next hexp =>
    have hmod : f.significand % 2 ^ (-f.exponent).toNat = 0 := by
      simpa [F64.isIntegral, hexp] using h
    obtain ⟨k, hk⟩ : ∃ k : ℕ, f.exponent = -k := ⟨(-f.exponent).toNat, by omega⟩
    rw [hk, neg_neg, Int.toNat_natCast] at hmod ⊢
    rw [Nat.cast_div (Nat.dvd_of_mod_eq_zero hmod) (by positivity), Nat.cast_pow, Nat.cast_ofNat,
      zpow_neg, zpow_natCast, div_eq_mul_inv]

/-- Doubles of integers up to `2 ^ 63`. -/
def F64.isInt64Like (f : F64) : Bool :=
  !f.isNan && !f.isInfinite && f.isIntegral && decide (f.truncAbs ≤ 2 ^ 63)

/-- What is kept of a number that comes as a double. -/
def clamp (q : ℚ) : ℚ := max (-(2 ^ 63 - 1)) (min q (2 ^ 63 - 1))

theorem encodesNumber_float {f : F64} (h : f.isInt64Like = true) :
    EncodesNumber (encodeF64FixedWidth f) (clamp f.toRat) := by
  simp only [F64.isInt64Like, Bool.and_eq_true, Bool.not_eq_true', decide_eq_true_eq] at h
  obtain ⟨⟨⟨hnan, hinf⟩, hint⟩, hle⟩ := h
  have habs := F64.absRat_eq_truncAbs hint
  unfold encodeF64FixedWidth
  rw [if_neg (by simp [hnan]), if_neg (by simp [hinf]), if_neg (by simp [hinf])]
  split
  · next hzero =>
    have hsig : f.absRat = 0 := by
      simp only [F64.isZero, Bool.and_eq_true, decide_eq_true_eq] at hzero
      rw [F64.absRat, F64.significand, if_pos hzero.1, hzero.2, Nat.cast_zero, zero_mul]
    have hq : clamp f.toRat = 0 := by
      rw [F64.toRat, hsig, neg_zero, ite_self, clamp]
      norm_num
    rw [hq]
    exact .zero
  · next hzero =>
    rw [if_pos (by rw [hint, Bool.true_and]; exact decide_eq_true hle)]
    -- the integer that is encoded is the clamped number
    have hclamp : clamp f.toRat =
        ((if f.isNegative then -min (f.truncAbs : ℤ) (2 ^ 63 - 1)
          else min (f.truncAbs : ℤ) (2 ^ 63 - 1) : ℤ) : ℚ) := by
      have hnonneg : (0 : ℚ) ≤ f.truncAbs := Nat.cast_nonneg _
      rw [F64.toRat, habs, clamp]
      split
      · rw [min_eq_left (by linarith)]
        push_cast
        rw [← max_neg_neg, max_comm]
        norm_num
      · rw [max_eq_right (le_min (by linarith) (by norm_num))]
        push_cast
        norm_num
    rw [hclamp]
    apply encodesNumber_int
    split <;> omega

/-! ### Decimals -/

/-- What is kept of a decimal: its first 26 significant digits. -/
def cut (q : ℚ) : ℚ := if q < 0 then -truncate 26 (-q) else truncate 26 q

/-- How `DecimalBytes` holds a number: sign byte, biased position and packed digits, complemented
for negative numbers. -/
structure HoldsNumber (dec : DecimalBytes) (q : ℚ) : Prop where
  isNan : dec.isNan = false
  isPosInfinity : dec.isPosInfinity = false
  isNegInfinity : dec.isNegInfinity = false
  isZero : dec.isZero = decide (q = 0)
  bytes : q ≠ 0 → ∃ (ds : List Nat) (e : Int), LeadingDigits ds ∧
    |q| = digitsNumber ds * 10 ^ (e - ds.length) ∧
    dec.bytes =
      if q < 0 then numericSignNegative :: (positionBytes e ++ packBcd ds).map (0xFF - ·)
      else numericSignPositive :: (positionBytes e ++ packBcd ds)

namespace Decimal

theorem abs_toRat (d : Decimal) : |d.toRat| = d.mantissa.val / 10 ^ d.scale.val := by
  unfold toRat
  rw [abs_div, abs_of_pos (show (0 : ℚ) < 10 ^ d.scale.val by positivity)]
  split
  · rw [abs_neg, Nat.abs_cast]
  · rw [Nat.abs_cast]

theorem position_bounds {d : Decimal} (h : d.toRat ≠ 0) :
    -1000 ≤ position |d.toRat| ∧ position |d.toRat| ≤ 1000 := by
  obtain ⟨hlo, hhi⟩ := Significant.position_bounds (abs_pos.mpr h)
  have hscale : (10 : ℚ) ^ d.scale.val ≤ 10 ^ 28 :=
    pow_le_pow_right₀ (by norm_num) (Nat.le_of_lt_succ d.scale.isLt)
  have hone : (1 : ℚ) ≤ 10 ^ d.scale.val := one_le_pow₀ (by norm_num)
  have hmantissa : (1 : ℚ) ≤ d.mantissa.val := by
    have hne : d.mantissa.val ≠ 0 := by
      intro hzero
      have := d.abs_toRat
      rw [hzero, Nat.cast_zero, zero_div, abs_eq_zero] at this
      exact h this
    exact_mod_cast Nat.one_le_iff_ne_zero.mpr hne
  have hlarge : (d.mantissa.val : ℚ) < 10 ^ 29 := by
    have : d.mantissa.val < 10 ^ 29 := d.mantissa.isLt.trans (by norm_num)
    exact_mod_cast this
  rw [d.abs_toRat] at hlo hhi ⊢
  constructor
  · -- the number is at least `10 ^ -28`
    have hmin : (10 : ℚ) ^ (-28 : ℤ) ≤ d.mantissa.val / 10 ^ d.scale.val := by
      rw [le_div_iff₀ (by positivity), zpow_neg]
      calc ((10 : ℚ) ^ (28 : ℤ))⁻¹ * 10 ^ d.scale.val ≤ (10 ^ (28 : ℤ))⁻¹ * 10 ^ 28 := by
            exact mul_le_mul_of_nonneg_left hscale (by positivity)
        _ = 1 := by norm_num
        _ ≤ d.mantissa.val := hmantissa
    have hlt := (zpow_lt_zpow_iff_right₀ (by norm_num : (1 : ℚ) < 10)).mp (hmin.trans_lt hhi)
    omega
  · have hmax : (d.mantissa.val : ℚ) / 10 ^ d.scale.val < 10 ^ (29 : ℤ) := by
      rw [div_lt_iff₀ (by positivity)]
      calc (d.mantissa.val : ℚ) < 10 ^ 29 := hlarge
        _ ≤ 10 ^ (29 : ℤ) * 10 ^ d.scale.val := by
            exact le_mul_of_one_le_right (by positivity) hone
    have hlt := (zpow_lt_zpow_iff_right₀ (by norm_num : (1 : ℚ) < 10)).mp (hlo.trans_lt hmax)
    omega

end Decimal

/-- Cutting and filling the bytes of `DecimalBytes` to the fixed width. -/
theorem padTo_mantissa (sign high low pad : UInt8) (mantissa : Bytes) :
    padTo pad (sign :: [high, low] ++ mantissa.take 13) =
      sign :: ([high, low] ++ mantissa.take 13 ++ List.replicate (13 - mantissa.length) pad) := by
  rw [padTo_of_length]
  · rw [List.append_assoc, List.append_assoc]
    show sign :: high :: low :: (mantissa.take 13 ++ List.replicate _ pad) =
      sign :: high :: low :: (mantissa.take 13 ++ List.replicate _ pad)
    have hlen : numericFixedWidth - (sign :: [high, low] ++ mantissa.take 13).length
        = 13 - mantissa.length := by
      show 16 - ((mantissa.take 13).length + 1 + 1 + 1) = _
      rw [List.length_take]
      omega
    rw [hlen]
  · show (mantissa.take 13).length + 1 + 1 + 1 ≤ 16
    rw [List.length_take]
    omega

/-- The decimal encoder on bytes that hold a number. -/
theorem encodesNumber_decimal [External] {text : String} {dec : DecimalBytes} {q : ℚ}
    (hdec : External.decimalBytesFromStr text = some dec) (hholds : HoldsNumber dec q)
    (hposition : q ≠ 0 → -1000 ≤ position |q| ∧ position |q| ≤ 1000) :
    EncodesNumber (encodeNumberFixedWidth text) (cut q) := by
  unfold encodeNumberFixedWidth
  rw [hdec]
  show EncodesNumber (if dec.isNan = true then _ else _) _
  rw [if_neg (by simp [hholds.isNan]), if_neg (by simp [hholds.isPosInfinity]),
    if_neg (by simp [hholds.isNegInfinity]), hholds.isZero]
  by_cases hq : q = 0
  · have hcut : cut q = 0 := by
      rw [cut, hq, if_neg (lt_irrefl _), truncate, leading, zero_mul, Nat.floor_zero, Nat.cast_zero,
        zero_mul]
    rw [if_pos (decide_eq_true hq), hcut]
    exact .zero
  · rw [if_neg (by simp [hq])]
    obtain ⟨ds, e, hlead, habs, hbytes⟩ := hholds.bytes hq
    have he := hposition hq
    rw [habs, hlead.position_eq] at he
    have hnormal := hlead.normal e (by omega)
    have hnumber := hlead.numberBytes_eq e
    by_cases hneg : q < 0
    · rw [if_pos hneg] at hbytes
      have hcut : cut q = -(leading 26 (digitsNumber ds * 10 ^ (e - ds.length)) *
          10 ^ (e - (26 : ℕ))) := by
        rw [cut, if_pos hneg, ← abs_of_neg hneg, habs, hlead.truncate_eq]
      rw [hcut, hbytes]
      show EncodesNumber (padTo 0xFF (numericSignNegative :: [_, _] ++
        ((packBcd ds).map (0xFF - ·)).take 13)) _
      rw [padTo_mantissa]
      have := EncodesNumber.neg hnormal
      rw [← hnumber] at this
      rw [List.length_map, ← List.map_take]
      simpa [positionBytes] using this
    · rw [if_neg hneg] at hbytes
      have hcut : cut q = leading 26 (digitsNumber ds * 10 ^ (e - ds.length)) *
          10 ^ (e - (26 : ℕ)) := by
        rw [cut, if_neg hneg, ← hlead.truncate_eq, ← habs, abs_of_nonneg (not_lt.mp hneg)]
      rw [hcut, hbytes]
      show EncodesNumber (padTo 0x00 (numericSignPositive :: [_, _] ++ (packBcd ds).take 13)) _
      rw [padTo_mantissa]
      have := EncodesNumber.pos hnormal
      rw [← hnumber] at this
      exact this

/-! ## Exactness -/

/-- The number a value is: an integer, a decimal, or a double of an integer up to `2 ^ 63`. -/
def Value.exactNumber : Value → Option ℚ
  | .int n => some n.toInt
  | .decimal d => some d.toRat
  | .float f => if f.isInt64Like then some f.toRat else none
  | _ => none

/-- What the encoders keep of a number: 26 significant digits of a decimal, and of a double what
`as i64` makes of its magnitude. -/
def keptNumber (v : Value) (q : ℚ) : ℚ :=
  match v with
  | .decimal _ => cut q
  | .float _ => clamp q
  | _ => q

/-- `DecimalBytes::from_str` holds the number that `rust_decimal` writes. -/
def DecimalBytesTexts [External] : Prop :=
  ∀ (d : Decimal) (q : ℚ), readNumeral (External.decimalToString d) = some q →
    ∃ dec, External.decimalBytesFromStr (External.decimalToString d) = some dec ∧
      HoldsNumber dec q

/-- Both encodings tell two numbers apart exactly when they differ, and order them. -/
structure EncodedExactly [External] (v w : Value) (q r : ℚ) : Prop where
  ordered : encodeValueOrdered v = encodeValueOrdered w ↔ q = r
  hashed : encodeValueForHash v = encodeValueForHash w ↔ q = r
  order : q ≠ r → compare (encodeValueOrdered v) (encodeValueOrdered w) = compare q r

section Exact

variable [External] {v w : Value} {q r : ℚ}

/-- Both encodings of a number are its tag and bytes that stand for what is kept of it. -/
theorem encodesNumber_value (htexts : DecimalTexts) (hbytes : DecimalBytesTexts)
    (hv : v.exactNumber = some q) :
    ∃ bytes, encodeValueOrdered v = tagNumber :: bytes ∧
      encodeValueForHash v = tagNumber :: bytes ∧ EncodesNumber bytes (keptNumber v q) := by
  cases v with
  | int n =>
    obtain rfl := Option.some.inj hv
    have hlo := n.le_toInt
    have hhi := n.toInt_lt
    exact ⟨_, rfl, rfl, encodesNumber_int (by omega)⟩
  | decimal d =>
    obtain rfl := Option.some.inj hv
    obtain ⟨dec, hdec, hholds⟩ := hbytes d d.toRat (htexts d)
    exact ⟨_, rfl, rfl, encodesNumber_decimal hdec hholds d.position_bounds⟩
  | float f =>
    have hlike : f.isInt64Like = true := by
      by_contra hno
      rw [Value.exactNumber, if_neg hno] at hv
      cases hv
    rw [Value.exactNumber, if_pos hlike] at hv
    obtain rfl := Option.some.inj hv
    exact ⟨_, rfl, rfl, encodesNumber_float hlike⟩
  | _ => cases hv

/-- Two numbers are encoded exactly when what is kept of them compares as they do. -/
theorem encodedExactly_iff (htexts : DecimalTexts) (hbytes : DecimalBytesTexts)
    (hv : v.exactNumber = some q) (hw : w.exactNumber = some r) :
    EncodedExactly v w q r ↔ compare (keptNumber v q) (keptNumber w r) = compare q r := by
  obtain ⟨bv, hov, hhv, hev⟩ := encodesNumber_value htexts hbytes hv
  obtain ⟨bw, how, hhw, hew⟩ := encodesNumber_value htexts hbytes hw
  have hcompare : compare (encodeValueOrdered v) (encodeValueOrdered w)
      = compare (keptNumber v q) (keptNumber w r) := by
    have hself : compare tagNumber tagNumber = .eq := by decide
    rw [hov, how, List.compare_cons_cons, hself, hev.compare_eq hew]
    rfl
  have hequal : encodeValueOrdered v = encodeValueOrdered w ↔
      compare (keptNumber v q) (keptNumber w r) = .eq := by
    rw [← hcompare]
    constructor
    · intro h
      rw [h, compare_bytes_self]
    · exact Std.LawfulEqCmp.eq_of_compare
  constructor
  · intro h
    by_cases heq : q = r
    · rw [hequal.mp (h.ordered.mpr heq), compare_eq_iff_eq.mpr heq]
    · rw [← hcompare, h.order heq]
  · intro h
    have hordered : encodeValueOrdered v = encodeValueOrdered w ↔ q = r := by
      rw [hequal, h, compare_eq_iff_eq]
    refine ⟨hordered, ?_, fun _ => hcompare.trans h⟩
    rw [← hordered, hhv, hhw, hov, how]

end Exact

/-! ## A decimal package -/

namespace Ledger

/-- The bytes of a number with at most 28 digits behind the point. -/
def holdNumber (q : ℚ) : DecimalBytes :=
  let ds := (Nat.digits 10 ⌊|q| * 10 ^ 28⌋₊).reverse
  let body := positionBytes (ds.length - 28) ++ packBcd ds
  { bytes := if q < 0 then numericSignNegative :: body.map (0xFF - ·)
      else numericSignPositive :: body
    isNan := false
    isPosInfinity := false
    isNegInfinity := false
    isZero := decide (q = 0) }

theorem digitsNumber_reverse (ds : List Nat) : digitsNumber ds.reverse = Nat.ofDigits 10 ds := by
  induction ds with
  | nil => rfl
  | cons d ds ih =>
    rw [List.reverse_cons, digitsNumber_append_singleton, ih, Nat.ofDigits_cons]
    ring

theorem leadingDigits_digits {n : Nat} (h : n ≠ 0) : LeadingDigits (Nat.digits 10 n).reverse where
  lt d hd := Nat.digits_lt_base (by decide) (List.mem_reverse.mp hd)
  lead := by
    rw [List.length_reverse, digitsNumber_reverse, Nat.ofDigits_digits,
      Nat.length_digits 10 n (by decide) h, Nat.add_sub_cancel]
    exact Nat.pow_log_le_self 10 h
  ne_nil := by
    rw [Ne, List.reverse_eq_nil_iff, Nat.digits_eq_nil_iff_eq_zero]
    exact h

theorem holdNumber_holds (d : Decimal) : HoldsNumber (holdNumber d.toRat) d.toRat where
  isNan := rfl
  isPosInfinity := rfl
  isNegInfinity := rfl
  isZero := rfl
  bytes hne := by
    let n := d.mantissa.val * 10 ^ (28 - d.scale.val)
    have hscale : d.scale.val ≤ 28 := Nat.le_of_lt_succ d.scale.isLt
    have hn : |d.toRat| * 10 ^ 28 = n := by
      rw [d.abs_toRat, Nat.cast_mul, Nat.cast_pow, Nat.cast_ofNat, div_mul_eq_mul_div,
        div_eq_iff (by positivity), mul_assoc, ← pow_add, Nat.sub_add_cancel hscale]
    have hfloor : ⌊|d.toRat| * 10 ^ 28⌋₊ = n := by
      rw [hn, Nat.floor_natCast]
    have hpos : n ≠ 0 := by
      intro hzero
      rw [hzero, Nat.cast_zero, mul_eq_zero, abs_eq_zero] at hn
      exact hn.elim hne (by norm_num)
    have hlead := leadingDigits_digits hpos
    refine ⟨(Nat.digits 10 n).reverse, (Nat.digits 10 n).reverse.length - 28, hlead, ?_, ?_⟩
    · rw [digitsNumber_reverse, Nat.ofDigits_digits, ← hn, sub_sub_cancel_left, mul_assoc,
        zpow_neg]
      norm_num
    · unfold holdNumber
      rw [hfloor]

/-- Decimals as `rust_decimal` writes them and `DecimalBytes` holds them. -/
local instance : External where
  xxh3_128 := id
  decimalToString := Decimal.text
  decimalBytesFromStr text := (readNumeral text).map holdNumber

theorem decimalBytesTexts : DecimalBytesTexts := by
  intro d q hq
  have hread : readNumeral d.text = some d.toRat := d.readNumeral_text
  obtain rfl : d.toRat = q := Option.some.inj (hread.symm.trans hq)
  refine ⟨holdNumber d.toRat, ?_, holdNumber_holds d⟩
  show (readNumeral d.text).map holdNumber = _
  rw [hread]
  rfl

/-- `-7` and `7`. -/
theorem integers_exact : EncodedExactly (.int (-7)) (.int 7) (-7) 7 := by
  apply (encodedExactly_iff Decimal.readNumeral_text decimalBytesTexts rfl rfl).mpr
  rfl

/-- The double `2 ^ 63` has the bytes of the integer before it. -/
theorem double_inexact :
    Value.exactNumber (.float ⟨0x43E0000000000000⟩) = some (2 ^ 63) ∧
      Value.exactNumber (.int 9223372036854775807) = some (2 ^ 63 - 1) ∧
      encodeValueOrdered (.float ⟨0x43E0000000000000⟩)
        = encodeValueOrdered (.int 9223372036854775807) := by
  have hlike : F64.isInt64Like ⟨0x43E0000000000000⟩ = true := by decide +kernel
  have hint : F64.isIntegral ⟨0x43E0000000000000⟩ = true := by decide +kernel
  have htrunc : F64.truncAbs ⟨0x43E0000000000000⟩ = 2 ^ 63 := by decide +kernel
  have hsign : F64.isNegative ⟨0x43E0000000000000⟩ = false := by decide +kernel
  refine ⟨?_, ?_, by decide +kernel⟩
  · rw [Value.exactNumber, if_pos hlike, F64.toRat, hsign, F64.absRat_eq_truncAbs hint, htrunc]
    norm_num
  · have hmax : (9223372036854775807 : Int64).toInt = 2 ^ 63 - 1 := by decide
    rw [Value.exactNumber, hmax]
    norm_num

end Ledger

end StellarDb
