import StellarDb.Lib.ByteOrder
import StellarDb.Encoding

/-!
# StellarDb — the byte order of encoded values

Encoded values of one kind are ordered as the values are, and no encoded value of the kind is
the front of another: `compare_encodeI64FixedWidth` for integers, `compare_escapeNul` for
text. The successor of a string is the first key behind all its extensions
(`compare_byteSuccessor`).
-/

namespace StellarDb

open Keyspaces

/-! ## Integers -/

/-- The digits `intToBcd` packs. -/
def bcdDigits (n digitCount : Nat) : List Nat :=
  (List.range digitCount).map fun i => n / 10 ^ (digitCount - 1 - i) % 10

theorem bcdDigits_succ (n digitCount : Nat) :
    bcdDigits n (digitCount + 1) = n / 10 ^ digitCount % 10 :: bcdDigits n digitCount := by
  unfold bcdDigits
  rw [List.range_succ_eq_map, List.map_cons, List.map_map]
  refine congrArg₂ List.cons (by simp) (List.map_congr_left fun i hi => ?_)
  have hi := List.mem_range.mp hi
  have hexp : digitCount + 1 - 1 - (i + 1) = digitCount - 1 - i := by omega
  show n / 10 ^ (digitCount + 1 - 1 - (i + 1)) % 10 = _
  rw [hexp]

theorem bcdDigits_length (n digitCount : Nat) : (bcdDigits n digitCount).length = digitCount := by
  simp [bcdDigits]

theorem bcdDigits_lt {n digitCount d : Nat} (h : d ∈ bcdDigits n digitCount) : d < 16 := by
  obtain ⟨i, -, rfl⟩ := List.mem_map.mp h
  exact (Nat.mod_lt _ (by omega)).trans (by omega)

/-- Digits are ordered like the number they are the low digits of. -/
theorem compare_bcdDigits (m n digitCount : Nat) :
    compare (bcdDigits m digitCount) (bcdDigits n digitCount) =
      compare (m % 10 ^ digitCount) (n % 10 ^ digitCount) := by
  induction digitCount with
  | zero => simp [bcdDigits, Nat.mod_one]
  | succ c ih =>
    have hpos : 0 < 10 ^ c := by positivity
    rw [bcdDigits_succ, bcdDigits_succ, List.compare_cons_cons, ih, Nat.mod_pow_succ,
      Nat.mod_pow_succ, compare_add_mul (Nat.mod_lt _ hpos) (Nat.mod_lt _ hpos)]

theorem packBcd_cons_cons (d e : Nat) (ds : List Nat) :
    packBcd (d :: e :: ds) = UInt8.ofNat (d * 16 + e) :: packBcd ds := by
  unfold packBcd
  have hlen : ((d :: e :: ds).length + 1) / 2 = (ds.length + 1) / 2 + 1 := by
    simp only [List.length_cons]
    omega
  rw [hlen, List.range_succ_eq_map, List.map_cons, List.map_map]
  refine congrArg₂ List.cons rfl (List.map_congr_left fun i _ => ?_)
  show UInt8.ofNat ((d :: e :: ds).getD (2 * (i + 1)) 0 * 16 +
    (d :: e :: ds).getD (2 * (i + 1) + 1) 0) = _
  have h0 : 2 * (i + 1) = 2 * i + 1 + 1 := by omega
  have h1 : 2 * (i + 1) + 1 = 2 * i + 1 + 1 + 1 := by omega
  rw [h0, List.getD_cons_succ, List.getD_cons_succ, List.getD_cons_succ, List.getD_cons_succ]

theorem packBcd_length (ds : List Nat) : (packBcd ds).length = (ds.length + 1) / 2 := by
  simp [packBcd]

/-- Packing two digits to a byte keeps the order. -/
theorem compare_packBcd {ds es : List Nat} (hlen : ds.length = es.length)
    (hds : ∀ d ∈ ds, d < 16) (hes : ∀ e ∈ es, e < 16) :
    compare (packBcd ds) (packBcd es) = compare ds es := by
  -- two digits at a time
  induction ds using List.twoStepInduction generalizing es with
  | nil =>
    cases es with
    | nil => rfl
    | cons e es => cases hlen
  | singleton d =>
    cases es with
    | nil => cases hlen
    | cons e es =>
      obtain rfl : es = [] := by simpa using hlen.symm
      have hd := hds d List.mem_cons_self
      have he := hes e List.mem_cons_self
      have hone : ∀ x, packBcd [x] = [UInt8.ofNat (x * 16 + 0)] := fun x => by simp [packBcd]
      have hbyte := compare_ofNat (m := d * 16 + 0) (n := e * 16 + 0) (by omega) (by omega)
      have hnum := @compare_add_mul 16 0 0 d e (by omega) (by omega)
      rw [hone, hone, List.compare_cons_cons, List.compare_cons_cons, hbyte]
      rw [show d * 16 + 0 = 0 + 16 * d by omega, show e * 16 + 0 = 0 + 16 * e by omega, hnum]
      cases compare d e <;> rfl
  | cons_cons d d' ds ih _ =>
    match es, hlen with
    | e :: e' :: es, hlen =>
      simp only [List.forall_mem_cons] at hds hes
      have hbyte := compare_ofNat (m := d * 16 + d') (n := e * 16 + e') (by omega) (by omega)
      have hnum := @compare_add_mul 16 d' e' d e hds.2.1 hes.2.1
      rw [packBcd_cons_cons, packBcd_cons_cons, List.compare_cons_cons, hbyte,
        show d * 16 + d' = d' + 16 * d by omega, show e * 16 + e' = e' + 16 * e by omega, hnum,
        ih (by simpa using hlen) hds.2.2 hes.2.2, List.compare_cons_cons, List.compare_cons_cons]
      cases compare d e <;> rfl

theorem intToBcd_length (n digitCount : Nat) :
    (intToBcd n digitCount).length = (digitCount + 1) / 2 := by
  show (packBcd (bcdDigits n digitCount)).length = _
  rw [packBcd_length, bcdDigits_length]

theorem compare_intToBcd {m n digitCount : Nat} (hm : m < 10 ^ digitCount)
    (hn : n < 10 ^ digitCount) :
    compare (intToBcd m digitCount) (intToBcd n digitCount) = compare m n := by
  show compare (packBcd (bcdDigits m digitCount)) (packBcd (bcdDigits n digitCount)) = _
  rw [compare_packBcd (by rw [bcdDigits_length, bcdDigits_length]) (fun d => bcdDigits_lt)
    (fun d => bcdDigits_lt), compare_bcdDigits, Nat.mod_eq_of_lt hm, Nat.mod_eq_of_lt hn]

theorem countDigitsU64_spec {n : Nat} (h0 : 0 < n) (h : n < 10 ^ 20) :
    1 ≤ countDigitsU64 n ∧ countDigitsU64 n ≤ 20 ∧ n < 10 ^ countDigitsU64 n ∧
      10 ^ (countDigitsU64 n - 1) ≤ n := by
  unfold countDigitsU64
  rw [List.find?_map]
  cases hfind : (List.range 19).find? ((fun d => decide (n < 10 ^ d)) ∘ (· + 1)) with
  | none =>
    rw [List.find?_range_eq_none] at hfind
    have hlast := hfind 18 (by omega)
    have hle : 10 ^ 19 ≤ n := by simpa using hlast
    exact ⟨by simp, by simp, by simpa using h, by simpa using hle⟩
  | some d =>
    rw [List.find?_range_eq_some] at hfind
    obtain ⟨hlt, hmem, hbefore⟩ := hfind
    have hd := List.mem_range.mp hmem
    refine ⟨by simp, by simpa using by omega, by simpa using hlt, ?_⟩
    show 10 ^ (d + 1 - 1) ≤ n
    rw [Nat.add_sub_cancel]
    cases d with
    | zero => simpa using Nat.one_le_iff_ne_zero.mpr h0.ne'
    | succ d => simpa using hbefore d (by omega)

/-- What follows the sign byte of a positive number. -/
def magnitudeBytes (n : Nat) : Bytes :=
  0x40 :: UInt8.ofNat (countDigitsU64 n) ::
    (intToBcd n (countDigitsU64 n) ++
      List.replicate (13 - (intToBcd n (countDigitsU64 n)).length) 0)

theorem magnitudeBytes_length {n : Nat} (h0 : 0 < n) (h : n < 10 ^ 20) :
    (magnitudeBytes n).length = 15 := by
  have hlen := intToBcd_length n (countDigitsU64 n)
  have hspec := countDigitsU64_spec h0 h
  simp only [magnitudeBytes, List.length_cons, List.length_append, List.length_replicate]
  omega

theorem compare_magnitudeBytes {m n : Nat} (h0 : 0 < m) (hmn : m < n) (h : n < 10 ^ 20) :
    compare (magnitudeBytes m) (magnitudeBytes n) = .lt := by
  obtain ⟨-, hm20, hmlt, hmle⟩ := countDigitsU64_spec h0 (hmn.trans h)
  obtain ⟨-, hn20, hnlt, hnle⟩ := countDigitsU64_spec (h0.trans hmn) h
  unfold magnitudeBytes
  have hself : compare (0x40 : UInt8) 0x40 = .eq := by decide
  rw [List.compare_cons_cons, hself, List.compare_cons_cons,
    compare_ofNat (by omega) (by omega)]
  -- more digits, or the same number of them and a larger packing
  rcases lt_trichotomy (countDigitsU64 m) (countDigitsU64 n) with hlt | heq | hgt
  · rw [Nat.compare_eq_lt.mpr hlt]
    rfl
  · have hbcd := compare_intToBcd hmlt (heq ▸ hnlt)
    rw [Nat.compare_eq_lt.mpr hmn] at hbcd
    rw [Nat.compare_eq_eq.mpr heq, ← heq]
    show compare (_ ++ _) (_ ++ _) = _
    rw [compare_append_of_length (by rw [intToBcd_length, intToBcd_length]) (by rw [hbcd]; simp),
      hbcd]
  · have hpow : 10 ^ countDigitsU64 n ≤ 10 ^ (countDigitsU64 m - 1) :=
      Nat.pow_le_pow_right (by omega) (by omega)
    omega

theorem padTo_of_length {pad : UInt8} {bs : Bytes} (h : bs.length ≤ numericFixedWidth) :
    padTo pad bs = bs ++ List.replicate (numericFixedWidth - bs.length) pad := by
  rw [padTo, List.take_of_length_le h]

theorem encodeI64FixedWidth_pos {n : Int} (h0 : 0 < n) (h : n.natAbs < 10 ^ 20) :
    encodeI64FixedWidth n = 0xFF :: magnitudeBytes n.natAbs := by
  have hbcd := intToBcd_length n.natAbs (countDigitsU64 n.natAbs)
  have hspec := countDigitsU64_spec (by omega) h
  have hpad : 16 - ((intToBcd n.natAbs (countDigitsU64 n.natAbs)).length + 1 + 1 + 1) =
      13 - (intToBcd n.natAbs (countDigitsU64 n.natAbs)).length := by omega
  have hsign : ¬ n < 0 := by omega
  unfold encodeI64FixedWidth
  rw [if_neg h0.ne']
  simp only [hsign, decide_false, signExpMantissa, Bool.false_eq_true, if_false]
  rw [padTo_of_length (by simp only [List.length_cons]; simp [numericFixedWidth]; omega)]
  simp only [magnitudeBytes, List.cons_append, List.length_cons, numericFixedWidth,
    numericSignPositive, hpad]

theorem encodeI64FixedWidth_neg {n : Int} (h0 : n < 0) (h : n.natAbs < 10 ^ 20) :
    encodeI64FixedWidth n = 0x00 :: (magnitudeBytes n.natAbs).map (0xFF - ·) := by
  have hbcd := intToBcd_length n.natAbs (countDigitsU64 n.natAbs)
  have hspec := countDigitsU64_spec (by omega) h
  have hpad : 16 - ((intToBcd n.natAbs (countDigitsU64 n.natAbs)).length + 1 + 1 + 1) =
      13 - (intToBcd n.natAbs (countDigitsU64 n.natAbs)).length := by omega
  unfold encodeI64FixedWidth
  rw [if_neg h0.ne]
  simp only [h0, decide_true, signExpMantissa, if_true]
  rw [padTo_of_length (by
    simp only [List.length_cons, List.length_map]; simp [numericFixedWidth]; omega)]
  simp only [magnitudeBytes, List.cons_append, List.length_cons, numericFixedWidth,
    numericSignNegative, List.map_cons, List.map_append, List.map_replicate, List.length_map, hpad]
  rfl

/-- The bytes of two integers are ordered like the integers. -/
theorem compare_encodeI64FixedWidth {a b : Int} (ha : a.natAbs < 10 ^ 20)
    (hb : b.natAbs < 10 ^ 20) :
    compare (encodeI64FixedWidth a) (encodeI64FixedWidth b) = compare a b := by
  -- one direction gives the other and equality
  suffices hlt : ∀ a b : Int, a.natAbs < 10 ^ 20 → b.natAbs < 10 ^ 20 → a < b →
      compare (encodeI64FixedWidth a) (encodeI64FixedWidth b) = .lt by
    rcases lt_trichotomy a b with h | rfl | h
    · rw [hlt a b ha hb h]
      exact (compare_lt_iff_lt.mpr h).symm
    · rw [compare_bytes_self]
      exact (compare_eq_iff_eq.mpr rfl).symm
    · rw [compare_bytes_swap, hlt b a hb ha h]
      exact (compare_gt_iff_gt.mpr h).symm
  intro a b ha hb hab
  have h0f : compare (0x00 : UInt8) 0xFF = .lt := by decide
  have h08 : compare (0x00 : UInt8) 0x80 = .lt := by decide
  have h8f : compare (0x80 : UInt8) 0xFF = .lt := by decide
  have h00 : compare (0x00 : UInt8) 0x00 = .eq := by decide
  have hff : compare (0xFF : UInt8) 0xFF = .eq := by decide
  rcases lt_trichotomy a 0 with hneg | rfl | hpos
  · rw [encodeI64FixedWidth_neg hneg ha]
    rcases lt_trichotomy b 0 with hneg' | rfl | hpos'
    · have hlen : (magnitudeBytes a.natAbs).length = (magnitudeBytes b.natAbs).length := by
        rw [magnitudeBytes_length (by omega) ha, magnitudeBytes_length (by omega) hb]
      rw [encodeI64FixedWidth_neg hneg' hb, List.compare_cons_cons, h00,
        compare_map_complement hlen, compare_magnitudeBytes (by omega) (by omega) ha]
      rfl
    · show compare _ numericZero = _
      rw [numericZero, List.compare_cons_cons, numericSignZero, h08]
      rfl
    · rw [encodeI64FixedWidth_pos hpos' hb, List.compare_cons_cons, h0f]
      rfl
  · rw [encodeI64FixedWidth_pos hab hb]
    show compare numericZero _ = _
    rw [numericZero, List.compare_cons_cons, numericSignZero, h8f]
    rfl
  · rw [encodeI64FixedWidth_pos hpos ha, encodeI64FixedWidth_pos (hpos.trans hab) hb,
      List.compare_cons_cons, hff, compare_magnitudeBytes (by omega) (by omega) hb]
    rfl

theorem encodeI64FixedWidth_length {n : Int} (h : n.natAbs < 10 ^ 20) :
    (encodeI64FixedWidth n).length = 16 := by
  rcases lt_trichotomy n 0 with hneg | rfl | hpos
  · rw [encodeI64FixedWidth_neg hneg h, List.length_cons, List.length_map,
      magnitudeBytes_length (by omega) h]
  · rfl
  · rw [encodeI64FixedWidth_pos hpos h, List.length_cons, magnitudeBytes_length (by omega) h]

/-! ## Text -/

/-- Escaped text is ordered as the text is, whatever follows. -/
theorem compare_escapeNul {a b : Bytes} (hne : a ≠ b) (x y : Bytes) :
    compare (escapeNul a ++ x) (escapeNul b ++ y) = compare a b := by
  -- the terminator `00 00` lies below an escaped zero `00 FF` and below every other byte
  have hnil : ∀ (c : UInt8) (cs x y : Bytes),
      compare (escapeNul [] ++ x) (escapeNul (c :: cs) ++ y) = .lt := by
    intro c cs x y
    have h0f : compare (0x00 : UInt8) 0xFF = .lt := by decide
    have h00 : compare (0x00 : UInt8) 0x00 = .eq := by decide
    by_cases hc : c = 0
    · subst hc
      show compare (0 :: 0 :: x) (0 :: 0xFF :: _) = _
      rw [List.compare_cons_cons, h00, List.compare_cons_cons, h0f]
      rfl
    · simp [escapeNul, hc, List.compare_cons_cons, compare_zero_byte hc]
  induction a generalizing b with
  | nil =>
    cases b with
    | nil => exact absurd rfl hne
    | cons d b => exact hnil d b x y
  | cons c a ih =>
    cases b with
    | nil =>
      rw [compare_bytes_swap, hnil c a y x]
      rfl
    | cons d b =>
      have hcons : ∀ (c : UInt8) (cs z : Bytes), escapeNul (c :: cs) ++ z =
          (if c = 0 then [0x00, 0xFF] else [c]) ++ (escapeNul cs ++ z) := by
        intro c cs z
        simp [escapeNul]
      rw [hcons, hcons, List.compare_cons_cons]
      by_cases hcd : c = d
      · subst hcd
        have hself : compare c c = .eq := Std.ReflCmp.compare_self
        rw [compare_append_self, hself, ih (fun h => hne (by rw [h]))]
        rfl
      · -- escaped or not, the first bytes are ordered like `c` and `d`
        have hfirst : ∀ c : UInt8, ∃ cs, (if c = 0 then [0x00, 0xFF] else [c]) = c :: cs := by
          intro c
          by_cases hc : c = 0
          · exact ⟨[0xFF], by rw [if_pos hc, hc]⟩
          · exact ⟨[], by rw [if_neg hc]⟩
        obtain ⟨cs, hcs⟩ := hfirst c
        obtain ⟨ds, hds⟩ := hfirst d
        have hne : compare c d ≠ .eq := fun h => hcd (Std.LawfulEqCmp.eq_of_compare h)
        rw [hcs, hds, List.cons_append, List.cons_append, List.compare_cons_cons]
        cases hcmp : compare c d with
        | lt => rfl
        | gt => rfl
        | eq => exact absurd hcmp hne

/-! ## The successor -/

/-- Only `0xFF` bytes: nothing that does not extend them lies behind them. -/
theorem compare_of_incrementLast_none {bs : Bytes} (h : incrementLast bs = none) (ks : Bytes) :
    compare ks bs = .lt ∨ bs <+: ks := by
  induction bs generalizing ks with
  | nil => exact .inr List.nil_prefix
  | cons b bs ih =>
    rw [incrementLast] at h
    cases hinc : incrementLast bs with
    | some bs' => rw [hinc] at h; cases h
    | none =>
      rw [hinc] at h
      obtain rfl : b = 0xFF := by
        by_contra hb
        simp [lt_ff_of_ne hb] at h
      cases ks with
      | nil => exact .inl rfl
      | cons c ks =>
        by_cases hc : c = 0xFF
        · subst hc
          have hself : compare (0xFF : UInt8) 0xFF = .eq := by decide
          rw [List.compare_cons_cons, hself, List.cons_prefix_cons]
          exact (ih hinc ks).imp id fun h => ⟨rfl, h⟩
        · rw [List.compare_cons_cons, compare_byte_ff hc]
          exact .inl rfl

/-- The keys before the incremented string are those before the string and its extensions. -/
theorem compare_incrementLast {q s : Bytes} (h : incrementLast q = some s) (k : Bytes) :
    compare k s = .lt ↔ compare k q = .lt ∨ q <+: k := by
  induction q generalizing s k with
  | nil => cases h
  | cons b bs ih =>
    rw [incrementLast] at h
    cases hinc : incrementLast bs with
    | some bs' =>
      rw [hinc] at h
      obtain rfl := Option.some.inj h
      cases k with
      | nil => exact ⟨fun _ => .inl rfl, fun _ => rfl⟩
      | cons c ks =>
        rw [List.compare_cons_cons, List.compare_cons_cons, List.cons_prefix_cons]
        by_cases hcb : c = b
        · subst hcb
          have hself : compare c c = .eq := Std.ReflCmp.compare_self
          rw [hself]
          exact (ih hinc ks).trans (or_congr_right (by simp))
        · have hne : b ≠ c := fun h => hcb h.symm
          have hcmp : compare c b ≠ .eq := fun h => hcb (Std.LawfulEqCmp.eq_of_compare h)
          cases hc : compare c b <;> simp [hne, hc] at hcmp ⊢
    | none =>
      -- every byte behind `b` is `0xFF`: the bound is the next byte
      rw [hinc] at h
      have hb : b < 0xFF := by
        by_contra hb
        simp [hb] at h
      obtain rfl : [b + 1] = s := by simpa [hb] using h
      cases k with
      | nil => exact ⟨fun _ => .inl rfl, fun _ => rfl⟩
      | cons c ks =>
        have hone : compare (c :: ks) [b + 1] = .lt ↔ compare c (b + 1) = .lt := by
          rw [List.compare_cons_cons]
          cases compare c (b + 1) <;> cases ks <;> simp [List.compare_cons_nil]
        rw [hone, compare_add_one hb, List.compare_cons_cons, List.cons_prefix_cons]
        by_cases hcb : c = b
        · subst hcb
          have hrest := compare_of_incrementLast_none hinc ks
          simp [hrest]
        · have hne : b ≠ c := fun h => hcb h.symm
          have hcmp : compare c b ≠ .eq := fun h => hcb (Std.LawfulEqCmp.eq_of_compare h)
          cases hc : compare c b <;> simp [hne, hc] at hcmp ⊢

theorem incrementLast_isSome {b : UInt8} {bs : Bytes} (hb : b ≠ 0xFF) :
    ∃ s, incrementLast (b :: bs) = some s := by
  rw [incrementLast]
  cases incrementLast bs with
  | some bs' => exact ⟨_, rfl⟩
  | none => exact ⟨[b + 1], if_pos (lt_ff_of_ne hb)⟩

/-- The bound of `<=`: behind the string itself and all its extensions. -/
theorem compare_byteSuccessor {b : UInt8} {bs : Bytes} (hb : b ≠ 0xFF) (k : Bytes) :
    compare k (byteSuccessor (b :: bs)) = .lt ↔ compare k (b :: bs) = .lt ∨ b :: bs <+: k := by
  obtain ⟨s, hs⟩ := @incrementLast_isSome b bs hb
  rw [byteSuccessor, hs]
  exact compare_incrementLast hs k

end StellarDb
