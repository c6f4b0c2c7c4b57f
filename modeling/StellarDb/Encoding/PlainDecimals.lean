import StellarDb.Encoding.Numbers

/-!
# StellarDb — numbers encoded from their digits (`storage/encoding.rs`)

`encode_float_string` reads a text in decimal notation from the left: zeros in front of the first
other digit are not kept, and behind the point they move the position. What it writes stands for
the number of the text (`encodesNumber_plain`), and so do the bytes of `encode_i64_fixed_width`,
which takes its digits from the right. Bytes that stand for one number are the same bytes
(`plainDecimals_exact`).
-/

namespace StellarDb

open Keyspaces Significant

/-- `c as u8 - b'0'` -/
def digitOf (c : Char) : Nat := c.toNat - '0'.toNat

/-- Digits without the zeros in front. -/
def significant (ds : List Nat) : List Nat := ds.dropWhile (· = 0)

/-- Digits with an optional point. -/
structure PlainDecimal where
  whole : List Char
  fraction : Option (List Char)
  isDigit : ∀ c ∈ whole ++ fraction.getD [], c.isDigit = true

namespace PlainDecimal

def text (p : PlainDecimal) : String :=
  String.ofList (p.whole ++ p.fraction.elim [] ('.' :: ·))

/-- The digits behind the point. -/
def behind (p : PlainDecimal) : List Char := p.fraction.getD []

def digits (p : PlainDecimal) : List Nat := (p.whole ++ p.behind).map digitOf

/-- The number the text stands for. -/
def value (p : PlainDecimal) : ℚ := digitsNumber p.digits / 10 ^ p.behind.length

/-- The number with its sign. -/
def signed (p : PlainDecimal) (isNegative : Bool) : ℚ := if isNegative then -p.value else p.value

/-- No digit behind the first 26 significant ones, unless it is a zero, and a position that two
bytes can hold. -/
structure Fits (p : PlainDecimal) : Prop where
  digits : p.digits.length < 2 ^ 13
  kept : ∀ d ∈ (significant p.digits).drop 26, d = 0

end PlainDecimal

/-! ## Significant digits -/

section Digits

variable {ds : List Nat}

/-- Once a digit has been kept, all that follow are. -/
theorem significant_append (es : List Nat) (h : significant ds ≠ []) :
    significant (ds ++ es) = significant ds ++ es := by
  unfold significant at h ⊢
  rw [List.dropWhile_append, if_neg (fun hempty => h (List.isEmpty_iff.mp hempty))]

theorem significant_append_of_nil (es : List Nat) (h : significant ds = []) :
    significant (ds ++ es) = significant es := by
  unfold significant at h ⊢
  rw [List.dropWhile_append, if_pos (List.isEmpty_iff.mpr h)]

theorem significant_append_singleton (ds : List Nat) (d : Nat) :
    significant (ds ++ [d]) =
      if d = 0 ∧ significant ds = [] then [] else significant ds ++ [d] := by
  by_cases hds : significant ds = []
  · rw [significant_append_of_nil [d] hds, hds]
    by_cases hd : d = 0
    · rw [if_pos ⟨hd, rfl⟩, hd]
      rfl
    · rw [if_neg (fun h => hd h.1), significant, List.dropWhile_cons_of_neg (by simpa using hd),
        List.nil_append]
  · rw [if_neg (fun h => hds h.2), significant_append [d] hds]

theorem digitsNumber_significant (ds : List Nat) :
    digitsNumber (significant ds) = digitsNumber ds := by
  induction ds with
  | nil => rfl
  | cons d ds ih =>
    unfold significant at ih ⊢
    rw [List.dropWhile_cons]
    split
    · next hd =>
      rw [ih, of_decide_eq_true hd]
      rfl
    · rfl

theorem length_significant_le (ds : List Nat) : (significant ds).length ≤ ds.length :=
  (List.dropWhile_sublist _).length_le

theorem mem_of_mem_significant {d : Nat} (h : d ∈ significant ds) : d ∈ ds :=
  (List.dropWhile_sublist _).subset h

theorem leadingDigits_significant (hlt : ∀ d ∈ ds, d < 10) (hne : significant ds ≠ []) :
    LeadingDigits (significant ds) where
  lt d hd := hlt d (mem_of_mem_significant hd)
  lead := by
    have hhead := List.head?_dropWhile_not (· = 0) ds
    show 10 ^ ((ds.dropWhile (· = 0)).length - 1) ≤ digitsNumber (ds.dropWhile (· = 0))
    unfold significant at hne
    cases hsig : ds.dropWhile (· = 0) with
    | nil => exact absurd hsig hne
    | cons d rest =>
      rw [hsig] at hhead
      have hd : 1 ≤ d := Nat.one_le_iff_ne_zero.mpr (by simpa using hhead)
      rw [← List.singleton_append, digitsNumber_append]
      show 10 ^ rest.length ≤ (0 * 10 + d) * 10 ^ rest.length + _
      calc 10 ^ rest.length = 1 * 10 ^ rest.length := (Nat.one_mul _).symm
        _ ≤ (0 * 10 + d) * 10 ^ rest.length := Nat.mul_le_mul_right _ (by omega)
        _ ≤ _ := Nat.le_add_right _ _
  ne_nil := hne

/-- Nothing is lost with the digits behind the first 26 if they are zeros. -/
theorem digitsNumber_firstDigits_of_kept (hlt : ∀ d ∈ ds, d < 10)
    (hkept : ∀ d ∈ ds.drop 26, d = 0) (e : Int) :
    (digitsNumber (firstDigits ds) : ℚ) * 10 ^ (e - (26 : ℕ)) =
      digitsNumber ds * 10 ^ (e - ds.length) := by
  have hdvd : 10 ^ ds.length ∣ digitsNumber ds * 10 ^ 26 := by
    by_cases hlen : ds.length ≤ 26
    · exact dvd_mul_of_dvd_right (Nat.pow_dvd_pow 10 hlen) _
    · have hrest : ds.drop 26 = List.replicate (ds.length - 26) 0 := by
        apply List.eq_replicate_of_mem hkept |>.trans
        rw [List.length_drop]
      have hsplit := digitsNumber_append (ds.take 26) (ds.drop 26)
      rw [List.take_append_drop, hrest, digitsNumber_zeros, List.length_replicate,
        Nat.add_zero] at hsplit
      rw [hsplit, mul_assoc, ← pow_add, Nat.sub_add_cancel (by omega)]
      exact dvd_mul_left _ _
  have hten : (10 : ℚ) ≠ 0 := by norm_num
  rw [digitsNumber_firstDigits hlt, Nat.cast_div hdvd (by positivity), Nat.cast_mul, Nat.cast_pow,
    Nat.cast_pow, Nat.cast_ofNat, zpow_sub₀ hten, zpow_sub₀ hten, zpow_natCast, zpow_natCast]
  field_simp

end Digits

/-! ## The scan -/

namespace FloatScan

variable {st : FloatScan} {c : Char}

theorem step_digit (hc : c.isDigit = true) (hexponent : st.inExponent = false) :
    st.step c =
      if digitOf c = 0 && !st.foundSignificant && st.foundDecimal then
        { st with leadingZerosAfterDecimal := st.leadingZerosAfterDecimal + 1 }
      else if digitOf c ≠ 0 || st.foundSignificant then
        { st with
          foundSignificant := true
          digits := st.digits ++ [digitOf c]
          decimalPos := if st.foundDecimal then st.decimalPos else st.decimalPos + 1 }
      else st := by
  unfold step
  rw [if_pos hc]
  show (if st.inExponent = true then _ else _) = _
  rw [if_neg (by simp [hexponent])]
  rfl

/-- Before the point. -/
theorem scan_whole {cs : List Char} (hcs : ∀ c ∈ cs, c.isDigit = true) :
    cs.foldl step {} =
      { digits := significant (cs.map digitOf)
        decimalPos := (significant (cs.map digitOf)).length
        foundSignificant := !(significant (cs.map digitOf)).isEmpty } := by
  -- from the left, one digit at a time
  induction cs using List.reverseRecOn with
  | nil => rfl
  | append_singleton cs c ih =>
    have hc := hcs c (List.mem_append_right _ List.mem_cons_self)
    rw [List.foldl_append, ih fun x hx => hcs x (List.mem_append_left _ hx), List.map_append,
      List.map_singleton, significant_append_singleton]
    show step _ c = _
    rw [step_digit hc rfl]
    by_cases hsig : significant (cs.map digitOf) = []
    · rw [hsig]
      by_cases hd : digitOf c = 0
      · simp [hd]
      · simp [hd]
    · have hempty : (significant (cs.map digitOf)).isEmpty = false := by
        rw [List.isEmpty_eq_false_iff]
        exact hsig
      simp [hsig, hempty]

/-- Behind the point, after the digits `ws`. -/
theorem scan_fraction (ws : List Nat) {cs : List Char} (hcs : ∀ c ∈ cs, c.isDigit = true) :
    cs.foldl step
        { digits := significant ws
          decimalPos := (significant ws).length
          foundDecimal := true
          foundSignificant := !(significant ws).isEmpty } =
      { digits := significant (ws ++ cs.map digitOf)
        decimalPos := (significant ws).length
        foundDecimal := true
        leadingZerosAfterDecimal :=
          if significant ws = [] then cs.length - (significant (ws ++ cs.map digitOf)).length else 0
        foundSignificant := !(significant (ws ++ cs.map digitOf)).isEmpty } := by
  induction cs using List.reverseRecOn with
  | nil =>
    by_cases hws : significant ws = []
    · simp [hws]
    · simp [hws]
  | append_singleton cs c ih =>
    have hc := hcs c (List.mem_append_right _ List.mem_cons_self)
    rw [List.foldl_append, ih fun x hx => hcs x (List.mem_append_left _ hx), List.map_append,
      List.map_singleton, ← List.append_assoc, significant_append_singleton]
    show step _ c = _
    rw [step_digit hc rfl]
    by_cases hsig : significant (ws ++ cs.map digitOf) = []
    · -- then the digits before the point were zeros too
      have hws : significant ws = [] := by
        by_contra hne
        rw [significant_append _ hne] at hsig
        exact hne (List.append_eq_nil_iff.mp hsig).1
      rw [hsig, hws]
      by_cases hd : digitOf c = 0
      · simp [hd]
      · simp [hd]
    · have hempty : (significant (ws ++ cs.map digitOf)).isEmpty = false := by
        rw [List.isEmpty_eq_false_iff]
        exact hsig
      simp [hsig, hempty]

end FloatScan

namespace PlainDecimal

variable (p : PlainDecimal)

theorem digits_lt : ∀ d ∈ p.digits, d < 10 := by
  intro d hd
  obtain ⟨c, hc, rfl⟩ := List.mem_map.mp hd
  have hdigit := p.isDigit c hc
  simp only [Char.isDigit, Bool.and_eq_true, decide_eq_true_eq] at hdigit
  have hlt : c.toNat ≤ 57 := hdigit.2
  show c.toNat - 48 < 10
  omega

theorem scan_text : p.text.toList.foldl FloatScan.step {} =
    { digits := significant p.digits
      decimalPos := (significant (p.whole.map digitOf)).length
      foundDecimal := p.fraction.isSome
      leadingZerosAfterDecimal :=
        if significant (p.whole.map digitOf) = [] then
          p.behind.length - (significant p.digits).length
        else 0
      foundSignificant := !(significant p.digits).isEmpty } := by
  obtain ⟨whole, fraction, isDigit⟩ := p
  have hwhole : ∀ c ∈ whole, c.isDigit = true := fun c hc => isDigit c (List.mem_append_left _ hc)
  unfold text digits behind
  rw [String.toList_ofList, List.foldl_append, FloatScan.scan_whole hwhole, List.map_append]
  cases fraction with
  | none =>
    by_cases hws : significant (whole.map digitOf) = []
    · simp [hws]
    · simp [hws]
  | some cs =>
    exact FloatScan.scan_fraction (whole.map digitOf)
      fun c hc => isDigit c (List.mem_append_right _ hc)

/-- Where the point goes, as the scan counts it. -/
theorem decimalPos_eq :
    (if ((significant (p.whole.map digitOf)).length : Int) ≤ 0 then
      ((significant (p.whole.map digitOf)).length : Int) -
        (if significant (p.whole.map digitOf) = [] then
          (p.behind.length : Int) - (significant p.digits).length
        else 0)
      else (significant (p.whole.map digitOf)).length) =
      (significant p.digits).length - p.behind.length := by
  by_cases hws : significant (p.whole.map digitOf) = []
  · rw [hws, if_pos (by decide), if_pos rfl]
    show (0 : Int) - _ = _
    omega
  · have hlen : (significant p.digits).length =
        (significant (p.whole.map digitOf)).length + p.behind.length := by
      rw [digits, List.map_append, significant_append _ hws, List.length_append, List.length_map]
    have hpos := List.length_pos_iff.mpr hws
    rw [if_neg (by omega), hlen]
    omega

/-- The number in terms of its significant digits. -/
theorem value_eq (e : Int) (he : e = (significant p.digits).length - p.behind.length) :
    p.value = digitsNumber (significant p.digits) * 10 ^ (e - (significant p.digits).length) := by
  rw [he, digitsNumber_significant, value,
    show ((significant p.digits).length : Int) - p.behind.length - (significant p.digits).length =
      -p.behind.length by ring,
    zpow_neg, zpow_natCast, div_eq_mul_inv]

end PlainDecimal

/-- The digit-string encoder on the text of a number. -/
theorem encodesNumber_plain {p : PlainDecimal} (hfits : p.Fits) (isNegative : Bool) :
    EncodesNumber (encodeFloatString p.text isNegative) (p.signed isNegative) := by
  unfold encodeFloatString
  rw [p.scan_text]
  dsimp only
  by_cases hsig : significant p.digits = []
  · -- all digits are zeros
    have hvalue : p.signed isNegative = 0 := by
      have hzero : p.value = 0 := by
        rw [p.value_eq _ rfl, hsig]
        show ((0 : ℕ) : ℚ) * _ = 0
        rw [Nat.cast_zero, zero_mul]
      rw [PlainDecimal.signed, hzero, neg_zero, ite_self]
    rw [hsig, hvalue]
    exact .zero
  · have hempty : (significant p.digits).isEmpty = false := by
      rw [List.isEmpty_eq_false_iff]
      exact hsig
    rw [hempty, if_neg (by decide)]
    simp only [Bool.false_eq_true, if_false, add_zero]
    rw [p.decimalPos_eq]
    generalize he : ((significant p.digits).length : Int) - p.behind.length = e
    have hvalue := p.value_eq e he.symm
    have hlead := leadingDigits_significant p.digits_lt hsig
    have hrange : -8192 ≤ e ∧ e ≤ 8192 := by
      have hdigits := hfits.digits
      have hle := length_significant_le p.digits
      have hbehind : p.behind.length ≤ p.digits.length := by
        rw [PlainDecimal.digits, List.length_map, List.length_append]
        omega
      omega
    have hnormal := hlead.normal e hrange
    have hnumber := hlead.numberBytes_eq e
    have hkept : (leading 26 p.value : ℚ) * 10 ^ (e - (26 : ℕ)) = p.value := by
      rw [hvalue, hlead.leading_eq, digitsNumber_firstDigits_of_kept hlead.lt hfits.kept]
    rw [← hvalue] at hnormal hnumber
    rw [show (0x4000 + e) % 2 ^ 16 = 0x4000 + e by omega]
    unfold signExpMantissa PlainDecimal.signed
    cases isNegative with
    | true =>
      rw [if_pos rfl, if_pos rfl]
      show EncodesNumber (padTo 0xFF (numericSignNegative :: [_, _] ++
        ((packBcd (significant p.digits)).take 13).map (0xFF - ·))) _
      rw [List.map_take, padTo_mantissa]
      have hneg := EncodesNumber.neg hnormal
      rw [← hnumber, hkept] at hneg
      rw [List.length_map, ← List.map_take]
      simpa [positionBytes] using hneg
    | false =>
      rw [if_neg Bool.false_ne_true, if_neg Bool.false_ne_true]
      show EncodesNumber (padTo 0x00 (numericSignPositive :: [_, _] ++
        (packBcd (significant p.digits)).take 13)) _
      rw [padTo_mantissa]
      have hpos := EncodesNumber.pos hnormal
      rw [← hnumber, hkept] at hpos
      exact hpos

/-! ## Integers -/

/-- The decimal digits of a natural number. -/
def PlainDecimal.ofNat (n : Nat) : PlainDecimal where
  whole := Nat.toDigits 10 n
  fraction := none
  isDigit c hc := by
    rw [Option.getD_none, List.append_nil] at hc
    exact Nat.isDigit_of_mem_toDigits (by decide) (by decide) hc

namespace PlainDecimal

theorem ofNat_text (n : Nat) : (ofNat n).text = toString n := by
  unfold text ofNat
  rw [Option.elim_none, List.append_nil, Nat.toString_eq_ofList_toDigits]

theorem digitsNumber_digitOf (cs : List Char) :
    digitsNumber (cs.map digitOf) = Nat.ofDigitChars 10 cs 0 := by
  unfold digitsNumber Nat.ofDigitChars
  rw [List.foldl_map]
  congr 1
  funext acc c
  rw [Nat.mul_comm]
  rfl

theorem ofNat_value (n : Nat) : (ofNat n).value = n := by
  have hdigits : digitsNumber (ofNat n).digits = n := by
    show digitsNumber ((Nat.toDigits 10 n ++ []).map digitOf) = n
    rw [List.append_nil, digitsNumber_digitOf, Nat.ofDigitChars_ten_toDigits]
  rw [value, hdigits]
  show (n : ℚ) / 10 ^ 0 = n
  rw [pow_zero, div_one]

theorem ofNat_fits {n : Nat} (h : n < 10 ^ 20) : (ofNat n).Fits := by
  have hlength : (ofNat n).digits.length ≤ 20 := by
    show ((Nat.toDigits 10 n ++ []).map digitOf).length ≤ 20
    rw [List.length_map, List.append_nil]
    exact (Nat.length_toDigits_le_iff (by decide) (by decide)).mpr h
  refine ⟨by omega, ?_⟩
  have hle := length_significant_le (ofNat n).digits
  rw [List.drop_of_length_le (by omega)]
  exact nofun

end PlainDecimal

/-- Bytes stand for one number exactly if they are the same bytes. -/
theorem EncodesNumber.eq_iff {a b : Bytes} {q r : ℚ} (ha : EncodesNumber a q)
    (hb : EncodesNumber b r) : a = b ↔ q = r := by
  have hcompare := ha.compare_eq hb
  constructor
  · intro h
    rw [h, compare_bytes_self] at hcompare
    exact compare_eq_iff_eq.mp hcompare.symm
  · intro h
    rw [compare_eq_iff_eq.mpr h] at hcompare
    exact Std.LawfulEqCmp.eq_of_compare hcompare

/-- The integer encoder writes what the digit-string encoder writes, and this one's bytes are
equal and ordered as the numbers are. -/
theorem plainDecimals_exact (n : Int64) {p r : PlainDecimal} (hp : p.Fits) (hr : r.Fits)
    (np nr : Bool) :
    encodeI64FixedWidth n.toInt =
      encodeFloatString (toString n.toInt.natAbs) (decide (n.toInt < 0)) ∧
    (encodeFloatString p.text np = encodeFloatString r.text nr ↔ p.signed np = r.signed nr) ∧
    (p.signed np ≠ r.signed nr →
      compare (encodeFloatString p.text np) (encodeFloatString r.text nr) =
        compare (p.signed np) (r.signed nr)) := by
  have hbound : n.toInt.natAbs < 10 ^ 20 := by
    have hlo := n.le_toInt
    have hhi := n.toInt_lt
    omega
  have hplain := encodesNumber_plain (PlainDecimal.ofNat_fits hbound) (decide (n.toInt < 0))
  have hsigned : (PlainDecimal.ofNat n.toInt.natAbs).signed (decide (n.toInt < 0)) = n.toInt := by
    unfold PlainDecimal.signed
    rw [PlainDecimal.ofNat_value, Nat.cast_natAbs]
    by_cases hneg : n.toInt < 0
    · rw [if_pos (decide_eq_true hneg), abs_of_neg hneg, Int.cast_neg, neg_neg]
    · rw [if_neg (by simpa using hneg), abs_of_nonneg (not_lt.mp hneg)]
  rw [PlainDecimal.ofNat_text] at hplain
  refine ⟨((encodesNumber_int hbound).eq_iff hplain).mpr hsigned.symm,
    (encodesNumber_plain hp np).eq_iff (encodesNumber_plain hr nr), fun _ => ?_⟩
  exact (encodesNumber_plain hp np).compare_eq (encodesNumber_plain hr nr)

namespace Scales

/-- `0.50`, and below `.5`. -/
def half : PlainDecimal := ⟨['0'], some ['5', '0'], List.all_eq_true.mp rfl⟩

def bareHalf : PlainDecimal := ⟨[], some ['5'], List.all_eq_true.mp rfl⟩

theorem half_fits : half.Fits where
  digits := lt_of_eq_of_lt (show half.digits.length = 3 from rfl) (by norm_num)
  kept := by decide

theorem bareHalf_fits : bareHalf.Fits where
  digits := lt_of_eq_of_lt (show bareHalf.digits.length = 1 from rfl) (by norm_num)
  kept := by decide

/-- A zero in front of the point and one at the end change nothing. -/
theorem halves_exact :
    encodeI64FixedWidth (-100 : Int64).toInt = encodeFloatString "100" true ∧
    encodeFloatString "0.50" true = encodeFloatString ".5" true := by
  obtain ⟨hint, heq, -⟩ := plainDecimals_exact (-100) half_fits bareHalf_fits true true
  refine ⟨hint, heq.mpr ?_⟩
  show -((50 : ℕ) / 10 ^ 2 : ℚ) = -((5 : ℕ) / 10 ^ 1)
  norm_num

end Scales

end StellarDb
