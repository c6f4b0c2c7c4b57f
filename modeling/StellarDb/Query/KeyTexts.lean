import StellarDb.Lib.Lines
import StellarDb.Query.Comparison

/-!
# StellarDb — values by their texts (`operators/accumulator.rs`)

`DISTINCT`, `GROUP BY` and `array::distinct` tell values apart by a text. On scalars the text of a
value gives the value back: a number is written in decimal notation (`readNumeral`), a string in
quotes and a reference behind `ref:`, so that the first character says which of these it is. What
`rust_decimal` writes for a number is assumed to be read back as that number
(`DecimalTexts`); `Decimal.text` is such a notation.
-/

namespace StellarDb

open Lines

/-! ## Numerals -/

/-- The number that an unsigned text in decimal notation stands for. -/
def readDigits (digits : List Char) : Option ℚ :=
  let whole := digits.takeWhile (· ≠ '.')
  let fraction := (digits.dropWhile (· ≠ '.')).drop 1
  if whole ≠ [] ∧ (whole ++ fraction).all Char.isDigit then
    some ((Nat.ofDigitChars 10 (whole ++ fraction) 0 : ℚ) / 10 ^ fraction.length)
  else none

def readNumeral (s : String) : Option ℚ :=
  match s.toList with
  | '-' :: digits => (readDigits digits).map (-·)
  | digits => readDigits digits

theorem readDigits_of_split {whole fraction : List Char} (rest : List Char) (hne : whole ≠ [])
    (hwhole : ∀ c ∈ whole, c.isDigit = true) (hfraction : ∀ c ∈ fraction, c.isDigit = true)
    (hrest : rest = [] ∧ fraction = [] ∨ rest = '.' :: fraction) :
    readDigits (whole ++ rest) =
      some ((Nat.ofDigitChars 10 (whole ++ fraction) 0 : ℚ) / 10 ^ fraction.length) := by
  have hplain : ∀ c ∈ whole, decide (c ≠ '.') = true := by
    intro c hc
    apply decide_eq_true
    rintro rfl
    exact absurd (hwhole _ hc) (by decide)
  have hall : (whole ++ fraction).all Char.isDigit = true :=
    List.all_eq_true.mpr fun c hc => (List.mem_append.mp hc).elim (hwhole c) (hfraction c)
  unfold readDigits
  rw [List.takeWhile_append_of_pos hplain, List.dropWhile_append_of_pos hplain]
  rcases hrest with ⟨rfl, rfl⟩ | rfl
  · rw [List.append_nil] at hall ⊢
    show (if whole ++ [] ≠ [] ∧ (whole ++ [] ++ []).all Char.isDigit then
      some ((Nat.ofDigitChars 10 (whole ++ [] ++ []) 0 : ℚ) / 10 ^ 0) else none) = _
    rw [List.append_nil, List.append_nil, if_pos ⟨hne, hall⟩]
    rfl
  · show (if whole ++ [] ≠ [] ∧ (whole ++ [] ++ fraction).all Char.isDigit then
      some ((Nat.ofDigitChars 10 (whole ++ [] ++ fraction) 0 : ℚ) / 10 ^ fraction.length)
      else none) = _
    rw [List.append_nil, if_pos ⟨hne, hall⟩]

/-- A numeral starts with a digit or a minus sign. -/
theorem head_of_readNumeral {s : String} {q : ℚ} (h : readNumeral s = some q) :
    ∃ c cs, s.toList = c :: cs ∧ (c = '-' ∨ c.isDigit = true) := by
  unfold readNumeral at h
  split at h
  · next digits hs => exact ⟨'-', digits, hs, Or.inl rfl⟩
  · cases hs : s.toList with
    | nil => rw [hs] at h; cases h
    | cons c cs =>
      refine ⟨c, cs, rfl, Or.inr ?_⟩
      rw [hs, readDigits] at h
      split at h
      · next hcond =>
        -- the text before the point is not empty, so it starts where the whole text does
        have hc : (c :: cs).takeWhile (· ≠ '.') = c :: cs.takeWhile (· ≠ '.') := by
          have hne := hcond.1
          rw [List.takeWhile_cons] at hne ⊢
          split at hne
          · next hpoint => rw [if_pos hpoint]
          · exact absurd rfl hne
        apply List.all_eq_true.mp hcond.2
        rw [hc]
        exact List.mem_cons_self
      · cases h

/-! ## Integers -/

theorem toDigits_ne_minus (n : Nat) (digits : List Char) : Nat.toDigits 10 n ≠ '-' :: digits := by
  intro h
  have hmem : '-' ∈ Nat.toDigits 10 n := by
    rw [h]
    exact List.mem_cons_self
  exact absurd (Nat.isDigit_of_mem_toDigits (by decide) (by decide) hmem) (by decide)

theorem readDigits_toDigits (n : Nat) : readDigits (Nat.toDigits 10 n) = some (n : ℚ) := by
  have h := readDigits_of_split [] (Nat.toDigits_ne_nil (n := n) (b := 10))
    (fun c hc => Nat.isDigit_of_mem_toDigits (by decide) (by decide) hc)
    (fun _ h => absurd h List.not_mem_nil) (Or.inl ⟨rfl, rfl⟩)
  rw [List.append_nil, Nat.ofDigitChars_ten_toDigits] at h
  rw [h]
  show some ((n : ℚ) / 10 ^ 0) = _
  rw [pow_zero, div_one]

theorem readNumeral_int (n : Int) : readNumeral (toString n) = some (n : ℚ) := by
  rw [Int.toString_eq_repr, Int.repr_eq_if]
  split
  · next hn =>
    have hdigits : n.toNat.repr.toList = Nat.toDigits 10 n.toNat := Nat.toList_repr
    unfold readNumeral
    rw [hdigits]
    split
    · next digits heq => exact absurd heq (toDigits_ne_minus _ _)
    · rw [readDigits_toDigits]
      congr 1
      exact_mod_cast congrArg (Int.cast (R := ℚ)) (Int.toNat_of_nonneg hn)
  · next hn =>
    have hdigits : ("-" ++ (-n).toNat.repr).toList = '-' :: Nat.toDigits 10 (-n).toNat := by
      rw [String.toList_append, Nat.toList_repr]
      rfl
    unfold readNumeral
    rw [hdigits]
    show (readDigits (Nat.toDigits 10 (-n).toNat)).map (-·) = _
    rw [readDigits_toDigits]
    have hcast : ((-n).toNat : ℤ) = -n := Int.toNat_of_nonneg (by omega)
    show some (-((-n).toNat : ℚ)) = _
    rw [← Int.cast_natCast, hcast, Int.cast_neg, neg_neg]

/-! ## Decimals -/

/-- `Display` of a decimal: all digits behind the point, at least one before it. -/
def Decimal.text (d : Decimal) : String :=
  let digits := Nat.toDigits 10 d.mantissa
  let padded := List.replicate (d.scale + 1 - digits.length) '0' ++ digits
  let whole := padded.take (padded.length - d.scale)
  let fraction := padded.drop (padded.length - d.scale)
  String.ofList ((if d.negative then ['-'] else []) ++
    (whole ++ if fraction = [] then [] else '.' :: fraction))

theorem Decimal.readNumeral_text (d : Decimal) : readNumeral d.text = some d.toRat := by
  generalize hdigits : Nat.toDigits 10 d.mantissa = digits
  generalize hpadded : List.replicate (d.scale + 1 - digits.length) '0' ++ digits = padded
  generalize hwhole : padded.take (padded.length - d.scale) = whole
  generalize hfraction : padded.drop (padded.length - d.scale) = fraction
  have htext : d.text.toList = (if d.negative then ['-'] else []) ++
      (whole ++ if fraction = [] then [] else '.' :: fraction) := by
    rw [← hfraction, ← hwhole, ← hpadded, ← hdigits]
    exact String.toList_ofList
  have hpaddedDigits : ∀ c ∈ padded, c.isDigit = true := by
    rw [← hpadded, ← hdigits]
    intro c hc
    rcases List.mem_append.mp hc with hc | hc
    · rw [List.eq_of_mem_replicate hc]
      rfl
    · exact Nat.isDigit_of_mem_toDigits (by decide) (by decide) hc
  have hlength : d.scale < padded.length := by
    rw [← hpadded, List.length_append, List.length_replicate]
    omega
  have hjoin : whole ++ fraction = padded := by
    rw [← hwhole, ← hfraction]
    exact List.take_append_drop _ _
  have hwholeDigits : ∀ c ∈ whole, c.isDigit = true := fun c hc =>
    hpaddedDigits c (hjoin ▸ List.mem_append_left _ hc)
  have hfractionDigits : ∀ c ∈ fraction, c.isDigit = true := fun c hc =>
    hpaddedDigits c (hjoin ▸ List.mem_append_right _ hc)
  have hscale : fraction.length = d.scale := by
    rw [← hfraction, List.length_drop]
    omega
  have hne : whole ≠ [] := by
    apply List.ne_nil_of_length_pos
    rw [← hwhole, List.length_take]
    omega
  -- the padding does not change the number
  have hnumber : Nat.ofDigitChars 10 padded 0 = d.mantissa := by
    rw [← hpadded, Nat.ofDigitChars_append, Nat.ofDigitChars_replicate_zero, Nat.mul_zero,
      ← hdigits, Nat.ofDigitChars_ten_toDigits]
  have hread := readDigits_of_split (if fraction = [] then [] else '.' :: fraction) hne hwholeDigits
    hfractionDigits (by split <;> simp [*])
  rw [hjoin, hnumber, hscale] at hread
  unfold readNumeral
  rw [htext, Decimal.toRat]
  cases d.negative with
  | true =>
    show (readDigits (whole ++ _)).map (-·) = _
    rw [hread]
    show some (-((d.mantissa : ℚ) / 10 ^ d.scale.val)) = _
    rw [if_pos rfl, neg_div]
  | false =>
    rw [if_neg Bool.false_ne_true, List.nil_append, if_neg Bool.false_ne_true]
    obtain ⟨c, cs, hcs⟩ := List.exists_cons_of_ne_nil hne
    have hc : c ≠ '-' := by
      rintro rfl
      exact absurd (hwholeDigits '-' (hcs ▸ List.mem_cons_self)) (by decide)
    rw [hcs, List.cons_append] at hread ⊢
    split
    · next heq => exact absurd (List.cons.inj heq).1 hc
    · exact hread

/-! ## Reading a key -/

theorem quoted_inj {a b : String} (h : "\"" ++ a ++ "\"" = "\"" ++ b ++ "\"") : a = b := by
  have hlist := congrArg String.toList h
  rw [String.toList_append, String.toList_append, String.toList_append, String.toList_append] at hlist
  exact String.toList_inj.mp (List.append_cancel_left (List.append_cancel_right hlist))

theorem ref_inj {a b : String} (h : "ref:" ++ a = "ref:" ++ b) : a = b := by
  have hlist := congrArg String.toList h
  rw [String.toList_append, String.toList_append] at hlist
  exact String.toList_inj.mp (List.append_cancel_left hlist)

section Keys

variable [External]

/-- `Decimal::to_string` writes a number in decimal notation. -/
def DecimalTexts : Prop := ∀ d, readNumeral (External.decimalToString d) = some d.toRat

variable [ValueText] {v w : Value} {s t : Scalar}

omit [External] [ValueText] in
theorem comparedType_number {q : ℚ} (hv : v.scalar = some (.number q)) :
    v.comparedType = some .number := by
  cases v with
  | int n => rfl
  | decimal d => rfl
  | _ => cases hv

theorem readNumeral_serializeValue (htexts : DecimalTexts) {q : ℚ}
    (hv : v.scalar = some (.number q)) : readNumeral (serializeValue v) = some q := by
  cases v with
  | int n =>
    cases hv
    exact readNumeral_int n.toInt
  | decimal d =>
    cases hv
    exact htexts d
  | _ => cases hv

/-- The first character of the text of a scalar that is no number. -/
def keyHead : Value → Char
  | .bool true => 't'
  | .bool false => 'f'
  | .string _ => '"'
  | _ => 'r'

theorem head_serializeValue (hv : v.scalar = some s) (hs : ∀ q, s ≠ .number q) :
    (serializeValue v).toList.head? = some (keyHead v) := by
  cases v with
  | bool b =>
    cases b with
    | true =>
      show "true".toList.head? = some 't'
      decide
    | false =>
      show "false".toList.head? = some 'f'
      decide
  | string text =>
    show ("\"" ++ text ++ "\"").toList.head? = _
    rw [String.toList_append, String.toList_append]
    rfl
  | reference id =>
    show ("ref:" ++ id).toList.head? = _
    rw [String.toList_append]
    rfl
  | int n =>
    cases hv
    exact absurd rfl (hs _)
  | decimal d =>
    cases hv
    exact absurd rfl (hs _)
  | _ => cases hv

omit [External] [ValueText] in
theorem bool_of_keyHead {a b : Bool} (h : keyHead (.bool a) = keyHead (.bool b)) : a = b := by
  cases a <;> cases b <;> first | rfl | exact absurd h (by decide)

def typeOfHead (c : Char) : ComparedType :=
  if c = '"' then .string else if c = 'r' then .reference else .bool

omit [External] [ValueText] in
theorem comparedType_of_keyHead (hv : v.scalar = some s) (hs : ∀ q, s ≠ .number q) :
    v.comparedType = some (typeOfHead (keyHead v)) := by
  cases v with
  | bool b => cases b <;> rfl
  | int n =>
    cases hv
    exact absurd rfl (hs _)
  | decimal d =>
    cases hv
    exact absurd rfl (hs _)
  | _ => cases hv <;> rfl

omit [External] [ValueText] in
theorem keyHead_plain (v : Value) : keyHead v ≠ '-' ∧ (keyHead v).isDigit = false := by
  unfold keyHead
  split <;> decide

theorem serializeValue_number_ne (htexts : DecimalTexts) {q : ℚ}
    (hv : v.scalar = some (.number q)) (hw : w.scalar = some t) (ht : ∀ q, t ≠ .number q) :
    serializeValue v ≠ serializeValue w := by
  intro h
  obtain ⟨c, cs, hcs, hc⟩ := head_of_readNumeral (readNumeral_serializeValue htexts hv)
  have hhead := head_serializeValue hw ht
  rw [← h, hcs, List.head?_cons, Option.some_inj] at hhead
  obtain ⟨hminus, hdigit⟩ := keyHead_plain w
  rcases hc with rfl | hc
  · exact hminus hhead.symm
  · rw [hhead, hdigit] at hc
    cases hc

/-- Scalars with one text are of one type and have one value. -/
theorem scalar_of_serializeValue (htexts : DecimalTexts) (hv : v.scalar = some s)
    (hw : w.scalar = some t) (h : serializeValue v = serializeValue w) :
    s = t ∧ v.comparedType = w.comparedType := by
  cases s with
  | number q =>
    cases t with
    | number q' =>
      have hq := readNumeral_serializeValue htexts hv
      rw [h, readNumeral_serializeValue htexts hw, Option.some_inj] at hq
      exact ⟨congrArg _ hq.symm, by rw [comparedType_number hv, comparedType_number hw]⟩
    | _ => exact absurd h (serializeValue_number_ne htexts hv hw fun _ => Scalar.noConfusion)
  | _ =>
    cases t with
    | number q =>
      exact absurd h.symm (serializeValue_number_ne htexts hw hv fun _ => Scalar.noConfusion)
    | _ =>
      have hhead : keyHead v = keyHead w := by
        have hheadv := head_serializeValue hv fun _ => Scalar.noConfusion
        rw [h, head_serializeValue hw fun _ => Scalar.noConfusion] at hheadv
        exact (Option.some_inj.mp hheadv).symm
      have htype : v.comparedType = w.comparedType := by
        rw [comparedType_of_keyHead hv fun _ => Scalar.noConfusion,
          comparedType_of_keyHead hw fun _ => Scalar.noConfusion, hhead]
      refine ⟨?_, htype⟩
      cases v <;> cases hv <;> cases w <;> cases hw <;> cases htype <;> first
        | exact congrArg Scalar.bool (bool_of_keyHead hhead)
        | exact congrArg Scalar.text (quoted_inj h)
        | exact congrArg Scalar.text (ref_inj h)

end Keys

end StellarDb
