import Mathlib.Data.List.Forall2
import Mathlib.Data.Nat.Bitwise
import StellarDb.Value

/-!
# StellarDb — string escapes (`parse/value.rs`)

`unescape_string` decodes what stands between the quotes of a string literal. `Written` says how a
text may be written: each character as itself, as a short escape, as `\u` and four hexadecimal
digits, or as two of these for a pair of surrogates. The decoder returns a text exactly for the
ways of writing it (`unescapeString_iff`): one round reads exactly one written character
(`unescapeChar_iff`), and the loop goes on with what is left.
-/

namespace StellarDb

inductive EscapeError where
  | invalidStringEscape (msg : String)
deriving DecidableEq, Repr

/-! ## The decoder -/

/-- `char::to_digit(16)` -/
def toDigit16 (c : Char) : Option Nat :=
  if '0' ≤ c ∧ c ≤ '9' then some (c.toNat - '0'.toNat)
  else if 'a' ≤ c ∧ c ≤ 'f' then some (c.toNat - 'a'.toNat + 10)
  else if 'A' ≤ c ∧ c ≤ 'F' then some (c.toNat - 'A'.toNat + 10)
  else none

/-- `char::from_u32` -/
def charFromU32 (n : Nat) : Option Char := if n.isValidChar then some (Char.ofNat n) else none

def hexDigitsExpected : EscapeError :=
  .invalidStringEscape "expected four hexadecimal digits after \\u"

/-- The rounds of `read_hex_quad` that are left, with the `u16` read so far. -/
def readHexDigits : Nat → Nat → List Char → Except EscapeError (Nat × List Char)
  | 0, value, chars => .ok (value, chars)
  | _ + 1, _, [] => .error hexDigitsExpected
  | n + 1, value, c :: chars =>
    match toDigit16 c with
    | none => .error hexDigitsExpected
    | some digit => readHexDigits n ((value <<< 4) % 2 ^ 16 ||| digit) chars

def readHexQuad (chars : List Char) : Except EscapeError (Nat × List Char) :=
  readHexDigits 4 0 chars

def lowSurrogateExpected : EscapeError :=
  .invalidStringEscape "high surrogate must be followed by a low surrogate"

/-- `char::from_u32(codepoint).ok_or_else(..)` -/
def decodedChar (codepoint : Nat) (chars : List Char) : Except EscapeError (Char × List Char) :=
  match charFromU32 codepoint with
  | some c => .ok (c, chars)
  | none =>
    let hex := (Nat.toDigits 16 codepoint).map Char.toUpper
    .error (.invalidStringEscape
      ("invalid Unicode scalar U+" ++ String.ofList (List.replicate (4 - hex.length) '0' ++ hex)))

/-- The second half of a pair, behind the value of the first. -/
def decodeLowSurrogate (first : Nat) (chars : List Char) :
    Except EscapeError (Char × List Char) :=
  match chars with
  | a :: b :: chars =>
    if a = '\\' ∧ b = 'u' then
      match readHexQuad chars with
      | .error e => .error e
      | .ok (second, chars) =>
        if 0xDC00 ≤ second ∧ second ≤ 0xDFFF then
          decodedChar (0x10000 + ((first - 0xD800) <<< 10 ||| (second - 0xDC00))) chars
        else .error lowSurrogateExpected
    else .error lowSurrogateExpected
  | _ => .error lowSurrogateExpected

def decodeUnicodeEscape (chars : List Char) : Except EscapeError (Char × List Char) :=
  match readHexQuad chars with
  | .error e => .error e
  | .ok (first, chars) =>
    if 0xD800 ≤ first ∧ first ≤ 0xDBFF then decodeLowSurrogate first chars
    else if 0xDC00 ≤ first ∧ first ≤ 0xDFFF then
      .error (.invalidStringEscape "unexpected low surrogate")
    else decodedChar first chars

/-- The escapes of one character behind the backslash. -/
def shortEscapes : List (Char × Char) :=
  [('n', '\n'), ('t', '\t'), ('r', '\r'), ('\\', '\\'), ('"', '"'), ('\x27', '\x27'), ('/', '/'),
    ('b', '\x08'), ('f', '\x0C')]

/-- One round of `unescape_string`: the character it pushes and the characters left. -/
def unescapeChar : List Char → Except EscapeError (Option (Char × List Char))
  | [] => .ok none
  | c :: chars =>
    if c = '\\' then
      match chars with
      | [] => .error (.invalidStringEscape "trailing backslash")
      | e :: chars =>
        match shortEscapes.lookup e with
        | some decoded => .ok (some (decoded, chars))
        | none =>
          if e = 'u' then (decodeUnicodeEscape chars).map some
          else .error (.invalidStringEscape ("\\" ++ String.singleton e))
    else .ok (some (c, chars))

/-! ## Ways of writing a text -/

/-- Four hexadecimal digits, of either case. -/
structure HexQuad (w : List Char) (digits : List Nat) : Prop where
  read : List.Forall₂ (fun c d => toDigit16 c = some d) w digits
  four : digits.length = 4

/-- The number that hexadecimal digits make. -/
def hexNumber (digits : List Nat) : Nat := digits.foldl (fun value d => value * 16 + d) 0

/-- What stands behind `\u`: the digits of the character, or of its first surrogate, and then a
second escape. -/
inductive UnicodeEscape : Char → List Char → Prop where
  | quad {c : Char} {w : List Char} {digits : List Nat} (hquad : HexQuad w digits)
    (hc : c.toNat = hexNumber digits) : UnicodeEscape c w
  | pair {c : Char} {w w' : List Char} {high low : List Nat} (hhigh : HexQuad w high)
    (hlow : HexQuad w' low) (hhigh' : 0xD800 ≤ hexNumber high ∧ hexNumber high ≤ 0xDBFF)
    (hlow' : 0xDC00 ≤ hexNumber low ∧ hexNumber low ≤ 0xDFFF)
    (hc : c.toNat = 0x10000 + ((hexNumber high - 0xD800) * 2 ^ 10 + (hexNumber low - 0xDC00))) :
    UnicodeEscape c (w ++ '\\' :: 'u' :: w')

/-- The ways of writing one character. -/
inductive WrittenChar : Char → List Char → Prop where
  | plain {c : Char} (h : c ≠ '\\') : WrittenChar c [c]
  | short {e c : Char} (h : (e, c) ∈ shortEscapes) : WrittenChar c ['\\', e]
  | unicode {c : Char} {w : List Char} (h : UnicodeEscape c w) :
    WrittenChar c ('\\' :: 'u' :: w)

/-- The ways of writing a text, character by character. -/
inductive Written : List Char → List Char → Prop where
  | nil : Written [] []
  | cons {c : Char} {w cs ws : List Char} (hc : WrittenChar c w) (hcs : Written cs ws) :
    Written (c :: cs) (w ++ ws)

theorem WrittenChar.ne_nil {c : Char} {w : List Char} (h : WrittenChar c w) : w ≠ [] := by
  cases h <;> exact List.cons_ne_nil _ _

/-! ## Digits -/

theorem toDigit16_lt {c : Char} {d : Nat} (h : toDigit16 c = some d) : d < 16 := by
  have hnat : ∀ {a b : Char}, a ≤ b → a.toNat ≤ b.toNat := fun h => h
  have h9 : '9'.toNat = 57 := rfl
  have hf : 'f'.toNat = 102 := rfl
  have hF : 'F'.toNat = 70 := rfl
  have h0 : '0'.toNat = 48 := rfl
  have ha : 'a'.toNat = 97 := rfl
  have hA : 'A'.toNat = 65 := rfl
  unfold toDigit16 at h
  split at h
  · next hc =>
    have := hnat hc.2
    have := Option.some.inj h
    omega
  split at h
  · next hc =>
    have := hnat hc.2
    have := Option.some.inj h
    omega
  split at h
  · next hc =>
    have := hnat hc.2
    have := Option.some.inj h
    omega
  · cases h

/-- A digit goes into the four bits that the shift leaves free. -/
theorem shift_or_digit {value d : Nat} (hvalue : value < 2 ^ 12) (hd : d < 16) :
    ((value <<< 4) % 2 ^ 16 ||| d) = value * 16 + d := by
  have hshift : value <<< 4 = value * 16 := Nat.shiftLeft_eq value 4
  rw [Nat.mod_eq_of_lt (by omega), ← Nat.shiftLeft_add_eq_or_of_lt (by omega), hshift]

/-- The loop reads as many digits as it has rounds, and the value does not overflow. -/
theorem readHexDigits_iff {n value v : Nat} {chars rest : List Char} (hn : n ≤ 4)
    (hvalue : value < 16 ^ (4 - n)) :
    readHexDigits n value chars = .ok (v, rest) ↔
      ∃ w digits, List.Forall₂ (fun c d => toDigit16 c = some d) w digits ∧ digits.length = n ∧
        v = digits.foldl (fun value d => value * 16 + d) value ∧ chars = w ++ rest := by
  induction n generalizing value chars with
  | zero =>
    constructor
    · intro h
      cases h
      exact ⟨[], [], .nil, rfl, rfl, rfl⟩
    · intro ⟨w, digits, hread, hlength, hv, hchars⟩
      obtain rfl := List.length_eq_zero_iff.mp hlength
      cases hread
      rw [hv, hchars]
      rfl
  | succ n ih =>
    cases chars with
    | nil =>
      refine iff_of_false nofun ?_
      intro ⟨w, digits, hread, hlength, _, hchars⟩
      rw [List.nil_eq_append_iff] at hchars
      rw [hchars.1] at hread
      cases hread
      cases hlength
    | cons c chars =>
      rw [readHexDigits]
      cases hc : toDigit16 c with
      | none =>
        refine iff_of_false nofun ?_
        intro ⟨w, digits, hread, hlength, _, hchars⟩
        cases hread with
        | nil => cases hlength
        | cons hd _ =>
          rw [List.cons_append, List.cons.injEq] at hchars
          rw [← hchars.1, hc] at hd
          cases hd
      | some d =>
        have hd := toDigit16_lt hc
        have hsmall : value < 2 ^ 12 := by
          have hpow : 16 ^ (4 - (n + 1)) ≤ 16 ^ 3 := Nat.pow_le_pow_right (by decide) (by omega)
          omega
        have hnext : value * 16 + d < 16 ^ (4 - n) := by
          rw [show 4 - n = 4 - (n + 1) + 1 by omega, pow_succ]
          omega
        show readHexDigits n ((value <<< 4) % 2 ^ 16 ||| d) chars = _ ↔ _
        rw [shift_or_digit hsmall hd, ih (Nat.le_of_succ_le hn) hnext]
        constructor
        · intro ⟨w, digits, hread, hlength, hv, hchars⟩
          exact ⟨c :: w, d :: digits, .cons hc hread, congrArg (· + 1) hlength, hv,
            congrArg (c :: ·) hchars⟩
        · intro ⟨w, digits, hread, hlength, hv, hchars⟩
          cases hread with
          | nil => cases hlength
          | cons hd' hread =>
            rw [List.cons_append, List.cons.injEq] at hchars
            obtain ⟨rfl, hchars⟩ := hchars
            obtain rfl := Option.some.inj (hc.symm.trans hd')
            exact ⟨_, _, hread, Nat.succ.inj hlength, hv, hchars⟩

theorem readHexQuad_iff {v : Nat} {chars rest : List Char} :
    readHexQuad chars = .ok (v, rest) ↔
      ∃ w digits, HexQuad w digits ∧ v = hexNumber digits ∧ chars = w ++ rest := by
  rw [readHexQuad, readHexDigits_iff le_rfl (by decide)]
  constructor
  · intro ⟨w, digits, hread, hlength, hv, hchars⟩
    exact ⟨w, digits, ⟨hread, hlength⟩, hv, hchars⟩
  · intro ⟨w, digits, hquad, hv, hchars⟩
    exact ⟨w, digits, hquad.read, hquad.four, hv, hchars⟩

/-! ## Characters -/

/-- A code point is decoded to the character that has it. -/
theorem decodedChar_iff {n : Nat} {chars rest : List Char} {c : Char} :
    decodedChar n chars = .ok (c, rest) ↔ c.toNat = n ∧ chars = rest := by
  unfold decodedChar charFromU32
  by_cases hvalid : n.isValidChar
  · have hn : (Char.ofNat n).toNat = n := by
      unfold Char.ofNat
      rw [dif_pos hvalid]
      rfl
    rw [if_pos hvalid]
    show Except.ok (Char.ofNat n, chars) = Except.ok (c, rest) ↔ _
    rw [Except.ok.injEq, Prod.mk.injEq]
    refine and_congr_left fun _ => ?_
    constructor
    · intro h
      rw [← h, hn]
    · intro h
      rw [← h, Char.ofNat_toNat]
  · rw [if_neg hvalid]
    refine iff_of_false nofun fun h => hvalid ?_
    rw [← h.1]
    exact c.valid

/-- The two halves of a code point beyond `0xFFFF` do not overlap. -/
theorem surrogates_or {high low : Nat} (hlow : low < 2 ^ 10) :
    (high <<< 10 ||| low) = high * 2 ^ 10 + low := by
  rw [← Nat.shiftLeft_add_eq_or_of_lt hlow, Nat.shiftLeft_eq]

theorem decodeLowSurrogate_iff {first : Nat} {chars rest : List Char} {c : Char} :
    decodeLowSurrogate first chars = .ok (c, rest) ↔
      ∃ w low, HexQuad w low ∧ (0xDC00 ≤ hexNumber low ∧ hexNumber low ≤ 0xDFFF) ∧
        c.toNat = 0x10000 + ((first - 0xD800) * 2 ^ 10 + (hexNumber low - 0xDC00)) ∧
        chars = '\\' :: 'u' :: (w ++ rest) := by
  match chars with
  | [] => exact iff_of_false nofun fun ⟨_, _, _, _, _, h⟩ => by cases h
  | [a] => exact iff_of_false nofun fun ⟨_, _, _, _, _, h⟩ => by cases h
  | a :: b :: chars =>
    unfold decodeLowSurrogate
    dsimp only
    by_cases hab : a = '\\' ∧ b = 'u'
    · rw [if_pos hab]
      constructor
      · intro h
        split at h
        · cases h
        next second left hquad =>
        split at h
        · next hrange =>
          obtain ⟨w, low, hlow, rfl, hchars⟩ := readHexQuad_iff.mp hquad
          rw [surrogates_or (by omega)] at h
          obtain ⟨hc, rfl⟩ := decodedChar_iff.mp h
          exact ⟨w, low, hlow, hrange, hc, by rw [hab.1, hab.2, hchars]⟩
        · cases h
      · intro ⟨w, low, hlow, hrange, hc, hchars⟩
        simp only [List.cons.injEq] at hchars
        rw [readHexQuad_iff.mpr ⟨w, low, hlow, rfl, hchars.2.2⟩]
        show (if _ then _ else _) = _
        rw [if_pos hrange, surrogates_or (by omega)]
        exact decodedChar_iff.mpr ⟨hc, rfl⟩
    · rw [if_neg hab]
      refine iff_of_false nofun fun ⟨_, _, _, _, _, hchars⟩ => hab ?_
      simp only [List.cons.injEq] at hchars
      exact ⟨hchars.1, hchars.2.1⟩

/-- No character is a surrogate. -/
theorem not_surrogate (c : Char) : ¬ (0xD800 ≤ c.toNat ∧ c.toNat ≤ 0xDFFF) := by
  intro h
  have hvalid : c.toNat < 0xD800 ∨ 0xDFFF < c.toNat ∧ c.toNat < 0x110000 := c.valid
  omega

theorem decodeUnicodeEscape_iff {chars rest : List Char} {c : Char} :
    decodeUnicodeEscape chars = .ok (c, rest) ↔
      ∃ w, UnicodeEscape c w ∧ chars = w ++ rest := by
  unfold decodeUnicodeEscape
  constructor
  · intro h
    split at h
    · cases h
    next first left hquad =>
    obtain ⟨w, digits, hw, rfl, rfl⟩ := readHexQuad_iff.mp hquad
    split at h
    · next hhigh =>
      obtain ⟨w', low, hlow, hrange, hc, rfl⟩ := decodeLowSurrogate_iff.mp h
      exact ⟨_, .pair hw hlow hhigh hrange hc, by simp⟩
    split at h
    · cases h
    · obtain ⟨hc, rfl⟩ := decodedChar_iff.mp h
      exact ⟨w, .quad hw hc, rfl⟩
  · intro ⟨w, hw, hchars⟩
    cases hw with
    | quad hquad hc =>
      have hscalar := not_surrogate c
      rw [readHexQuad_iff.mpr ⟨w, _, hquad, rfl, hchars⟩]
      show (if _ then _ else _) = _
      rw [if_neg (by omega), if_neg (by omega)]
      exact decodedChar_iff.mpr ⟨hc, rfl⟩
    | pair hhigh hlow hhigh' hlow' hc =>
      rw [List.append_assoc] at hchars
      rw [readHexQuad_iff.mpr ⟨_, _, hhigh, rfl, hchars⟩]
      show (if _ then _ else _) = _
      rw [if_pos hhigh']
      exact decodeLowSurrogate_iff.mpr ⟨_, _, hlow, hlow', hc, rfl⟩

theorem lookup_shortEscapes {e c : Char} :
    shortEscapes.lookup e = some c ↔ (e, c) ∈ shortEscapes := by
  constructor
  · intro h
    obtain ⟨before, after, hsplit, _⟩ := List.lookup_eq_some_iff.mp h
    rw [hsplit]
    exact List.mem_append_right _ List.mem_cons_self
  · have hall : ∀ p ∈ shortEscapes, shortEscapes.lookup p.1 = some p.2 := by decide
    exact hall (e, c)

/-- One round reads one written character, whatever follows it. -/
theorem unescapeChar_iff {chars rest : List Char} {c : Char} :
    unescapeChar chars = .ok (some (c, rest)) ↔ ∃ w, WrittenChar c w ∧ chars = w ++ rest := by
  constructor
  · intro h
    unfold unescapeChar at h
    split at h
    · cases h
    next a chars =>
    split at h
    · next ha =>
      subst ha
      split at h
      · cases h
      next e chars =>
      split at h
      · next decoded hshort =>
        cases h
        exact ⟨_, .short (lookup_shortEscapes.mp hshort), rfl⟩
      split at h
      · next he =>
        subst he
        cases hdecode : decodeUnicodeEscape chars with
        | error e => rw [hdecode] at h; cases h
        | ok p =>
          rw [hdecode] at h
          cases h
          obtain ⟨w, hw, rfl⟩ := decodeUnicodeEscape_iff.mp hdecode
          exact ⟨_, .unicode hw, rfl⟩
      · cases h
    · next ha =>
      cases h
      exact ⟨_, .plain ha, rfl⟩
  · intro ⟨w, hw, hchars⟩
    subst hchars
    cases hw with
    | plain h =>
      show (if c = '\\' then _ else Except.ok (some (c, rest))) = _
      exact if_neg h
    | short h =>
      show (match shortEscapes.lookup _ with
        | some decoded => Except.ok (some (decoded, rest))
        | none => _) = _
      rw [lookup_shortEscapes.mpr h]
    | unicode h =>
      show (decodeUnicodeEscape (_ ++ rest)).map some = _
      rw [decodeUnicodeEscape_iff.mpr ⟨_, h, rfl⟩]
      rfl

theorem unescapeChar_eq_none_iff {chars : List Char} :
    unescapeChar chars = .ok none ↔ chars = [] := by
  constructor
  · intro h
    unfold unescapeChar at h
    split at h
    · rfl
    next a chars =>
    split at h
    · split at h
      · cases h
      next e chars =>
      split at h
      · cases h
      split at h
      · cases hdecode : decodeUnicodeEscape chars with
        | error e => rw [hdecode] at h; cases h
        | ok p => rw [hdecode] at h; cases h
      · cases h
    · cases h
  · intro h
    rw [h]
    rfl

/-! ## Texts -/

/-- The loop of `unescape_string`. -/
def unescapeLoop (chars result : List Char) : Except EscapeError (List Char) :=
  match _h : unescapeChar chars with
  | .error e => .error e
  | .ok none => .ok result
  | .ok (some (c, rest)) => unescapeLoop rest (result ++ [c])
termination_by chars.length
decreasing_by
  obtain ⟨w, hw, rfl⟩ := unescapeChar_iff.mp ‹_›
  have := List.length_pos_iff.mpr hw.ne_nil
  rw [List.length_append]
  omega

def unescapeString (s : String) : Except EscapeError String :=
  (unescapeLoop s.toList []).map String.ofList

theorem unescapeLoop_iff {chars result t : List Char} :
    unescapeLoop chars result = .ok t ↔ ∃ cs, Written cs chars ∧ t = result ++ cs := by
  fun_induction unescapeLoop chars result with
  | case1 chars result e h =>
    refine iff_of_false nofun ?_
    intro ⟨cs, hcs, _⟩
    cases hcs with
    | nil => cases h
    | cons hc hcs =>
      rw [unescapeChar_iff.mpr ⟨_, hc, rfl⟩] at h
      cases h
  | case2 chars result h =>
    obtain rfl := unescapeChar_eq_none_iff.mp h
    constructor
    · intro ht
      cases ht
      exact ⟨[], .nil, (List.append_nil _).symm⟩
    · intro ⟨cs, hcs, ht⟩
      generalize hempty : ([] : List Char) = written at hcs
      cases hcs with
      | nil => rw [ht, List.append_nil]
      | cons hc _ => exact absurd (List.append_eq_nil_iff.mp hempty.symm).1 hc.ne_nil
  | case3 chars result c rest h ih =>
    rw [ih]
    constructor
    · intro ⟨cs, hcs, ht⟩
      obtain ⟨w, hw, rfl⟩ := unescapeChar_iff.mp h
      exact ⟨c :: cs, .cons hw hcs, by rw [ht, List.append_assoc]; rfl⟩
    · intro ⟨cs, hcs, ht⟩
      cases hcs with
      | nil => cases h
      | cons hc hcs =>
        -- the round has read this very character
        rw [unescapeChar_iff.mpr ⟨_, hc, rfl⟩] at h
        cases h
        exact ⟨_, hcs, by rw [ht, List.append_assoc]; rfl⟩

/-- `unescape_string` decodes the ways of writing a text, and nothing else. -/
theorem unescapeString_iff (s t : String) :
    unescapeString s = .ok t ↔ Written t.toList s.toList := by
  unfold unescapeString
  constructor
  · intro h
    cases hloop : unescapeLoop s.toList [] with
    | error e => rw [hloop] at h; cases h
    | ok cs =>
      rw [hloop] at h
      obtain rfl := Except.ok.inj h
      obtain ⟨cs', hwritten, rfl⟩ := unescapeLoop_iff.mp hloop
      rw [String.toList_ofList]
      exact hwritten
  · intro h
    rw [unescapeLoop_iff.mpr ⟨_, h, rfl⟩]
    show Except.ok (String.ofList t.toList) = _
    rw [String.ofList_toList]

end StellarDb
