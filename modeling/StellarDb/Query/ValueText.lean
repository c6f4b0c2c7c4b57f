import StellarDb.Indexes.External
import StellarDb.Query.KeyTexts

/-!
# StellarDb — texts of values (`document.rs`)

`Display` of a value is written by hand in the source, `Debug` is derived: the name of the variant
and its payload in brackets, strings quoted and escaped. The tables of the standard library that
tell which characters are escaped are a parameter (`DebugTables`).

A `Debug` text ends where it says it ends: no continuation of one is a continuation of another
(`debugChars_prefix`). So one that stands in front of a separator is found again.
-/

namespace StellarDb

open Keyspaces Formats

/-! ## `Display` -/

namespace Value

/-- The largest unit of which the duration has one. -/
def displayDuration (nanos : Nat) : String :=
  if 1000000000 * 60 * 60 ≤ nanos then toString (nanos / (1000000000 * 60 * 60)) ++ "h"
  else if 1000000000 * 60 ≤ nanos then toString (nanos / (1000000000 * 60)) ++ "m"
  else if 1000000000 ≤ nanos then toString (nanos / 1000000000) ++ "s"
  else if 1000000 ≤ nanos then toString (nanos / 1000000) ++ "ms"
  else if 1000 ≤ nanos then toString (nanos / 1000) ++ "us"
  else toString nanos ++ "ns"

section Display

variable [External] [Formats]

mutual

def displayText : Value → String
  | .null => "null"
  | .bool b => toString b
  | .int n => toString n.toInt
  | .float f => f.display
  | .decimal d => External.decimalToString d
  | .string s => s
  | .array elems => "[" ++ displayElems elems ++ "]"
  | .object entries => "\x7b" ++ displayEntries entries ++ "\x7d"
  | .reference id => id
  | .datetime ms => "d\"" ++ (rfc3339 ms).getD (toString ms.toInt) ++ "\""
  | .duration ns => displayDuration ns.toNat
  | .bytes b => "b\"" ++ base64 b ++ "\""
  | .range start stop => displayText start ++ ".." ++ displayText stop

def displayElems : List Value → String
  | [] => ""
  | [v] => displayText v
  | v :: vs => displayText v ++ ", " ++ displayElems vs

def displayEntries : List (String × Value) → String
  | [] => ""
  | [(k, v)] => k ++ ": " ++ displayText v
  | (k, v) :: es => k ++ ": " ++ displayText v ++ ", " ++ displayEntries es

end

end Display

end Value

/-! ## `Debug` -/

/-- Which characters a string shows as they are: printable, and no mark on the one before. -/
class DebugTables where
  isShown : Char → Bool

/-- A stand-in that shows what ASCII can print. -/
@[reducible] def DebugTables.standIn : DebugTables where
  isShown c := ' ' ≤ c && c ≤ '~'

/-- One character of a quoted string. -/
def escapeChar [DebugTables] (c : Char) : List Char :=
  if c = '\x00' then ['\\', '0']
  else if c = '\t' then ['\\', 't']
  else if c = '\r' then ['\\', 'r']
  else if c = '\n' then ['\\', 'n']
  else if c = '"' then ['\\', '"']
  else if c = '\\' then ['\\', '\\']
  else if DebugTables.isShown c then [c]
  else '\\' :: 'u' :: '\x7b' :: (Nat.toDigits 16 c.toNat ++ ['\x7d'])

/-- `Debug` of a string. -/
def quotedChars [DebugTables] (s : String) : List Char :=
  '"' :: (s.toList.flatMap escapeChar ++ ['"'])

/-- `Debug` of a list of numbers. -/
def byteListChars : Bytes → List Char
  | [] => []
  | [b] => Nat.toDigits 10 b.toNat
  | b :: bs => Nat.toDigits 10 b.toNat ++ ',' :: ' ' :: byteListChars bs

/-- `Debug` of a double: shortest digits, from `1e16` on and below `1e-4` with an exponent. -/
def F64.debugChars (f : F64) : List Char :=
  if f.isNan then "NaN".toList
  else (if f.isNegative then ['-'] else []) ++
    (if f.isInfinite then "inf".toList
    else if f.isZero then "0.0".toList
    else if f.absRat < 1 / 10 ^ 4 ∨ 10 ^ 16 ≤ f.absRat then
      let (digits, point) := f.shortestDigits
      let chars := digits.map Nat.digitChar
      chars.take 1 ++ (if chars.drop 1 = [] then [] else '.' :: chars.drop 1) ++
        'e' :: (toString (point - 1)).toList
    else if '.' ∈ f.absToString.toList then f.absToString.toList
    else f.absToString.toList ++ ['.', '0'])

/-- `Decimal::serialize`: flags, then the mantissa. -/
def Decimal.serialize (d : Decimal) : Bytes :=
  [0, 0, UInt8.ofNat d.scale.val, if d.negative then 0x80 else 0] ++ leBytes 12 d.mantissa.val

namespace Value

variable [DebugTables]

mutual

def debugChars : Value → List Char
  | .null => "Null".toList
  | .bool b => "Bool(".toList ++ ((toString b).toList ++ [')'])
  | .int n => "Int(".toList ++ ((toString n.toInt).toList ++ [')'])
  | .float f => "Float(".toList ++ (f.debugChars ++ [')'])
  | .decimal d => "Decimal(DecimalValue \x7b bytes: [".toList ++
      (byteListChars d.serialize ++ "] \x7d)".toList)
  | .string s => "String(".toList ++ (quotedChars s ++ [')'])
  | .array elems => "Array([".toList ++ (debugElems elems ++ "])".toList)
  | .object entries => "Object(\x7b".toList ++ (debugEntries entries ++ "\x7d)".toList)
  | .reference id => "Reference(".toList ++ (quotedChars id ++ [')'])
  | .datetime ms => "Datetime(".toList ++ ((toString ms.toInt).toList ++ [')'])
  | .duration ns => "Duration(".toList ++ ((toString ns.toNat).toList ++ [')'])
  | .bytes b => "Bytes([".toList ++ (byteListChars b ++ "])".toList)
  | .range start stop => "Range \x7b start: ".toList ++
      (debugChars start ++ (", end: ".toList ++ (debugChars stop ++ " \x7d".toList)))

def debugElems : List Value → List Char
  | [] => []
  | [v] => debugChars v
  | v :: vs => debugChars v ++ ',' :: ' ' :: debugElems vs

def debugEntries : List (String × Value) → List Char
  | [] => []
  | [(k, v)] => quotedChars k ++ ':' :: ' ' :: debugChars v
  | (k, v) :: es => quotedChars k ++ ':' :: ' ' :: (debugChars v ++ ',' :: ' ' :: debugEntries es)

end

end Value

/-- `Display` and `Debug` of values. -/
@[reducible] def ValueText.written [External] [Formats] [DebugTables] : ValueText where
  display := Value.displayText
  debug v := String.ofList v.debugChars
  debugBytes b := String.ofList ('[' :: (byteListChars b ++ [']']))

/-! ## Texts that end by themselves -/

/-- Texts with commas between them. -/
def commaJoined : List (List Char) → List Char
  | [] => []
  | [t] => t
  | t :: ts => t ++ ',' :: ' ' :: commaJoined ts

theorem commaJoined_cons (t : List Char) (ts : List (List Char)) :
    ∃ rest, (rest = [] ∧ ts = [] ∨ rest = ',' :: ' ' :: commaJoined ts ∧ ts ≠ []) ∧
      commaJoined (t :: ts) = t ++ rest := by
  cases ts with
  | nil => exact ⟨[], Or.inl ⟨rfl, rfl⟩, (List.append_nil t).symm⟩
  | cons u us => exact ⟨_, Or.inr ⟨rfl, nofun⟩, rfl⟩

/-- Whoever reads the items up to a comma or the end reads the list up to its end. -/
theorem commaJoined_prefix {close : Char} (hclose : close ≠ ',') {ts us : List (List Char)}
    (hends : ∀ t ∈ ts, ∀ u ∈ us, ∀ c d x y, (c = ',' ∨ c = close) → (d = ',' ∨ d = close) →
      t ++ c :: x = u ++ d :: y → t = u)
    (hts : ∀ t ∈ ts, ∃ c cs, t = c :: cs ∧ c ≠ close)
    (hus : ∀ u ∈ us, ∃ c cs, u = c :: cs ∧ c ≠ close) {x y : List Char}
    (h : commaJoined ts ++ close :: x = commaJoined us ++ close :: y) : ts = us ∧ x = y := by
  induction ts generalizing us x y with
  | nil =>
    cases us with
    | nil => exact ⟨rfl, (List.cons.inj h).2⟩
    | cons u us =>
      obtain ⟨rest, -, hrest⟩ := commaJoined_cons u us
      obtain ⟨c, cs, rfl, hc⟩ := hus u (List.mem_cons_self ..)
      rw [hrest] at h
      exact absurd (List.cons.inj h).1.symm hc
  | cons t ts ih =>
    cases us with
    | nil =>
      obtain ⟨rest, -, hrest⟩ := commaJoined_cons t ts
      obtain ⟨c, cs, rfl, hc⟩ := hts t (List.mem_cons_self ..)
      rw [hrest] at h
      exact absurd (List.cons.inj h).1 hc
    | cons u us =>
      obtain ⟨rest, hshape, hrest⟩ := commaJoined_cons t ts
      obtain ⟨rest', hshape', hrest'⟩ := commaJoined_cons u us
      rw [hrest, hrest', List.append_assoc, List.append_assoc] at h
      have hhead := hends t (List.mem_cons_self ..) u (List.mem_cons_self ..)
      rcases hshape with ⟨rfl, rfl⟩ | ⟨rfl, hne⟩ <;> rcases hshape' with ⟨rfl, rfl⟩ | ⟨rfl, hne'⟩
      · have htu := hhead _ _ _ _ (Or.inr rfl) (Or.inr rfl) h
        rw [htu] at h ⊢
        exact ⟨rfl, (List.cons.inj (List.append_cancel_left h)).2⟩
      · have htu := hhead _ _ _ _ (Or.inr rfl) (Or.inl rfl) h
        rw [htu] at h
        exact absurd (List.cons.inj (List.append_cancel_left h)).1 hclose
      · have htu := hhead _ _ _ _ (Or.inl rfl) (Or.inr rfl) h
        rw [htu] at h
        exact absurd (List.cons.inj (List.append_cancel_left h)).1.symm hclose
      · have htu := hhead _ _ _ _ (Or.inl rfl) (Or.inl rfl) h
        rw [htu] at h ⊢
        have hrests := (List.cons.inj (List.cons.inj (List.append_cancel_left h)).2).2
        rw [List.forall_mem_cons] at hts hus
        obtain ⟨rfl, hxy⟩ := ih (fun t ht u hu => hends t (List.mem_cons_of_mem _ ht) u
          (List.mem_cons_of_mem _ hu)) hts.2 hus.2 hrests
        exact ⟨rfl, hxy⟩

/-- Texts without a character of the kind that ends them. -/
theorem append_inj_of_stops {stops : Char → Bool} {t u : List Char} {c d : Char} {x y : List Char}
    (ht : ∀ a ∈ t, stops a = false) (hu : ∀ a ∈ u, stops a = false) (hc : stops c = true)
    (hd : stops d = true) (h : t ++ c :: x = u ++ d :: y) : t = u ∧ c = d ∧ x = y := by
  induction t generalizing u with
  | nil =>
    cases u with
    | nil => exact ⟨rfl, List.cons.inj h⟩
    | cons b u =>
      have hb := hu b (List.mem_cons_self ..)
      rw [← (List.cons.inj h).1, hc] at hb
      cases hb
  | cons a t ih =>
    rw [List.forall_mem_cons] at ht
    cases u with
    | nil =>
      have ha := ht.1
      rw [(List.cons.inj h).1, hd] at ha
      cases ha
    | cons b u =>
      rw [List.forall_mem_cons] at hu
      obtain ⟨rfl, htail⟩ := List.cons.inj h
      obtain ⟨rfl, hrest⟩ := ih ht.2 hu.2 htail
      exact ⟨rfl, hrest⟩

theorem digit_not_stop {b n : Nat} {a : Char} (hb : 0 < b) (hb' : b ≤ 10)
    (ha : a ∈ Nat.toDigits b n) : a.isDigit = true :=
  Nat.isDigit_of_mem_toDigits hb hb' ha

/-- The text of an integer is digits, with a minus sign at most. -/
theorem mem_intText {n : Int} {a : Char} (ha : a ∈ (toString n).toList) :
    a = '-' ∨ a.isDigit = true := by
  rw [Int.toString_eq_repr, Int.repr_eq_if] at ha
  split at ha
  · rw [Nat.toList_repr] at ha
    exact Or.inr (Nat.isDigit_of_mem_toDigits (by decide) (by decide) ha)
  · rw [String.toList_append, Nat.toList_repr] at ha
    rcases List.mem_append.mp ha with hminus | hdigit
    · exact Or.inl (List.mem_singleton.mp hminus)
    · exact Or.inr (Nat.isDigit_of_mem_toDigits (by decide) (by decide) hdigit)

theorem mem_natText {n : Nat} {a : Char} (ha : a ∈ (toString n).toList) : a.isDigit = true := by
  rw [Nat.toString_eq_ofList_toDigits, String.toList_ofList] at ha
  exact Nat.isDigit_of_mem_toDigits (by decide) (by decide) ha

section Quoted

/-- What follows the quote that ends a string. -/
def afterQuote : List Char → List Char
  | [] => []
  | '\\' :: _ :: cs => afterQuote cs
  | '"' :: cs => cs
  | _ :: cs => afterQuote cs

theorem afterQuote_append {cs : List Char} (h : ∀ c ∈ cs, c ≠ '"' ∧ c ≠ '\\') (rest : List Char) :
    afterQuote (cs ++ rest) = afterQuote rest := by
  induction cs with
  | nil => rfl
  | cons c cs ih =>
    rw [List.forall_mem_cons] at h
    rw [List.cons_append, afterQuote, ih h.2]
    · exact fun _ _ hc _ => h.1.2 hc
    · exact h.1.1

theorem digitChar_plain (n : Nat) : n.digitChar ≠ '"' ∧ n.digitChar ≠ '\\' ∧
    n.digitChar ≠ ')' ∧ n.digitChar ≠ '|' := by
  rcases Nat.lt_or_ge n 16 with hlt | hge
  · have hall : ∀ n < 16, Nat.digitChar n ≠ '"' ∧ Nat.digitChar n ≠ '\\' ∧
        Nat.digitChar n ≠ ')' ∧ Nat.digitChar n ≠ '|' := by
      decide
    exact hall n hlt
  · have hstar : n.digitChar = '*' := by
      unfold Nat.digitChar
      iterate 16 rw [if_neg (by omega)]
    rw [hstar]
    decide

theorem mem_toDigits {b n : Nat} (hb : 1 < b) {c : Char} (hc : c ∈ Nat.toDigits b n) :
    ∃ d, c = Nat.digitChar d := by
  induction n using Nat.strongRecOn with
  | ind n ih =>
    rw [Nat.toDigits_eq_if hb] at hc
    split at hc
    · exact ⟨n, List.mem_singleton.mp hc⟩
    · next hge =>
      rcases List.mem_append.mp hc with hc | hc
      · exact ih (n / b) (Nat.div_lt_self (by omega) hb) hc
      · exact ⟨_, List.mem_singleton.mp hc⟩

variable [DebugTables]

theorem afterQuote_escapeChar (c : Char) (rest : List Char) :
    afterQuote (escapeChar c ++ rest) = afterQuote rest := by
  unfold escapeChar
  split_ifs with h0 ht hr hn hquote hback hshown
  iterate 6 rfl
  · exact afterQuote_append (fun d hd => List.mem_singleton.mp hd ▸ ⟨hquote, hback⟩) rest
  · show afterQuote ('\x7b' :: (Nat.toDigits 16 c.toNat ++ ['\x7d']) ++ rest) = _
    refine afterQuote_append (fun d hd => ?_) rest
    rcases List.mem_cons.mp hd with rfl | hd
    · decide
    · rcases List.mem_append.mp hd with hd | hd
      · obtain ⟨n, rfl⟩ := mem_toDigits (by decide) hd
        exact ⟨(digitChar_plain n).1, (digitChar_plain n).2.1⟩
      · rw [List.mem_singleton.mp hd]
        decide

/-- A quoted string ends at its closing quote. -/
theorem quotedChars_prefix {s t : String} {x y : List Char}
    (h : quotedChars s ++ x = quotedChars t ++ y) : quotedChars s = quotedChars t ∧ x = y := by
  have hafter : ∀ (l : List Char) (z : List Char),
      afterQuote (l.flatMap escapeChar ++ '"' :: z) = z := by
    intro l z
    induction l with
    | nil => rfl
    | cons c l ih => rw [List.flatMap_cons, List.append_assoc, afterQuote_escapeChar, ih]
  have htail : s.toList.flatMap escapeChar ++ ['"'] ++ x =
      t.toList.flatMap escapeChar ++ ['"'] ++ y := (List.cons.inj h).2
  rw [List.append_assoc, List.append_assoc] at htail
  have hxy := congrArg afterQuote htail
  rw [List.singleton_append, List.singleton_append, hafter, hafter] at hxy
  subst hxy
  exact ⟨List.append_cancel_right h, rfl⟩

end Quoted

/-! ## Doubles in decimal notation -/

namespace F64

theorem shortestDigits_lt {f : F64} {d : Nat} (hd : d ∈ f.shortestDigits.1) : d < 10 := by
  unfold shortestDigits at hd
  dsimp only at hd
  split at hd
  · next n c _ =>
    have hmem := (List.dropWhile_sublist _).subset (List.mem_reverse.mp hd)
    rw [List.mem_reverse, List.mem_reverse] at hmem
    exact Nat.digits_lt_base (by decide) hmem
  · cases hd

theorem mem_absToString {f : F64} {c : Char} (hc : c ∈ f.absToString.toList) :
    c = '.' ∨ ∃ d < 10, c = Nat.digitChar d := by
  have hzero : '0' = Nat.digitChar 0 := rfl
  have hchars : ∀ c ∈ f.shortestDigits.1.map Nat.digitChar, ∃ d < 10, c = Nat.digitChar d := by
    intro c hc
    obtain ⟨d, hd, rfl⟩ := List.mem_map.mp hc
    exact ⟨d, shortestDigits_lt hd, rfl⟩
  have hzeros : ∀ n, ∀ c ∈ List.replicate n '0', ∃ d < 10, c = Nat.digitChar d :=
    fun n c hc => ⟨0, by decide, List.eq_of_mem_replicate hc⟩
  unfold absToString at hc
  dsimp only at hc
  rw [String.toList_ofList] at hc
  split at hc
  · rcases List.mem_append.mp hc with hc | hc
    · rcases List.mem_append.mp hc with hc | hc
      · rcases List.mem_cons.mp hc with rfl | hc
        · exact Or.inr ⟨0, by decide, hzero⟩
        · exact Or.inl (List.mem_singleton.mp hc)
      · exact Or.inr (hzeros _ c hc)
    · exact Or.inr (hchars c hc)
  · split at hc
    · rcases List.mem_append.mp hc with hc | hc
      · exact Or.inr (hchars c hc)
      · exact Or.inr (hzeros _ c hc)
    · rcases List.mem_append.mp hc with hc | hc
      · rcases List.mem_append.mp hc with hc | hc
        · exact Or.inr (hchars c (List.mem_of_mem_take hc))
        · exact Or.inl (List.mem_singleton.mp hc)
      · exact Or.inr (hchars c (List.mem_of_mem_drop hc))

theorem absToString_cons (f : F64) :
    ∃ d < 10, ∃ cs, f.absToString.toList = Nat.digitChar d :: cs := by
  unfold absToString
  dsimp only
  rw [String.toList_ofList]
  split
  · exact ⟨0, by decide, _, rfl⟩
  · next hpoint =>
    cases hdigits : f.shortestDigits.1 with
    | nil =>
      split
      · obtain ⟨k, hk⟩ : ∃ k, f.shortestDigits.2.toNat = k + 1 :=
          ⟨f.shortestDigits.2.toNat - 1, by omega⟩
        rw [hk]
        exact ⟨0, by decide, _, rfl⟩
      · next hlen => exact absurd (Nat.zero_le _) hlen
    | cons d ds =>
      have hd : d < 10 := shortestDigits_lt (hdigits ▸ List.mem_cons_self ..)
      split
      · exact ⟨d, hd, _, rfl⟩
      · obtain ⟨k, hk⟩ : ∃ k, f.shortestDigits.2.toNat = k + 1 :=
          ⟨f.shortestDigits.2.toNat - 1, by omega⟩
        rw [hk]
        exact ⟨d, hd, _, rfl⟩

/-- Of digits, point, sign and exponent, or one of the names. -/
theorem mem_debugChars {f : F64} {c : Char} (hc : c ∈ f.debugChars) : c ≠ ')' := by
  have hdigits : ∀ {c : Char}, c ∈ f.shortestDigits.1.map Nat.digitChar → c ≠ ')' := by
    intro c hc
    obtain ⟨d, -, rfl⟩ := List.mem_map.mp hc
    exact (digitChar_plain d).2.2.1
  have habs : ∀ {c : Char}, c ∈ f.absToString.toList → c ≠ ')' := by
    intro c hc
    rcases mem_absToString hc with rfl | ⟨d, -, rfl⟩
    · decide
    · exact (digitChar_plain d).2.2.1
  unfold debugChars at hc
  dsimp only at hc
  split at hc
  · rintro rfl
    exact absurd hc (by decide)
  · rcases List.mem_append.mp hc with hc | hc
    · split at hc
      · rw [List.mem_singleton.mp hc]
        decide
      · cases hc
    · split at hc
      · rintro rfl
        exact absurd hc (by decide)
      split at hc
      · rintro rfl
        exact absurd hc (by decide)
      split at hc
      · rcases List.mem_append.mp hc with hc | hc
        · rcases List.mem_append.mp hc with hc | hc
          · exact hdigits (List.mem_of_mem_take hc)
          · split at hc
            · cases hc
            · rcases List.mem_cons.mp hc with rfl | hc
              · decide
              · exact hdigits (List.mem_of_mem_drop hc)
        · rcases List.mem_cons.mp hc with rfl | hc
          · decide
          · rcases mem_intText hc with rfl | hdigit
            · decide
            · rintro rfl
              exact absurd hdigit (by decide)
      split at hc
      · exact habs hc
      · rcases List.mem_append.mp hc with hc | hc
        · exact habs hc
        · rcases List.mem_cons.mp hc with rfl | hc
          · decide
          · rw [List.mem_singleton.mp hc]
            decide

end F64

/-! ## `Debug` texts end by themselves -/

theorem byteListChars_eq (b : Bytes) :
    byteListChars b = commaJoined (b.map fun x => Nat.toDigits 10 x.toNat) := by
  induction b with
  | nil => rfl
  | cons x b ih =>
    cases b with
    | nil => rfl
    | cons y b =>
      rw [byteListChars, ih]
      · rfl
      · exact nofun

theorem byteListChars_front {a b : Bytes} {x y : List Char}
    (h : byteListChars a ++ ']' :: x = byteListChars b ++ ']' :: y) :
    a = b ∧ x = y := by
  have hdigits : ∀ {b : Bytes} {t : List Char}, t ∈ b.map (fun x => Nat.toDigits 10 x.toNat) →
      t ≠ [] ∧ ∀ c ∈ t, c.isDigit = true := by
    intro b t ht
    obtain ⟨x, -, rfl⟩ := List.mem_map.mp ht
    exact ⟨Nat.toDigits_ne_nil, fun c hc => digit_not_stop (by decide) (by decide) hc⟩
  have hcons : ∀ {b : Bytes} {t : List Char}, t ∈ b.map (fun x => Nat.toDigits 10 x.toNat) →
      ∃ c cs, t = c :: cs ∧ c ≠ ']' := by
    intro b t ht
    obtain ⟨hne, hall⟩ := hdigits ht
    obtain ⟨c, cs, rfl⟩ := List.exists_cons_of_ne_nil hne
    refine ⟨c, cs, rfl, ?_⟩
    rintro rfl
    exact absurd (hall _ (List.mem_cons_self ..)) (by decide)
  have hstop : ∀ {b : Bytes} {t : List Char}, t ∈ b.map (fun x => Nat.toDigits 10 x.toNat) →
      ∀ a ∈ t, (a == ',' || a == ']') = false := by
    intro b t ht a ha
    have hdigit := (hdigits ht).2 a ha
    cases hcase : a == ',' || a == ']' with
    | false => rfl
    | true =>
      rw [Bool.or_eq_true, beq_iff_eq, beq_iff_eq] at hcase
      rcases hcase with rfl | rfl <;> exact absurd hdigit (by decide)
  rw [byteListChars_eq, byteListChars_eq] at h
  obtain ⟨heq, hxy⟩ := commaJoined_prefix (by decide) (fun t ht u hu c d x y hc hd htu =>
    (append_inj_of_stops (hstop ht) (hstop hu) (by rcases hc with rfl | rfl <;> rfl)
      (by rcases hd with rfl | rfl <;> rfl) htu).1) (fun t ht => hcons ht) (fun u hu => hcons hu) h
  refine ⟨List.map_injective_iff.mpr (fun m n hmn => ?_) heq, hxy⟩
  have hnat : Nat.ofDigitChars 10 (Nat.toDigits 10 m.toNat) 0 =
      Nat.ofDigitChars 10 (Nat.toDigits 10 n.toNat) 0 := congrArg (Nat.ofDigitChars 10 · 0) hmn
  rw [Nat.ofDigitChars_ten_toDigits, Nat.ofDigitChars_ten_toDigits] at hnat
  exact UInt8.toNat_inj.mp hnat

namespace Value

variable [DebugTables]

theorem debugElems_eq (vs : List Value) : debugElems vs = commaJoined (vs.map debugChars) := by
  induction vs with
  | nil => rfl
  | cons v vs ih =>
    cases vs with
    | nil => rfl
    | cons w vs =>
      rw [debugElems, ih]
      · rfl
      · exact nofun

/-- A field of an object. -/
def debugEntry (e : String × Value) : List Char := quotedChars e.1 ++ ':' :: ' ' :: debugChars e.2

theorem debugEntries_eq (es : List (String × Value)) :
    debugEntries es = commaJoined (es.map debugEntry) := by
  induction es with
  | nil => rfl
  | cons e es ih =>
    cases es with
    | nil => rfl
    | cons e' es =>
      rw [debugEntries, ih]
      · show _ = debugEntry e ++ _
        unfold debugEntry
        simp only [List.append_assoc, List.cons_append]
      · exact nofun

/-- The variant, from the first two characters. -/
def variantOf : List Char → Nat
  | 'N' :: _ => 0
  | 'B' :: 'o' :: _ => 1
  | 'I' :: _ => 2
  | 'F' :: _ => 3
  | 'D' :: 'e' :: _ => 4
  | 'S' :: _ => 5
  | 'A' :: _ => 6
  | 'O' :: _ => 7
  | 'R' :: 'e' :: _ => 8
  | 'D' :: 'a' :: _ => 9
  | 'D' :: 'u' :: _ => 10
  | 'B' :: 'y' :: _ => 11
  | _ => 12

def variant : Value → Nat
  | .null => 0
  | .bool _ => 1
  | .int _ => 2
  | .float _ => 3
  | .decimal _ => 4
  | .string _ => 5
  | .array _ => 6
  | .object _ => 7
  | .reference _ => 8
  | .datetime _ => 9
  | .duration _ => 10
  | .bytes _ => 11
  | .range _ _ => 12

theorem variantOf_debugChars (v : Value) (x : List Char) :
    variantOf (debugChars v ++ x) = v.variant := by
  cases v <;> rfl

/-- No text is empty, and none starts with a bracket or a quote. -/
theorem debugChars_cons (v : Value) : ∃ c cs, debugChars v = c :: cs ∧ c ≠ ']' ∧ c ≠ '\x7d' := by
  cases v <;> exact ⟨_, _, rfl, by decide⟩

omit [DebugTables] in
/-- A text in brackets that does not hold the closing one. -/
theorem bracketed_prefix {name t u : List Char} {x y : List Char} (ht : ∀ c ∈ t, c ≠ ')')
    (hu : ∀ c ∈ u, c ≠ ')') (h : name ++ (t ++ [')']) ++ x = name ++ (u ++ [')']) ++ y) :
    name ++ (t ++ [')']) = name ++ (u ++ [')']) ∧ x = y := by
  have hstop : ∀ {t : List Char}, (∀ c ∈ t, c ≠ ')') → ∀ c ∈ t, (c == ')') = false :=
    fun ht c hc => beq_false_of_ne (ht c hc)
  simp only [List.append_assoc, List.singleton_append] at h
  obtain ⟨rfl, -, hxy⟩ := append_inj_of_stops (hstop ht) (hstop hu) rfl rfl
    (List.append_cancel_left h)
  exact ⟨rfl, hxy⟩

omit [DebugTables] in
theorem boolText_plain (b : Bool) : ∀ c ∈ (toString b).toList, c ≠ ')' := by
  rintro c hc rfl
  cases b with
  | true =>
    have hmem : ')' ∈ "true".toList := hc
    exact absurd hmem (by decide)
  | false =>
    have hmem : ')' ∈ "false".toList := hc
    exact absurd hmem (by decide)

omit [DebugTables] in
theorem intText_plain (n : Int) : ∀ c ∈ (toString n).toList, c ≠ ')' := by
  rintro c hc rfl
  rcases mem_intText hc with heq | hdigit
  · exact absurd heq (by decide)
  · exact absurd hdigit (by decide)

omit [DebugTables] in
theorem natText_plain (n : Nat) : ∀ c ∈ (toString n).toList, c ≠ ')' := by
  rintro c hc rfl
  exact absurd (mem_natText hc) (by decide)

theorem variant_eq_of_append {v w : Value} {x y : List Char}
    (h : debugChars v ++ x = debugChars w ++ y) : v.variant = w.variant := by
  rw [← variantOf_debugChars v x, ← variantOf_debugChars w y, h]

theorem quoted_prefix {name : List Char} {s t : String} {x y : List Char}
    (h : name ++ (quotedChars s ++ [')']) ++ x = name ++ (quotedChars t ++ [')']) ++ y) :
    name ++ (quotedChars s ++ [')']) = name ++ (quotedChars t ++ [')']) ∧ x = y := by
  simp only [List.append_assoc, List.singleton_append] at h
  obtain ⟨hst, hxy⟩ := quotedChars_prefix (List.append_cancel_left h)
  rw [hst]
  exact ⟨rfl, (List.cons.inj hxy).2⟩

omit [DebugTables] in
/-- A text between brackets that is found again in front of the closing one. -/
theorem wrapped_prefix {n t u r x y : List Char} {c : Char}
    (hinner : ∀ x y, t ++ c :: x = u ++ c :: y → t = u ∧ x = y)
    (h : n ++ (t ++ c :: r) ++ x = n ++ (u ++ c :: r) ++ y) :
    n ++ (t ++ c :: r) = n ++ (u ++ c :: r) ∧ x = y := by
  simp only [List.append_assoc, List.cons_append] at h
  obtain ⟨rfl, hrest⟩ := hinner _ _ (List.append_cancel_left h)
  exact ⟨rfl, List.append_cancel_left hrest⟩

/-- The items of an array, from the items one by one. -/
theorem debugElems_prefix {vs ws : List Value} {x y : List Char}
    (ih : ∀ v ∈ vs, ∀ w x y, debugChars v ++ x = debugChars w ++ y →
      debugChars v = debugChars w ∧ x = y)
    (h : debugElems vs ++ ']' :: x = debugElems ws ++ ']' :: y) :
    debugElems vs = debugElems ws ∧ x = y := by
  have hcons : ∀ {vs : List Value}, ∀ t ∈ vs.map debugChars, ∃ c cs, t = c :: cs ∧ c ≠ ']' := by
    intro vs t ht
    obtain ⟨v, -, rfl⟩ := List.mem_map.mp ht
    obtain ⟨c, cs, heq, hc, -⟩ := debugChars_cons v
    exact ⟨c, cs, heq, hc⟩
  rw [debugElems_eq, debugElems_eq] at h ⊢
  obtain ⟨heq, hxy⟩ := commaJoined_prefix (by decide) (fun t ht u hu c d x y _ _ htu => by
    obtain ⟨v, hv, rfl⟩ := List.mem_map.mp ht
    obtain ⟨w, -, rfl⟩ := List.mem_map.mp hu
    exact (ih v hv w _ _ htu).1) hcons hcons h
  exact ⟨congrArg commaJoined heq, hxy⟩

theorem debugEntries_prefix {es fs : List (String × Value)} {x y : List Char}
    (ih : ∀ e ∈ es, ∀ w x y, debugChars e.2 ++ x = debugChars w ++ y →
      debugChars e.2 = debugChars w ∧ x = y)
    (h : debugEntries es ++ '\x7d' :: x = debugEntries fs ++ '\x7d' :: y) :
    debugEntries es = debugEntries fs ∧ x = y := by
  have hcons : ∀ {es : List (String × Value)}, ∀ t ∈ es.map debugEntry,
      ∃ c cs, t = c :: cs ∧ c ≠ '\x7d' := by
    intro es t ht
    obtain ⟨e, -, rfl⟩ := List.mem_map.mp ht
    exact ⟨_, _, rfl, by decide⟩
  rw [debugEntries_eq, debugEntries_eq] at h ⊢
  obtain ⟨heq, hxy⟩ := commaJoined_prefix (by decide) (fun t ht u hu c d x y _ _ htu => by
    obtain ⟨e, he, rfl⟩ := List.mem_map.mp ht
    obtain ⟨f, -, rfl⟩ := List.mem_map.mp hu
    unfold debugEntry at htu ⊢
    rw [List.append_assoc, List.append_assoc] at htu
    obtain ⟨hkey, hrest⟩ := quotedChars_prefix htu
    have hvalue := (List.cons.inj (List.cons.inj hrest).2).2
    rw [hkey, (ih e he f.2 _ _ hvalue).1]) hcons hcons h
  exact ⟨congrArg commaJoined heq, hxy⟩

/-- A `Debug` text is not the beginning of another one. -/
theorem debugChars_prefix (v w : Value) (x y : List Char)
    (h : debugChars v ++ x = debugChars w ++ y) : debugChars v = debugChars w ∧ x = y := by
  induction v generalizing w x y with
  | null =>
    cases w with
    | null => exact ⟨rfl, List.append_cancel_left h⟩
    | _ => cases variant_eq_of_append h
  | bool b =>
    cases w with
    | bool b' => exact bracketed_prefix (boolText_plain b) (boolText_plain b') h
    | _ => cases variant_eq_of_append h
  | int n =>
    cases w with
    | int m => exact bracketed_prefix (intText_plain n.toInt) (intText_plain m.toInt) h
    | _ => cases variant_eq_of_append h
  | float f =>
    cases w with
    | float g =>
      exact bracketed_prefix (fun _ => F64.mem_debugChars) (fun _ => F64.mem_debugChars) h
    | _ => cases variant_eq_of_append h
  | decimal d =>
    cases w with
    | decimal e =>
      exact wrapped_prefix (c := ']') (r := " \x7d)".toList)
        (fun _ _ h => (byteListChars_front h).imp_left (congrArg byteListChars)) h
    | _ => cases variant_eq_of_append h
  | string s =>
    cases w with
    | string t => exact quoted_prefix h
    | _ => cases variant_eq_of_append h
  | array elems ih =>
    cases w with
    | array elems' =>
      exact wrapped_prefix (c := ']') (r := [')']) (fun _ _ => debugElems_prefix ih) h
    | _ => cases variant_eq_of_append h
  | object entries ih =>
    cases w with
    | object entries' =>
      exact wrapped_prefix (c := '\x7d') (r := [')']) (fun _ _ => debugEntries_prefix ih) h
    | _ => cases variant_eq_of_append h
  | reference id =>
    cases w with
    | reference id' => exact quoted_prefix h
    | _ => cases variant_eq_of_append h
  | datetime ms =>
    cases w with
    | datetime ms' => exact bracketed_prefix (intText_plain ms.toInt) (intText_plain ms'.toInt) h
    | _ => cases variant_eq_of_append h
  | duration ns =>
    cases w with
    | duration ns' => exact bracketed_prefix (natText_plain ns.toNat) (natText_plain ns'.toNat) h
    | _ => cases variant_eq_of_append h
  | bytes b =>
    cases w with
    | bytes b' =>
      exact wrapped_prefix (c := ']') (r := [')'])
        (fun _ _ h => (byteListChars_front h).imp_left (congrArg byteListChars)) h
    | _ => cases variant_eq_of_append h
  | range start stop ihstart ihstop =>
    cases w with
    | range start' stop' =>
      unfold debugChars at h ⊢
      simp only [List.append_assoc] at h
      obtain ⟨hstart, hrest⟩ := ihstart start' _ _ (List.append_cancel_left h)
      obtain ⟨hstop, hend⟩ := ihstop stop' _ _ (List.append_cancel_left hrest)
      rw [hstart, hstop]
      exact ⟨rfl, List.append_cancel_left hend⟩
    | _ => cases variant_eq_of_append h

end Value

end StellarDb
