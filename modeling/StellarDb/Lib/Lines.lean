import Mathlib.Data.List.Basic
import Mathlib.Data.List.TakeDrop

/-!
# Text files of lines

Lines as they are written, each with a line feed behind it, and as a buffered reader hands them
out: cut at line feeds, with a carriage return before the line feed cut off too. A line without a
line feed that does not end in a carriage return survives the round trip
(`readLines_writeLines`). Fields of a line stand on the two sides of its first separator
(`splitFirst`), numbers are written in decimal (`parseNat_toDigits`).
-/

namespace Lines

/-- `writeln!` of each line. -/
def writeLines (lines : List (List Char)) : List Char := lines.flatMap (· ++ ['\n'])

/-- Cut off a carriage return at the end. -/
def stripReturn (line : List Char) : List Char :=
  if line.getLast? = some '\r' then line.dropLast else line

/-- `BufRead::lines`; a last line without a line feed counts if it is not empty. -/
def readLines (text : List Char) : List (List Char) :=
  match _h : text.dropWhile (· ≠ '\n') with
  | [] => if text = [] then [] else [text]
  | _ :: rest => stripReturn (text.takeWhile (· ≠ '\n')) :: readLines rest
termination_by text.length
decreasing_by
  have hlen := (List.dropWhile_sublist (· ≠ '\n') (l := text)).length_le
  rw [_h, List.length_cons] at hlen
  omega

/-- A line that is read as it was written. -/
def Plain (line : List Char) : Prop := '\n' ∉ line ∧ line.getLast? ≠ some '\r'

instance (line : List Char) : Decidable (Plain line) := inferInstanceAs (Decidable (_ ∧ _))

theorem stripReturn_of_plain {line : List Char} (h : Plain line) : stripReturn line = line :=
  if_neg h.2

/-- The first line feed ends the first line. -/
theorem readLines_cons {line : List Char} (h : '\n' ∉ line) (rest : List Char) :
    readLines (line ++ '\n' :: rest) = stripReturn line :: readLines rest := by
  have hall : ∀ c ∈ line, decide (c ≠ '\n') = true := by
    intro c hc
    exact decide_eq_true fun heq => h (heq ▸ hc)
  have hdrop : (line ++ '\n' :: rest).dropWhile (· ≠ '\n') = '\n' :: rest := by
    rw [List.dropWhile_append_of_pos hall]
    simp
  have htake : (line ++ '\n' :: rest).takeWhile (· ≠ '\n') = line := by
    rw [List.takeWhile_append_of_pos hall]
    simp
  rw [readLines]
  split
  · next hnil => rw [hdrop] at hnil; cases hnil
  · next hcons =>
    rw [hdrop] at hcons
    cases hcons
    rw [htake]

theorem readLines_nil : readLines [] = [] := by
  rw [readLines]
  rfl

/-- Plain lines are read as they were written. -/
theorem readLines_writeLines {lines : List (List Char)} (h : ∀ line ∈ lines, Plain line) :
    readLines (writeLines lines) = lines := by
  induction lines with
  | nil => exact readLines_nil
  | cons line lines ih =>
    rw [List.forall_mem_cons] at h
    show readLines ((line ++ ['\n']) ++ writeLines lines) = _
    rw [List.append_assoc, List.singleton_append, readLines_cons h.1.1, ih h.2,
      stripReturn_of_plain h.1]

/-! ## Fields -/

/-- The text before and behind the first `sep`. -/
def splitFirst (sep : Char) (text : List Char) : Option (List Char × List Char) :=
  match text.dropWhile (· ≠ sep) with
  | [] => none
  | _ :: rest => some (text.takeWhile (· ≠ sep), rest)

theorem splitFirst_append {sep : Char} {before : List Char} (h : sep ∉ before)
    (after : List Char) : splitFirst sep (before ++ sep :: after) = some (before, after) := by
  have hall : ∀ c ∈ before, decide (c ≠ sep) = true := by
    intro c hc
    exact decide_eq_true fun heq => h (heq ▸ hc)
  unfold splitFirst
  rw [List.dropWhile_append_of_pos hall, List.takeWhile_append_of_pos hall]
  simp

/-! ## Numbers -/

/-- Drop a `+` before a number. -/
def stripPlus : List Char → List Char
  | '+' :: c :: cs => c :: cs
  | text => text

/-- Parse an unsigned number. -/
def parseNat (text : List Char) : Except String Nat :=
  let digits := stripPlus text
  if digits = [] then .error "cannot parse integer from empty string"
  else if digits.all Char.isDigit then .ok (Nat.ofDigitChars 10 digits 0)
  else .error "invalid digit found in string"

theorem isDigit_of_mem_toDigits {n : Nat} {c : Char} (h : c ∈ Nat.toDigits 10 n) :
    c.isDigit = true := Nat.isDigit_of_mem_toDigits (by decide) (by decide) h

/-- A character that is no digit is in no number. -/
theorem notMem_toDigits {n : Nat} {c : Char} (h : c.isDigit = false) : c ∉ Nat.toDigits 10 n := by
  intro hmem
  rw [isDigit_of_mem_toDigits hmem] at h
  cases h

theorem parseNat_toDigits (n : Nat) : parseNat (Nat.toDigits 10 n) = .ok n := by
  have hstrip : stripPlus (Nat.toDigits 10 n) = Nat.toDigits 10 n := by
    unfold stripPlus
    split
    · next c cs heq =>
      exact absurd (heq ▸ List.mem_cons_self) (notMem_toDigits (c := '+') (n := n) (by decide))
    · rfl
  have hall : (Nat.toDigits 10 n).all Char.isDigit = true :=
    List.all_eq_true.mpr fun c => isDigit_of_mem_toDigits
  unfold parseNat
  rw [hstrip, if_neg Nat.toDigits_ne_nil, if_pos hall, Nat.ofDigitChars_ten_toDigits]

theorem plain_toDigits (n : Nat) : Plain (Nat.toDigits 10 n) := by
  refine ⟨notMem_toDigits (by decide), fun hlast => ?_⟩
  exact notMem_toDigits (by decide) (List.mem_of_getLast? hlast)

end Lines
