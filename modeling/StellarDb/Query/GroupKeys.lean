import StellarDb.Lib.Joined
import StellarDb.Query.ValueText

/-!
# StellarDb — grouping by texts (`operators/group_aggregate.rs`, `operators/accumulator.rs`)

Rows are grouped by the texts of their group fields with bars between them, and `DISTINCT` knows
the values it has seen by their texts. Two values have one text when they are written alike
(`WrittenAlike`): of one kind and with the same payload, numbers of whatever type with the same
digits. That is not when they are equal (`sameValue`): `1` and `1.0` are equal numbers, a string
equals a reference with its text, and a datetime equals nothing.

Two keys are the same when the words between the bars are, so a bar in a value may shift the
fields (`Shifted`). Values that are equal do not shift (`written_of_key`), since a `Debug` text
ends by itself; so grouping is right on two rows exactly if their values are written alike when
they are equal, and do not shift.
-/

namespace StellarDb

open Keyspaces Formats

/-! ## Equal values -/

/-- Scalars by `values_equal`, arrays and objects by their structure. -/
def sameValue [Numerics] (v w : Value) : Bool :=
  match v, w with
  | .array _, .array _ | .object _, .object _ => v.beq w
  | _, _ => valuesEqual v w

/-! ## Texts of numbers -/

/-- The kind of a value, from its text. -/
def kindOfText : List Char → Nat
  | 'n' :: _ => 0
  | 't' :: _ => 1
  | 'f' :: _ => 1
  | '"' :: _ => 3
  | 'A' :: _ => 4
  | 'O' :: _ => 5
  | 'r' :: 'e' :: _ => 6
  | 'd' :: 'a' :: _ => 7
  | 'd' :: 'u' :: _ => 8
  | 'b' :: _ => 9
  | 'r' :: 'a' :: _ => 10
  | _ => 2

/-- What a number may start with. -/
def NumberHead (c : Char) : Prop := c = '-' ∨ c.isDigit = true ∨ c = 'N' ∨ c = 'i'

theorem kindOfText_number {c : Char} (h : NumberHead c) (cs : List Char) :
    kindOfText (c :: cs) = 2 := by
  rcases h with rfl | hdigit | rfl | rfl
  · rfl
  · unfold kindOfText
    split <;> first
      | rfl
      | (rename_i heq; cases heq; exact absurd hdigit (by decide))
  · rfl
  · rfl

theorem digitChar_isDigit {d : Nat} (hd : d < 10) : (Nat.digitChar d).isDigit = true := by
  have hall : ∀ d < 10, (Nat.digitChar d).isDigit = true := by
    decide
  exact hall d hd

theorem mem_of_readDigits {digits : List Char} {q : ℚ} (h : readDigits digits = some q) {c : Char}
    (hc : c ∈ digits) : c = '.' ∨ c.isDigit = true := by
  unfold readDigits at h
  dsimp only at h
  split at h
  · next hcond =>
    have hall := List.all_eq_true.mp hcond.2
    rw [← List.takeWhile_append_dropWhile (p := (· ≠ '.')) (l := digits)] at hc
    rcases List.mem_append.mp hc with hwhole | hrest
    · exact Or.inr (hall c (List.mem_append_left _ hwhole))
    · cases hdrop : digits.dropWhile (· ≠ '.') with
      | nil =>
        rw [hdrop] at hrest
        cases hrest
      | cons d ds =>
        rw [hdrop] at hrest hall
        rcases List.mem_cons.mp hrest with rfl | hmem
        · -- what is dropped starts with the point
          have hpoint := List.head?_dropWhile_not (· ≠ '.') digits
          rw [hdrop] at hpoint
          left
          simpa using hpoint
        · exact Or.inr (hall c (List.mem_append_right _ hmem))
  · cases h

theorem mem_of_readNumeral {s : String} {q : ℚ} (h : readNumeral s = some q) {c : Char}
    (hc : c ∈ s.toList) : c = '-' ∨ c = '.' ∨ c.isDigit = true := by
  unfold readNumeral at h
  split at h
  · next digits hs =>
    rw [hs] at hc
    cases hread : readDigits digits with
    | none =>
      rw [hread] at h
      cases h
    | some q' => exact (List.mem_cons.mp hc).imp_right (mem_of_readDigits hread)
  · exact Or.inr (mem_of_readDigits h hc)

/-- A double is written with a sign, digits and a point, or by a name. -/
theorem display_plain (f : F64) : (∃ c cs, f.display.toList = c :: cs ∧ NumberHead c) ∧
    '|' ∉ f.display.toList := by
  have habs : '|' ∉ f.absToString.toList := by
    intro hbar
    rcases F64.mem_absToString hbar with heq | ⟨d, -, heq⟩
    · exact absurd heq (by decide)
    · exact (digitChar_plain d).2.2.2 heq.symm
  unfold F64.display
  split
  · exact ⟨⟨'N', _, rfl, Or.inr (Or.inr (Or.inl rfl))⟩, by decide⟩
  · rw [String.toList_append]
    have hbody : (∃ c cs, (if f.isInfinite then "inf" else if f.isZero then "0"
        else f.absToString).toList = c :: cs ∧ NumberHead c) ∧
        '|' ∉ (if f.isInfinite then "inf" else if f.isZero then "0"
          else f.absToString).toList := by
      split
      · exact ⟨⟨'i', _, rfl, Or.inr (Or.inr (Or.inr rfl))⟩, by decide⟩
      · split
        · exact ⟨⟨'0', _, rfl, Or.inr (Or.inl rfl)⟩, by decide⟩
        · obtain ⟨d, hd, cs, heq⟩ := F64.absToString_cons f
          exact ⟨⟨_, cs, heq, Or.inr (Or.inl (digitChar_isDigit hd))⟩, habs⟩
    split
    · refine ⟨⟨'-', _, rfl, Or.inl rfl⟩, fun hbar => ?_⟩
      rcases List.mem_cons.mp hbar with heq | hmem
      · exact absurd heq (by decide)
      · exact hbody.2 hmem
    · exact hbody

section Texts

variable [External]

/-- The decimal notation of a number. -/
def numberText : Value → String
  | .int n => toString n.toInt
  | .float f => f.display
  | .decimal d => External.decimalToString d
  | _ => ""

/-- A number is written with a sign, digits and a point, or by a name. -/
theorem numberText_plain (htexts : DecimalTexts) {v : Value} (hv : v.isNumeric = true) :
    (∃ c cs, (numberText v).toList = c :: cs ∧ NumberHead c) ∧ '|' ∉ (numberText v).toList := by
  cases v with
  | int n =>
    obtain ⟨c, cs, heq, hc⟩ := head_of_readNumeral (readNumeral_int n.toInt)
    refine ⟨⟨c, cs, heq, hc.imp_right Or.inl⟩, fun hbar => ?_⟩
    rcases mem_intText hbar with heq | hdigit
    · exact absurd heq (by decide)
    · exact absurd hdigit (by decide)
  | float f => exact display_plain f
  | decimal d =>
    obtain ⟨c, cs, heq, hc⟩ := head_of_readNumeral (htexts d)
    refine ⟨⟨c, cs, heq, hc.imp_right Or.inl⟩, fun hbar => ?_⟩
    rcases mem_of_readNumeral (htexts d) hbar with heq | heq | hdigit
    · exact absurd heq (by decide)
    · exact absurd heq (by decide)
    · exact absurd hdigit (by decide)
  | _ => cases hv

/-! ## Values by their texts -/

variable [Formats] [DebugTables]

/-- Of one kind and with one payload, or numbers with the same digits. -/
def WrittenAlike : Value → Value → Prop
  | .null, .null => True
  | .bool a, .bool b => a = b
  | .string a, .string b => a = b
  | .reference a, .reference b => a = b
  | .datetime a, .datetime b => a = b
  | .duration a, .duration b => a = b
  | .bytes a, .bytes b => a = b
  | .array a, .array b => Value.debugElems a = Value.debugElems b
  | .object a, .object b => Value.debugEntries a = Value.debugEntries b
  | .range a b, .range c d => a.displayText ++ ".." ++ b.displayText =
      c.displayText ++ ".." ++ d.displayText
  | v, w => v.isNumeric = true ∧ w.isNumeric = true ∧ numberText v = numberText w

local instance writtenText : ValueText := .written

/-- A text tells the kind of the value. -/
theorem kindOfText_serializeValue (htexts : DecimalTexts) (v : Value) :
    kindOfText (serializeValue v).toList = v.typePriority := by
  have hnumber : ∀ v : Value, v.isNumeric = true → kindOfText (numberText v).toList = 2 := by
    intro v hv
    obtain ⟨⟨c, cs, heq, hc⟩, -⟩ := numberText_plain htexts hv
    rw [heq, kindOfText_number hc]
  cases v with
  | null =>
    show kindOfText "null".toList = 0
    decide
  | bool b =>
    cases b with
    | true =>
      show kindOfText "true".toList = 1
      decide
    | false =>
      show kindOfText "false".toList = 1
      decide
  | int n => exact hnumber (.int n) rfl
  | float f => exact hnumber (.float f) rfl
  | decimal d => exact hnumber (.decimal d) rfl
  | string s =>
    show kindOfText ("\"" ++ s ++ "\"").toList = 3
    rw [String.toList_append, String.toList_append]
    rfl
  | array elems =>
    show kindOfText (String.ofList (Value.debugChars (.array elems))).toList = 4
    rw [String.toList_ofList]
    rfl
  | object entries =>
    show kindOfText (String.ofList (Value.debugChars (.object entries))).toList = 5
    rw [String.toList_ofList]
    rfl
  | reference id =>
    show kindOfText ("ref:" ++ id).toList = 6
    rw [String.toList_append]
    rfl
  | datetime ms =>
    show kindOfText ("datetime:" ++ toString ms.toInt).toList = 7
    rw [String.toList_append]
    rfl
  | duration ns =>
    show kindOfText ("duration:" ++ toString ns.toNat).toList = 8
    rw [String.toList_append]
    rfl
  | bytes b =>
    show kindOfText ("bytes:" ++ String.ofList _).toList = 9
    rw [String.toList_append]
    rfl
  | range start stop =>
    show kindOfText ("range:" ++ start.displayText ++ ".." ++ stop.displayText).toList = 10
    rw [String.toList_append, String.toList_append, String.toList_append]
    rfl

omit [External] [Formats] [DebugTables] in
theorem append_text_inj {p s t : String} : p ++ s = p ++ t ↔ s = t := by
  rw [← String.toList_inj, String.toList_append, String.toList_append, List.append_cancel_left_eq,
    String.toList_inj]

omit [External] [Formats] [DebugTables] in
theorem intText_inj {m n : Int} : toString m = toString n ↔ m = n := by
  refine ⟨fun h => ?_, congrArg toString⟩
  have hread := readNumeral_int m
  rw [h, readNumeral_int] at hread
  exact_mod_cast (Option.some.inj hread).symm

omit [External] [Formats] [DebugTables] in
theorem natText_inj {m n : Nat} : toString m = toString n ↔ m = n := by
  refine ⟨fun h => ?_, congrArg toString⟩
  rw [Nat.toString_eq_ofList_toDigits, Nat.toString_eq_ofList_toDigits, String.ofList_inj] at h
  rw [← Nat.ofDigitChars_ten_toDigits (n := m), h, Nat.ofDigitChars_ten_toDigits]

omit [External] [Formats] [DebugTables] in
theorem isNumeric_iff {v : Value} : v.isNumeric = true ↔ v.typePriority = 2 := by
  cases v <;> first
    | exact ⟨fun _ => rfl, fun _ => rfl⟩
    | exact ⟨fun h => absurd h Bool.false_ne_true, fun h => by cases h⟩

theorem typePriority_of_writtenAlike {v w : Value} (h : WrittenAlike v w) :
    v.typePriority = w.typePriority := by
  cases v <;> cases w <;> first
    | rfl
    | exact absurd h.1 Bool.false_ne_true
    | exact absurd h.2.1 Bool.false_ne_true

/-- Two values of one kind that is not that of the numbers. -/
theorem serializeValue_inj_iff {v w : Value} (hkind : v.typePriority = w.typePriority)
    (hv : v.isNumeric = false) : serializeValue v = serializeValue w ↔ WrittenAlike v w := by
  cases v with
  | null =>
    cases w with
    | null => exact ⟨fun _ => trivial, fun _ => rfl⟩
    | _ => cases hkind
  | bool a =>
    cases w with
    | bool b =>
      show toString a = toString b ↔ a = b
      cases a <;> cases b <;> decide
    | _ => cases hkind
  | string a =>
    cases w with
    | string b => exact ⟨quoted_inj, congrArg fun s => "\"" ++ s ++ "\""⟩
    | _ => cases hkind
  | array a =>
    cases w with
    | array b =>
      show String.ofList _ = String.ofList _ ↔ Value.debugElems a = Value.debugElems b
      rw [String.ofList_inj]
      unfold Value.debugChars
      rw [List.append_cancel_left_eq, List.append_cancel_right_eq]
    | _ => cases hkind
  | object a =>
    cases w with
    | object b =>
      show String.ofList _ = String.ofList _ ↔ Value.debugEntries a = Value.debugEntries b
      rw [String.ofList_inj]
      unfold Value.debugChars
      rw [List.append_cancel_left_eq, List.append_cancel_right_eq]
    | _ => cases hkind
  | reference a =>
    cases w with
    | reference b => exact append_text_inj
    | _ => cases hkind
  | datetime a =>
    cases w with
    | datetime b => exact append_text_inj.trans (intText_inj.trans Int64.toInt_inj)
    | _ => cases hkind
  | duration a =>
    cases w with
    | duration b =>
      exact append_text_inj.trans (natText_inj.trans UInt64.toNat_inj)
    | _ => cases hkind
  | bytes a =>
    cases w with
    | bytes b =>
      refine append_text_inj.trans (String.ofList_inj.trans ⟨fun h => ?_, fun h => ?_⟩)
      · exact (byteListChars_front (List.cons.inj h).2).1
      · cases h
        rfl
    | _ => cases hkind
  | range a b =>
    cases w with
    | range c d =>
      show "range:" ++ _ ++ ".." ++ _ = "range:" ++ _ ++ ".." ++ _ ↔ _
      rw [String.append_assoc, String.append_assoc, String.append_assoc, String.append_assoc,
        append_text_inj, ← String.append_assoc, ← String.append_assoc]
      rfl
    | _ => cases hkind
  | int n => cases hv
  | float f => cases hv
  | decimal d => cases hv

/-- Values have one text when they are written alike. -/
theorem serializeValue_eq_iff (htexts : DecimalTexts) (v w : Value) :
    serializeValue v = serializeValue w ↔ WrittenAlike v w := by
  by_cases hkind : v.typePriority = w.typePriority
  · cases hv : v.isNumeric with
    | false => exact serializeValue_inj_iff hkind hv
    | true =>
      have hw := isNumeric_iff.mpr (hkind ▸ isNumeric_iff.mp hv)
      cases v <;> cases hv <;> cases w <;> cases hw <;>
        exact ⟨fun h => ⟨rfl, rfl, h⟩, fun h => h.2.2⟩
  · refine ⟨fun h => ?_, fun h => absurd (typePriority_of_writtenAlike h) hkind⟩
    rw [← kindOfText_serializeValue htexts, h, kindOfText_serializeValue htexts] at hkind
    exact absurd rfl hkind

/-! ## Keys of groups -/

/-- The words of a text between its bars. -/
def words (v : Value) : List (List Char) := (serializeValue v).toList.splitOn '|'

/-- The bars in the texts make two keys the same that are not written alike field by field. -/
def Shifted (vs ws : List Value) : Prop :=
  vs.flatMap words = ws.flatMap words ∧ ¬ List.Forall₂ WrittenAlike vs ws

theorem toList_groupKey (vs : List Value) : (groupKey vs).toList =
    ['|'].intercalate (vs.map fun v => (serializeValue v).toList) := by
  unfold groupKey
  rw [String.toList_intercalate, List.map_map]
  rfl

theorem groupKey_eq_iff {vs ws : List Value} (hlen : vs.length = ws.length) :
    groupKey vs = groupKey ws ↔ vs.flatMap words = ws.flatMap words := by
  cases vs with
  | nil =>
    rw [List.length_eq_zero_iff.mp hlen.symm]
    exact ⟨fun _ => rfl, fun _ => rfl⟩
  | cons v vs =>
    cases ws with
    | nil => cases hlen
    | cons w ws =>
      rw [← String.toList_inj, toList_groupKey, toList_groupKey,
        Joined.joined_eq_iff (by simp) (by simp), List.flatMap_map, List.flatMap_map]
      rfl

theorem groupKey_of_written (htexts : DecimalTexts) {vs ws : List Value}
    (h : List.Forall₂ WrittenAlike vs ws) : groupKey vs = groupKey ws := by
  have htext : vs.map serializeValue = ws.map serializeValue := by
    induction h with
    | nil => rfl
    | cons hvw _ ih =>
      rw [List.map_cons, List.map_cons, ih, (serializeValue_eq_iff htexts _ _).mpr hvw]
  unfold groupKey
  rw [htext]

variable [Numerics]

omit [External] [Formats] [DebugTables] in
/-- `values_equal` holds of numbers, of a value and itself, and of a reference and its text. -/
theorem valuesEqual_cases {v w : Value} (h : valuesEqual v w = true) :
    (v.isNumeric = true ∧ w.isNumeric = true) ∨ v = w ∨
      (∃ id, v = .reference id ∧ w = .string id) ∨ ∃ id, v = .string id ∧ w = .reference id := by
  cases v with
  | null =>
    cases w with
    | null => exact Or.inr (Or.inl rfl)
    | _ => cases h
  | bool a =>
    cases w with
    | bool b => exact Or.inr (Or.inl (congrArg Value.bool (beq_iff_eq.mp h)))
    | _ => cases h
  | string a =>
    cases w with
    | string b => exact Or.inr (Or.inl (congrArg Value.string (beq_iff_eq.mp h)))
    | reference b => exact Or.inr (Or.inr (Or.inr ⟨a, rfl, congrArg _ (beq_iff_eq.mp h)⟩))
    | _ => cases h
  | reference a =>
    cases w with
    | string b =>
      exact Or.inr (Or.inr (Or.inl ⟨a, rfl, congrArg _ (beq_iff_eq.mp h).symm⟩))
    | reference b => exact Or.inr (Or.inl (congrArg Value.reference (beq_iff_eq.mp h)))
    | _ => cases h
  | int n =>
    cases w with
    | int m => exact Or.inl ⟨rfl, rfl⟩
    | float g => exact Or.inl ⟨rfl, rfl⟩
    | decimal e => exact Or.inl ⟨rfl, rfl⟩
    | _ => cases h
  | decimal d =>
    cases w with
    | int m => exact Or.inl ⟨rfl, rfl⟩
    | float g => exact Or.inl ⟨rfl, rfl⟩
    | decimal e => exact Or.inl ⟨rfl, rfl⟩
    | _ => cases h
  | float f =>
    cases w with
    | int m => exact Or.inl ⟨rfl, rfl⟩
    | float g => exact Or.inl ⟨rfl, rfl⟩
    | decimal e => exact Or.inl ⟨rfl, rfl⟩
    | _ =>
      unfold valuesEqual at h
      cases hd : (Value.float f).asDecimal <;> rw [hd] at h <;> cases h
  | _ => cases w <;> cases h

/-- Equal values in front of a bar have one text if what they begin is one key. -/
theorem serializeValue_of_append (htexts : DecimalTexts) {v w : Value}
    (hsame : sameValue v w = true) {x y : List Char}
    (h : (serializeValue v).toList ++ '|' :: x = (serializeValue w).toList ++ '|' :: y) :
    serializeValue v = serializeValue w := by
  -- the text of an array or an object ends by itself
  have hdebug : ∀ a b : Value, (String.ofList a.debugChars).toList ++ '|' :: x =
      (String.ofList b.debugChars).toList ++ '|' :: y →
      String.ofList a.debugChars = String.ofList b.debugChars := by
    intro a b hab
    rw [String.toList_ofList, String.toList_ofList] at hab
    rw [(Value.debugChars_prefix a b _ _ hab).1]
  have htick : ∀ (s t : String) (x y : List Char),
      (serializeValue (.reference s)).toList ++ '|' :: x ≠
        (serializeValue (.string t)).toList ++ '|' :: y := by
    intro s t x y hst
    have hchars : ("ref:" ++ s).toList ++ '|' :: x = ("\"" ++ t ++ "\"").toList ++ '|' :: y := hst
    rw [String.toList_append, String.toList_append, String.toList_append] at hchars
    exact absurd (List.cons.inj hchars).1 (by decide)
  have hscalar : valuesEqual v w = true → serializeValue v = serializeValue w := by
    intro hequal
    rcases valuesEqual_cases hequal with ⟨hv, hw⟩ | rfl | ⟨id, rfl, rfl⟩ | ⟨id, rfl, rfl⟩
    · -- no bar in the text of a number
      have htext : ∀ {v : Value}, v.isNumeric = true → serializeValue v = numberText v ∧
          ∀ c ∈ (serializeValue v).toList, (c == '|') = false := by
        intro v hv
        have heq : serializeValue v = numberText v := by
          cases v <;> first | rfl | cases hv
        refine ⟨heq, fun c hc => beq_false_of_ne ?_⟩
        rintro rfl
        exact (numberText_plain htexts hv).2 (heq ▸ hc)
      exact String.toList_inj.mp (append_inj_of_stops (htext hv).2 (htext hw).2 rfl rfl h).1
    · rfl
    · exact absurd h (htick id id x y)
    · exact absurd h.symm (htick id id y x)
  cases v with
  | array a =>
    cases w with
    | array b => exact hdebug (.array a) (.array b) h
    | _ => exact hscalar hsame
  | object a =>
    cases w with
    | object b => exact hdebug (.object a) (.object b) h
    | _ => exact hscalar hsame
  | _ => cases w <;> exact hscalar hsame

/-- Equal values with one key are written alike. -/
theorem written_of_key (htexts : DecimalTexts) {vs ws : List Value}
    (hsame : List.Forall₂ (fun v w => sameValue v w = true) vs ws)
    (hkey : groupKey vs = groupKey ws) : List.Forall₂ WrittenAlike vs ws := by
  rw [← String.toList_inj, toList_groupKey, toList_groupKey] at hkey
  induction hsame with
  | nil => exact .nil
  | @cons v w vs ws hvw hrest ih =>
    cases hrest with
    | nil =>
      refine .cons ((serializeValue_eq_iff htexts _ _).mp (String.toList_inj.mp ?_)) .nil
      rwa [List.map_singleton, List.map_singleton, List.intercalate_singleton,
        List.intercalate_singleton] at hkey
    | @cons v' w' vs ws hvw' hrest =>
      simp only [List.map_cons, List.intercalate_cons_cons, List.append_assoc,
        List.singleton_append] at hkey ih
      have htext := serializeValue_of_append htexts hvw hkey
      rw [htext] at hkey
      refine .cons ((serializeValue_eq_iff htexts _ _).mp htext) (ih ?_)
      exact (List.cons.inj (List.append_cancel_left hkey)).2

/-- Grouping is right on two lists of values exactly when they are written alike if and only if
they are equal, and do not shift. -/
theorem groupKey_exact_iff (htexts : DecimalTexts) {vs ws : List Value}
    (hlen : vs.length = ws.length) :
    (groupKey vs = groupKey ws ↔ List.Forall₂ (fun v w => sameValue v w = true) vs ws) ↔
      (List.Forall₂ WrittenAlike vs ws ↔ List.Forall₂ (fun v w => sameValue v w = true) vs ws) ∧
      ¬ Shifted vs ws := by
  have hwritten : List.Forall₂ WrittenAlike vs ws → groupKey vs = groupKey ws :=
    groupKey_of_written htexts
  have hsame : List.Forall₂ (fun v w => sameValue v w = true) vs ws →
      groupKey vs = groupKey ws → List.Forall₂ WrittenAlike vs ws := written_of_key htexts
  unfold Shifted
  rw [← groupKey_eq_iff hlen]
  tauto

/-! ## The operator and `DISTINCT` -/

variable [Arithmetic]

/-- The rows of each group, in the order of their first rows. -/
def rowGroups (fields : List String) (rows : List Row) : List (List Row) :=
  (groupKeys fields rows).map fun key =>
    rows.filter fun row => groupKey (groupValues fields row) = key

/-- The operator makes one row of each group. -/
theorem groupAggregateOp_eq (fields : List String) (aggs : List ResolvedAggregate)
    (rows : List Row) : groupAggregateOp fields aggs rows =
      (rowGroups fields rows).mapM (groupRow fields aggs) := by
  unfold groupAggregateOp rowGroups
  rw [List.mapM_map]
  rfl

omit [Numerics] [Arithmetic] in
theorem together_iff {fields : List String} {rows : List Row} {r r' : Row} (hr : r ∈ rows)
    (hr' : r' ∈ rows) : (∃ g ∈ rowGroups fields rows, r ∈ g ∧ r' ∈ g) ↔
      groupKey (groupValues fields r) = groupKey (groupValues fields r') := by
  unfold rowGroups groupKeys
  simp only [List.mem_map, List.mem_reverse, List.mem_dedup, exists_exists_and_eq_and,
    List.mem_filter, decide_eq_true_eq]
  constructor
  · rintro ⟨row, -, ⟨-, h⟩, -, h'⟩
    exact h.trans h'.symm
  · exact fun h => ⟨r, hr, ⟨hr, rfl⟩, hr', h.symm⟩

/-- A value is passed over by `DISTINCT` behind another one exactly if they have one text. -/
theorem feed_distinct_iff (f : AggregateFunction) {v w : Value} (hv : v.isNull = false)
    (hw : w.isNull = false) :
    ((Accumulator.new f true).feed (some v)).feed (some w) =
      (Accumulator.new f true).feed (some v) ↔ serializeValue v = serializeValue w := by
  have hfirst : ((Accumulator.new f true).feed (some v)).distinct = true ∧
      ((Accumulator.new f true).feed (some v)).distinctValues = [serializeValue v] := by
    have hnew : serializeValue v ∉ (Accumulator.new f true).distinctValues := nofun
    rw [Accumulator.feed_distinct (.new f true) rfl hv, if_neg hnew]
    exact Accumulator.feedValue_distinct _ _
  rw [Accumulator.feed_distinct _ hfirst.1 hw, hfirst.2]
  constructor
  · intro h
    by_contra hne
    rw [if_neg fun hmem => hne (List.mem_singleton.mp hmem).symm] at h
    have hvalues := congrArg Accumulator.distinctValues h
    rw [(Accumulator.feedValue_distinct _ _).2, hfirst.2] at hvalues
    exact absurd (congrArg List.length hvalues) (by simp)
  · exact fun h => if_pos (List.mem_singleton.mpr h.symm)

/-- The values are counted as they are equal: numbers have the same digits when they are equal
and only then, arrays and objects are printed alike when they are equal and only then, and values
of the kinds that equal nothing are different. -/
def CountedAsEqual : Value → Value → Prop
  | .string s, .reference id => s ≠ id
  | .reference id, .string s => s ≠ id
  | .datetime a, .datetime b => a ≠ b
  | .duration a, .duration b => a ≠ b
  | .bytes a, .bytes b => a ≠ b
  | .range a b, .range c d => a.displayText ++ ".." ++ b.displayText ≠
      c.displayText ++ ".." ++ d.displayText
  | .array a, .array b => (Value.array a).beq (.array b) = true ↔
      Value.debugElems a = Value.debugElems b
  | .object a, .object b => (Value.object a).beq (.object b) = true ↔
      Value.debugEntries a = Value.debugEntries b
  | v, w => v.isNumeric = true → w.isNumeric = true →
      (valuesEqual v w = true ↔ numberText v = numberText w)

omit [External] [Formats] [DebugTables] [Arithmetic] in
theorem valuesEqual_float {f : F64} {w : Value} (hw : w.isNumeric = false) :
    valuesEqual (.float f) w = false := by
  rw [Bool.eq_false_iff]
  intro h
  rcases valuesEqual_cases h with ⟨-, hw'⟩ | rfl | ⟨id, hf, -⟩ | ⟨id, hf, -⟩
  · rw [hw] at hw'
    cases hw'
  · cases hw
  · cases hf
  · cases hf

omit [Arithmetic] in
theorem countedAsEqual_iff (v w : Value) :
    (WrittenAlike v w ↔ sameValue v w = true) ↔ CountedAsEqual v w := by
  -- two numbers
  have hnumbers : ∀ {v w : Value}, v.isNumeric = true → w.isNumeric = true →
      (((v.isNumeric = true ∧ w.isNumeric = true ∧ numberText v = numberText w) ↔
        valuesEqual v w = true) ↔ (v.isNumeric = true → w.isNumeric = true →
          (valuesEqual v w = true ↔ numberText v = numberText w))) := by
    intro v w hv hw
    simp only [hv, hw, true_and, forall_const]
    exact iff_comm
  -- values of different kinds that are not equal
  have hapart : ∀ {v w : Value}, (v.isNumeric && w.isNumeric) = false →
      valuesEqual v w = false →
      (((v.isNumeric = true ∧ w.isNumeric = true ∧ numberText v = numberText w) ↔
        valuesEqual v w = true) ↔ (v.isNumeric = true → w.isNumeric = true →
          (valuesEqual v w = true ↔ numberText v = numberText w))) := by
    intro v w hkinds hne
    have hnone : v.isNumeric = true → w.isNumeric = true → False := by
      intro hv hw
      rw [hv, hw] at hkinds
      cases hkinds
    exact ⟨fun _ hv hw => (hnone hv hw).elim, fun _ =>
      ⟨fun h => (hnone h.1 h.2.1).elim, fun h => absurd (hne.symm.trans h) Bool.false_ne_true⟩⟩
  -- values of one kind that equal nothing
  have hnever : ∀ {p : Prop}, (p ↔ false = true) ↔ ¬ p := by simp
  -- a reference and a string
  have htick : ∀ {p : Prop} {s t : String},
      (((false = true ∧ p) ↔ (s == t) = true) ↔ s ≠ t) := by simp
  cases v with
  | null =>
    cases w with
    | null =>
      exact ⟨fun _ h => absurd h Bool.false_ne_true, fun _ => ⟨fun _ => rfl, fun _ => trivial⟩⟩
    | _ => exact hapart rfl rfl
  | bool a =>
    cases w with
    | bool b => exact ⟨fun _ h => absurd h Bool.false_ne_true, fun _ => beq_iff_eq.symm⟩
    | _ => exact hapart rfl rfl
  | string a =>
    cases w with
    | string b => exact ⟨fun _ h => absurd h Bool.false_ne_true, fun _ => beq_iff_eq.symm⟩
    | reference b => exact htick.trans ne_comm
    | _ => exact hapart rfl rfl
  | reference a =>
    cases w with
    | reference b => exact ⟨fun _ h => absurd h Bool.false_ne_true, fun _ => beq_iff_eq.symm⟩
    | string b => exact htick.trans ne_comm
    | _ => exact hapart rfl rfl
  | int n =>
    cases w with
    | int m => exact hnumbers rfl rfl
    | float g => exact hnumbers rfl rfl
    | decimal e => exact hnumbers rfl rfl
    | _ => exact hapart rfl rfl
  | float f =>
    cases w with
    | int m => exact hnumbers rfl rfl
    | float g => exact hnumbers rfl rfl
    | decimal e => exact hnumbers rfl rfl
    | _ => exact hapart rfl (valuesEqual_float rfl)
  | decimal d =>
    cases w with
    | int m => exact hnumbers rfl rfl
    | float g => exact hnumbers rfl rfl
    | decimal e => exact hnumbers rfl rfl
    | _ => exact hapart rfl rfl
  | datetime a =>
    cases w with
    | datetime b => exact hnever
    | _ => exact hapart rfl rfl
  | duration a =>
    cases w with
    | duration b => exact hnever
    | _ => exact hapart rfl rfl
  | bytes a =>
    cases w with
    | bytes b => exact hnever
    | _ => exact hapart rfl rfl
  | range a b =>
    cases w with
    | range c d => exact hnever
    | _ => exact hapart rfl rfl
  | array a =>
    cases w with
    | array b => exact iff_comm
    | _ => exact hapart rfl rfl
  | object a =>
    cases w with
    | object b => exact iff_comm
    | _ => exact hapart rfl rfl

/-- Rows are put into one group, and values counted once, as they are equal: for two rows exactly
when their values are written alike if and only if they are equal and do not shift, for two values
under `DISTINCT` exactly when they are counted as equal. -/
theorem grouping_exact_iff (htexts : DecimalTexts) :
    (∀ (fields : List String) (aggs : List ResolvedAggregate) (rows : List Row),
      groupAggregateOp fields aggs rows =
        (rowGroups fields rows).mapM (groupRow fields aggs)) ∧
    (∀ (fields : List String) (rows : List Row) (r r' : Row), r ∈ rows → r' ∈ rows →
      (((∃ g ∈ rowGroups fields rows, r ∈ g ∧ r' ∈ g) ↔
        List.Forall₂ (fun v w => sameValue v w = true) (groupValues fields r)
          (groupValues fields r')) ↔
      (List.Forall₂ WrittenAlike (groupValues fields r) (groupValues fields r') ↔
        List.Forall₂ (fun v w => sameValue v w = true) (groupValues fields r)
          (groupValues fields r')) ∧
      ¬ Shifted (groupValues fields r) (groupValues fields r'))) ∧
    ∀ (f : AggregateFunction) (v w : Value), v.isNull = false → w.isNull = false →
      ((((Accumulator.new f true).feed (some v)).feed (some w) =
        (Accumulator.new f true).feed (some v) ↔ sameValue v w = true) ↔ CountedAsEqual v w) := by
  refine ⟨groupAggregateOp_eq, fun fields rows r r' hr hr' => ?_, fun f v w hv hw => ?_⟩
  · rw [together_iff hr hr']
    apply groupKey_exact_iff htexts
    unfold groupValues
    rw [List.length_map, List.length_map]
  · rw [feed_distinct_iff f hv hw, serializeValue_eq_iff htexts]
    exact countedAsEqual_iff v w

end Texts

namespace Polls

local instance : External where
  xxh3_128 := id
  decimalToString := Decimal.text
  decimalBytesFromStr _ := none

local instance : Formats := .standIn

local instance : DebugTables := .standIn

local instance : Numerics := .standIn

local instance : Arithmetic := .standIn

local instance : ValueText := writtenText

def vote (n : Value) (h : (Value.object [("n", n)]).wf = true) : Row :=
  .fromDoc ⟨"votes:1", [("n", n)], h⟩

/-- One row has `1` and the other `1.0`. -/
def whole : Row := vote (.int 1) rfl

theorem tenths_wf : (Value.object [("n", .decimal ⟨false, 1, 10⟩)]).wf = true := rfl

def tenths : Row := vote (.decimal ⟨false, 1, 10⟩) tenths_wf

def two : Row := vote (.int 2) rfl

/-- Rows with `1` and `2` are not put into one group, and their values are not equal. -/
theorem votes_grouped : (∃ g ∈ rowGroups ["n"] [whole, two], whole ∈ g ∧ two ∈ g) ↔
    List.Forall₂ (fun v w => sameValue v w = true) (groupValues ["n"] whole)
      (groupValues ["n"] two) := by
  have hkey : groupKey (groupValues ["n"] whole) ≠ groupKey (groupValues ["n"] two) := by
    decide +kernel
  refine ((grouping_exact_iff Decimal.readNumeral_text).2.1 ["n"] [whole, two] whole two
    (by simp) (by simp)).mpr ⟨⟨fun h => ?_, fun h => ?_⟩, fun h => ?_⟩
  · exact absurd (groupKey_of_written Decimal.readNumeral_text h) hkey
  · cases h with
    | cons h _ => exact absurd h (by decide +kernel)
  · have hlen : (groupValues ["n"] whole).length = (groupValues ["n"] two).length := rfl
    exact hkey ((groupKey_eq_iff hlen).mpr h.1)

/-- Rows with `1` and `1.0` are put into two groups, although these numbers are equal. -/
theorem equal_votes_apart : ¬ ((∃ g ∈ rowGroups ["n"] [whole, tenths], whole ∈ g ∧ tenths ∈ g) ↔
    List.Forall₂ (fun v w => sameValue v w = true) (groupValues ["n"] whole)
      (groupValues ["n"] tenths)) := by
  intro h
  have hequal : sameValue (.int 1) (.decimal ⟨false, 1, 10⟩) = true := by
    decide +kernel
  have htogether := h.mpr (.cons hequal .nil)
  rw [together_iff (by simp) (by simp)] at htogether
  exact absurd htogether (by decide +kernel)

end Polls

end StellarDb
