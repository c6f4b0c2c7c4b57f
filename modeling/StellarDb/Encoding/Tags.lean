import StellarDb.Encoding.Order

/-!
# StellarDb — the tags of encoded values (`storage/encoding.rs`)

The first byte of an encoding tells the kind of the value (`tagByte`), and for numbers its width:
sixteen bytes behind the tag, whatever type the number has.
-/

namespace StellarDb

open Keyspaces

theorem padTo_length (pad : UInt8) (bs : Bytes) : (padTo pad bs).length = 16 := by
  unfold padTo numericFixedWidth
  rw [List.length_append, List.length_take, List.length_replicate]
  omega

theorem signExpMantissa_length (negative : Bool) (high low : UInt8) (mantissa : Bytes) :
    (signExpMantissa negative high low mantissa).length = 16 := by
  unfold signExpMantissa
  split
  · exact padTo_length ..
  · exact padTo_length ..

theorem int_width (n : Int) : (encodeI64FixedWidth n).length = 16 := by
  unfold encodeI64FixedWidth
  split
  · rfl
  · exact signExpMantissa_length ..

theorem float_width (f : F64) : (encodeF64FixedWidth f).length = 16 := by
  have hstring : ∀ s negative, (encodeFloatString s negative).length = 16 := by
    intro s negative
    unfold encodeFloatString
    dsimp only
    split
    · rfl
    · exact signExpMantissa_length ..
  unfold encodeF64FixedWidth
  split
  · rfl
  split
  · rfl
  split
  · rfl
  split
  · rfl
  split
  · exact int_width _
  · exact hstring _ _

/-- The first byte of an encoding. -/
def tagByte : Value → UInt8
  | .null => tagNull
  | .bool _ => tagBool
  | .int _ | .float _ | .decimal _ => tagNumber
  | .string _ | .reference _ => tagString
  | .array _ | .object _ => 0xFF
  | .datetime _ => tagDatetime
  | .duration _ => tagDuration
  | .bytes _ => tagBytes
  | .range _ _ => tagRange

section Encodings

variable [External]

theorem decimal_width (s : String) : (encodeNumberFixedWidth s).length = 16 := by
  unfold encodeNumberFixedWidth
  split
  · rfl
  · split
    · rfl
    split
    · rfl
    split
    · rfl
    split
    · rfl
    · exact padTo_length ..

theorem head_encodeValueOrdered (v : Value) : (encodeValueOrdered v).head? = some (tagByte v) := by
  cases v <;> simp [encodeValueOrdered, tagByte]

/-- Numbers of all kinds have encodings of one length. -/
theorem number_length {v : Value} (h : tagByte v = tagNumber) :
    (encodeValueOrdered v).length = 17 := by
  cases v with
  | int n => rw [encodeValueOrdered, List.length_cons, int_width]
  | float f => rw [encodeValueOrdered, List.length_cons, float_width]
  | decimal d => rw [encodeValueOrdered, List.length_cons, decimal_width]
  | _ => exact absurd h (by simp only [tagByte]; decide)

/-- Text is encoded like the string of its bytes. -/
theorem text_encoding {v : Value} (h : tagByte v = tagString) :
    ∃ text, encodeValueOrdered v = tagString :: escapeNul (utf8 text) := by
  cases v with
  | string text => exact ⟨text, rfl⟩
  | reference text => exact ⟨text, rfl⟩
  | _ => exact absurd h (by simp only [tagByte]; decide)

/-- What two texts begin with has one tag. -/
theorem tagByte_eq_of_append_eq {v w : Value} {x y : Bytes}
    (h : encodeValueOrdered v ++ x = encodeValueOrdered w ++ y) : tagByte v = tagByte w := by
  have hhead := congrArg List.head? h
  rw [List.head?_append, List.head?_append, head_encodeValueOrdered,
    head_encodeValueOrdered] at hhead
  exact Option.some.inj hhead

/-- A text's encoding ends where its terminator stands. -/
theorem text_front {v w : Value} (hv : tagByte v = tagString) {x y : Bytes}
    (h : encodeValueOrdered v ++ x = encodeValueOrdered w ++ y) :
    encodeValueOrdered v = encodeValueOrdered w := by
  have htag := tagByte_eq_of_append_eq h
  obtain ⟨a, ha⟩ := text_encoding hv
  obtain ⟨b, hb⟩ := text_encoding (htag.symm.trans hv)
  rw [ha, hb] at h ⊢
  by_cases hab : utf8 a = utf8 b
  · rw [hab]
  · -- different texts differ before either ends
    have htail : escapeNul (utf8 a) ++ x = escapeNul (utf8 b) ++ y := (List.cons.inj h).2
    have hcmp := compare_escapeNul hab x y
    rw [htail, compare_bytes_self] at hcmp
    exact absurd (Std.LawfulEqCmp.eq_of_compare hcmp.symm) hab

end Encodings

end StellarDb
