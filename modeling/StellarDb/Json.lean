import StellarDb.Encoding

/-!
# StellarDb — documents as JSON (`document.rs`)

`Value` is serialized without tags, and read back by trying the variants in the order of their
declaration: null, bool, int, float, decimal, string, array, object. The variants after these are
written as strings, numbers or maps, so they never come back.
-/

namespace StellarDb

open Keyspaces

/-- JSON, as far as `serde_json` tells it apart. -/
inductive Json where
  | null
  | bool (b : Bool)
  | int (n : Int)
  | float (f : F64)
  | str (s : String)
  | arr (elems : List Json)
  | obj (entries : List (String × Json))

/-- The third-party functions behind the serialized forms. -/
class Formats where
  /-- `s.parse::<Decimal>()` of `rust_decimal` -/
  parseDecimal : String → Option Decimal
  /-- A finite double, written and read by `serde_json`. -/
  reparseFloat : F64 → F64
  /-- `DateTime::from_timestamp_millis(ms).map(|dt| dt.to_rfc3339())` of `chrono` -/
  rfc3339 : Int64 → Option String
  /-- `STANDARD.encode(bytes)` of `base64` -/
  base64 : Bytes → String

/-- A stand-in, for runs on texts that are no decimals. -/
@[reducible] def Formats.standIn : Formats where
  parseDecimal _ := none
  reparseFloat f := f
  rfc3339 _ := none
  base64 _ := ""

open Formats

/-! ## Writing -/

section Write

variable [External] [Formats]

mutual

def Value.toJson : Value → Json
  | .null => .null
  | .bool b => .bool b
  | .int n => .int n.toInt
  | .float f => if f.isNan || f.isInfinite then .null else .float f
  | .decimal d => .str (External.decimalToString d)
  | .string s => .str s
  | .array elems => .arr (elemsToJson elems)
  | .object entries => .obj (entriesToJson entries)
  | .reference id => .str id
  | .datetime ms =>
    match rfc3339 ms with
    | some s => .str s
    | none => .int ms.toInt
  | .duration ns => .obj [("_type", .str "duration"), ("nanos", .int ns.toNat)]
  | .bytes b => .str (base64 b)
  | .range start stop => .obj [("start", start.toJson), ("end", stop.toJson)]

def elemsToJson : List Value → List Json
  | [] => []
  | v :: vs => v.toJson :: elemsToJson vs

def entriesToJson : List (String × Value) → List (String × Json)
  | [] => []
  | (k, v) :: es => (k, v.toJson) :: entriesToJson es

end

end Write

/-! ## Reading -/

section Read

variable [Formats] (order : IterOrder)

mutual

/-- The first variant that fits. A map read anew has an order of its own. -/
def Json.toValue : Json → Value
  | .null => .null
  | .bool b => .bool b
  | .int n => if -2 ^ 63 ≤ n ∧ n < 2 ^ 63 then .int (.ofInt n) else .float ⟨(Float.ofInt n).toBits⟩
  | .float f => .float (reparseFloat f)
  | .str s =>
    match parseDecimal s with
    | some d => .decimal d
    | none => .string s
  | .arr elems => .array (elemsToValue elems)
  | .obj entries => .object (order.iter (entriesToValue entries))

def elemsToValue : List Json → List Value
  | [] => []
  | j :: js => j.toValue :: elemsToValue js

def entriesToValue : List (String × Json) → List (String × Value)
  | [] => []
  | (k, j) :: es => (k, j.toValue) :: entriesToValue es

end

end Read

/-! ## Documents -/

/-- A map with distinct keys and well-formed values, in another order. -/
theorem wf_object_of_perm {entries entries' : List (String × Value)} (h : entries'.Perm entries)
    (hkeys : (entries.map Prod.fst).Nodup) (hwf : ∀ e ∈ entries, e.2.wf = true) :
    (Value.object entries').wf = true := by
  rw [Value.wf, Bool.and_eq_true, decide_eq_true_iff, Value.wfEntries_iff]
  refine ⟨((h.map Prod.fst).nodup_iff).mpr hkeys, ?_⟩
  intro e he
  exact hwf e (h.mem_iff.mp he)

variable [External] [Formats] (order : IterOrder)

/-- A value written and read again. -/
def Value.reread (v : Value) : Value := v.toJson.toValue order

theorem entriesToValue_toJson (entries : List (String × Value)) :
    entriesToValue order (entriesToJson entries) = entries.map fun e => (e.1, e.2.reread order) := by
  induction entries with
  | nil => rfl
  | cons e entries ih =>
    obtain ⟨k, v⟩ := e
    simp only [entriesToJson, entriesToValue, ih, List.map_cons, Value.reread]

theorem elemsToValue_toJson (elems : List Value) :
    elemsToValue order (elemsToJson elems) = elems.map (Value.reread order) := by
  induction elems with
  | nil => rfl
  | cons v elems ih => simp only [elemsToJson, elemsToValue, ih, List.map_cons, Value.reread]

omit [External] in
theorem wf_toValue_str (s : String) : ((Json.str s).toValue order).wf = true := by
  rw [Json.toValue]
  split <;> rfl

omit [External] in
theorem wf_toValue_int (n : Int) : ((Json.int n).toValue order).wf = true := by
  rw [Json.toValue]
  split <;> rfl

theorem Value.reread_wf {v : Value} (h : v.wf = true) : (v.reread order).wf = true := by
  induction v with
  | array elems ih =>
    rw [Value.wf, Value.wfElems_iff] at h
    show (Value.array (elemsToValue order (elemsToJson elems))).wf = true
    rw [elemsToValue_toJson, Value.wf, Value.wfElems_iff]
    intro v hv
    obtain ⟨w, hw, rfl⟩ := List.mem_map.mp hv
    exact ih w hw (h w hw)
  | object entries ih =>
    rw [Value.wf, Bool.and_eq_true, decide_eq_true_iff, Value.wfEntries_iff] at h
    refine wf_object_of_perm (order.perm _) ?_ ?_
    · rw [entriesToValue_toJson, List.map_map]
      exact h.1
    · intro e he
      rw [entriesToValue_toJson] at he
      obtain ⟨e', he', rfl⟩ := List.mem_map.mp he
      exact ih e' he' (h.2 e' he')
  | range start stop ihs ihe =>
    rw [Value.wf, Bool.and_eq_true] at h
    refine wf_object_of_perm (order.perm _) (show ["start", "end"].Nodup by decide) ?_
    intro e he
    rcases List.mem_cons.mp he with rfl | he
    · exact ihs h.1
    · rw [List.mem_singleton.mp he]
      exact ihe h.2
  | duration ns =>
    have hnanos := wf_toValue_int order ns.toNat
    rw [Value.reread, Value.toJson, Json.toValue]
    generalize Json.int ns.toNat = nanos at hnanos ⊢
    refine wf_object_of_perm (order.perm _) (show ["_type", "nanos"].Nodup by decide) ?_
    intro e he
    rcases List.mem_cons.mp he with rfl | he
    · exact wf_toValue_str order "duration"
    · rw [List.mem_singleton.mp he]
      exact hnanos
  | null => rfl
  | bool b => rfl
  | int n => exact wf_toValue_int order n.toInt
  | float f =>
    rw [Value.reread, Value.toJson]
    split <;> rfl
  | decimal d => exact wf_toValue_str order (External.decimalToString d)
  | string s => exact wf_toValue_str order s
  | reference id => exact wf_toValue_str order id
  | datetime ms =>
    rw [Value.reread, Value.toJson]
    split
    · exact wf_toValue_str order _
    · exact wf_toValue_int order ms.toInt
  | bytes b => exact wf_toValue_str order (base64 b)

/-- A document written and read again. -/
def Document.reread (d : Document) : Document where
  id := d.id
  fields := order.iter (d.fields.map fun e => (e.1, e.2.reread order))
  wf := by
    have hwf := d.wf
    rw [Value.wf, Bool.and_eq_true, decide_eq_true_iff, Value.wfEntries_iff] at hwf
    refine wf_object_of_perm (order.perm _) ?_ ?_
    · rw [List.map_map]
      exact hwf.1
    · intro e he
      obtain ⟨e', he', rfl⟩ := List.mem_map.mp he
      exact Value.reread_wf order (hwf.2 e' he')

end StellarDb
