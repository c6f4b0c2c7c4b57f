import StellarDb.Schema.Collection
import StellarDb.Document

/-!
# StellarDb — document validation (`schema/validate.rs`, `util/suggestions.rs`)

`validateDocument` checks the fields of a document against the fields of a schema and fills in
the defaults of those that are missing, in nested objects as well. Objects in arrays, ranges and
unions are checked by the same function, but what it fills in there is thrown away.
-/

namespace StellarDb

open Keyspaces Entries

/-! ## Suggestions -/

/-- One row of the distance table: `left` is the entry before. -/
def levenshteinRow (c : Char) : Nat → List Nat → List Char → List Nat
  | left, p :: q :: prev, b :: bs =>
    let next := min (min (q + 1) (left + 1)) (p + if c = b then 0 else 1)
    next :: levenshteinRow c next (q :: prev) bs
  | _, _, _ => []

def levenshtein (a b : String) : Nat :=
  let step (row : List Nat × Nat) (c : Char) : List Nat × Nat :=
    ((row.2 + 1) :: levenshteinRow c (row.2 + 1) row.1 b.toList, row.2 + 1)
  (a.toList.foldl step (List.range (b.length + 1), 0)).1.getLastD 0

/-- Prefixes first, then what is at most two edits away. -/
def findSimilar (needle : String) (candidates : List String) (maxResults : Nat) : List String :=
  let needleLower := needle.toLower
  let scored := candidates.filterMap fun candidate =>
    let candidateLower := candidate.toLower
    if needleLower.toList.isPrefixOf candidateLower.toList ||
        candidateLower.toList.isPrefixOf needleLower.toList then
      some (candidate, 0)
    else
      let distance := levenshtein needleLower candidateLower
      if distance ≤ 2 && distance < (utf8 needleLower).length then some (candidate, distance)
      else none
  ((scored.mergeSort fun a b => a.2 ≤ b.2).take maxResults).map Prod.fst

/-! ## Errors -/

/-- The errors of `BindError` that documents give rise to. -/
inductive FieldError where
  | unknownField (collection field : String) (suggestions : List String)
  | typeMismatch (field expected got : String)
  | requiredFieldMissing (collection field : String)
  | requiredFieldNull (collection field : String)
  | nestedError (path : String) (error : FieldError)
  | arrayElementError (field : String) (index : Nat) (error : FieldError)

mutual

def formatType : FieldType → String
  | .string => "String"
  | .int => "Int"
  | .float => "Float"
  | .decimal => "Decimal"
  | .bool => "Bool"
  | .datetime => "Datetime"
  | .duration => "Duration"
  | .bytes => "Bytes"
  | .object _ _ => "Object"
  | .array inner => "Array<" ++ formatType inner ++ ">"
  | .anyArray => "Array"
  | .reference (some collection) => "Reference<" ++ collection ++ ">"
  | .reference none => "Reference"
  | .any => "Any"
  | .range inner => "Range<" ++ formatType inner ++ ">"
  | .union types => " | ".intercalate (formatTypes types)

def formatTypes : List FieldType → List String
  | [] => []
  | t :: types => formatType t :: formatTypes types

end

def formatValueType : Value → String
  | .null => "Null"
  | .bool _ => "Bool"
  | .int _ => "Int"
  | .float _ => "Float"
  | .decimal _ => "Decimal"
  | .string _ => "String"
  | .array _ => "Array"
  | .object _ => "Object"
  | .reference _ => "Reference"
  | .datetime _ => "Datetime"
  | .duration _ => "Duration"
  | .bytes _ => "Bytes"
  | .range _ _ => "Range"

def typeMismatch (name : String) (expected : FieldType) (value : Value) : FieldError :=
  .typeMismatch name (formatType expected) (formatValueType value)

/-! ## Fields -/

namespace FieldDef

def fieldType : FieldDef → FieldType
  | .mk _ fieldType _ _ => fieldType

def required : FieldDef → Bool
  | .mk _ _ required _ => required

def default : FieldDef → Option DefaultValue
  | .mk _ _ _ default => default

end FieldDef

/-- What is reported for the field of an object. -/
structure ErrorStyle where
  requiredNull : FieldDef → FieldError
  requiredMissing : FieldDef → FieldError
  wrap : FieldError → FieldError

/-- Fields of a nested object. -/
def ErrorStyle.nested (parent : String) : ErrorStyle where
  requiredNull field :=
    .nestedError parent (.typeMismatch field.name (formatType field.fieldType) "Null")
  requiredMissing field :=
    .nestedError parent (.typeMismatch field.name (formatType field.fieldType) "missing")
  wrap e := .nestedError parent e

/-- Fields of a document. -/
def ErrorStyle.document (collection : String) : ErrorStyle where
  requiredNull field := .requiredFieldNull collection field.name
  requiredMissing field := .requiredFieldMissing collection field.name
  wrap e := e

/-- A default as a value; `now` is the clock. -/
def defaultToValue (now : Int64) : DefaultValue → Value
  | .null => .null
  | .bool b => .bool b
  | .int n => .int (Int64.ofInt n)
  | .float f => .float f
  | .string s => .string s
  | .now => .datetime now

/-- The first field that no definition knows. -/
def findUnknown (defs : List FieldDef) (fields : List (String × Value)) : Option String :=
  (fields.find? fun e => !(defs.map (·.name)).contains e.1).map Prod.fst

/-- In strict mode, unknown fields of a nested object are refused. -/
def checkKnown (parent : String) (defs : List FieldDef) (mode : SchemaMode)
    (fields : List (String × Value)) : Except FieldError Unit :=
  if mode = .strict then
    match findUnknown defs fields with
    | some field => .error (.nestedError parent (.unknownField parent field
        (findSimilar field (defs.map (·.name)) 3)))
    | none => .ok ()
  else .ok ()

/-- The types that are checked without looking inside. -/
def acceptsPlain : FieldType → Value → Bool
  | .any, _ => true
  | .string, .string _ => true
  | .int, .int _ => true
  | .float, .float _ => true
  | .float, .int _ => true
  | .decimal, .decimal _ => true
  | .decimal, .int _ => true
  | .decimal, .float _ => true
  | .bool, .bool _ => true
  | .datetime, .datetime _ => true
  | .datetime, .string _ => true
  | .datetime, .int _ => true
  | .duration, .duration _ => true
  | .bytes, .bytes _ => true
  | .anyArray, .array _ => true
  | _, _ => false

/-- The elements of an array one after the other, up to the first error. -/
def checkElements (field : String) (check : Value → Except FieldError Unit) :
    Nat → List Value → Except FieldError Unit
  | _, [] => .ok ()
  | index, element :: elements =>
    match check element with
    | .ok () => checkElements field check (index + 1) elements
    | .error e => .error (.arrayElementError field index e)

mutual

def validateFieldType (now : Int64) : FieldType → String → Value → Except FieldError Unit
  | .object defs mode, name, value =>
    match value with
    | .null => .ok ()
    | .object fields =>
      match checkKnown name defs mode fields with
      | .error e => .error e
      | .ok () =>
        match applyDefs now (.nested name) fields defs fields with
        | .error e => .error e
        | .ok _ => .ok ()
    | value => .error (typeMismatch name (.object defs mode) value)
  | .array inner, name, value =>
    match value with
    | .null => .ok ()
    | .array elements => checkElements name (validateFieldType now inner "element") 0 elements
    | value => .error (typeMismatch name (.array inner) value)
  | .reference expected, name, value =>
    match value with
    | .null => .ok ()
    | .reference id =>
      match expected with
      | some collection =>
        if (collection ++ ":").toList.isPrefixOf id.toList then .ok ()
        else .error (.typeMismatch name ("Reference<" ++ collection ++ ">")
          ("Reference(" ++ id ++ ")"))
      | none => .ok ()
    | value => .error (typeMismatch name (.reference expected) value)
  | .range elem, name, value =>
    match value with
    | .null => .ok ()
    | .range start stop =>
      match validateFieldType now elem name start with
      | .ok () => validateFieldType now elem name stop
      | .error e => .error e
    | value => .error (typeMismatch name (.range elem) value)
  | .union types, name, value =>
    match value with
    | .null => .ok ()
    | value =>
      if matchesAny now types name value then .ok ()
      else .error (typeMismatch name (.union types) value)
  | t, name, value =>
    match value with
    | .null => .ok ()
    | value => if acceptsPlain t value then .ok () else .error (typeMismatch name t value)

/-- Whether some type of a union accepts a value. -/
def matchesAny (now : Int64) : List FieldType → String → Value → Bool
  | [], _, _ => false
  | t :: types, name, value =>
    (validateFieldType now t name value).toBool || matchesAny now types name value

/-- The definitions of an object one after the other; `result` has the fields so far. -/
def applyDefs (now : Int64) (errors : ErrorStyle) (fields : List (String × Value)) :
    List FieldDef → List (String × Value) → Except FieldError (List (String × Value))
  | [], result => .ok result
  | .mk name fieldType required default :: defs, result =>
    match fields.lookup name with
    | some .null =>
      if required then .error (errors.requiredNull (.mk name fieldType required default))
      else applyDefs now errors fields defs result
    | some value =>
      match fieldType, value with
      | .object nested mode, .object nestedFields =>
        match checkKnown name nested mode nestedFields with
        | .error e => .error e
        | .ok () =>
          match applyDefs now (.nested name) nestedFields nested nestedFields with
          | .error e => .error e
          | .ok validated =>
            applyDefs now errors fields defs (setEntry name (.object validated) result)
      | fieldType, value =>
        match validateFieldType now fieldType name value with
        | .error e => .error (errors.wrap e)
        | .ok () => applyDefs now errors fields defs result
    | none =>
      match default with
      | some d => applyDefs now errors fields defs (setEntry name (defaultToValue now d) result)
      | none =>
        if required then .error (errors.requiredMissing (.mk name fieldType required default))
        else applyDefs now errors fields defs result

end

def validateAndDefaultObjectFields (now : Int64) (parent : String)
    (fields : List (String × Value)) (defs : List FieldDef) (mode : SchemaMode) :
    Except FieldError (List (String × Value)) :=
  match checkKnown parent defs mode fields with
  | .error e => .error e
  | .ok () => applyDefs now (.nested parent) fields defs fields

/-- The fields of a document with the defaults applied. Only then are unknown fields refused; the
`id` is no field of its own. -/
def validateDocument (now : Int64) (schema : CollectionSchema) (fields : List (String × Value)) :
    Except FieldError (List (String × Value)) :=
  match applyDefs now (.document schema.name) fields schema.fields fields with
  | .error e => .error e
  | .ok result =>
    if schema.mode = .strict then
      match findUnknown schema.fields (fields.filter (·.1 ≠ "id")) with
      | some field => .error (.unknownField schema.name field
          (findSimilar field (schema.fields.map (·.name)) 3))
      | none => .ok result
    else .ok result

/-! ## Accepted definitions -/

mutual

/-- No default in a type is null. -/
def FieldType.noNullDefaults : FieldType → Bool
  | .object defs _ => noNullDefaults defs
  | .array inner => inner.noNullDefaults
  | .range elem => elem.noNullDefaults
  | .union types => noNullDefaultsAny types
  | _ => true

def noNullDefaults : List FieldDef → Bool
  | [] => true
  | .mk _ fieldType _ default :: defs =>
    decide (default ≠ some .null) && fieldType.noNullDefaults && noNullDefaults defs

def noNullDefaultsAny : List FieldType → Bool
  | [] => true
  | t :: types => t.noNullDefaults && noNullDefaultsAny types

end

/-- The definitions pass the checks of `validate_schema`, and no default is null. -/
structure Accepted (defs : List FieldDef) : Prop where
  names : ∃ collection, validateFieldsNoDuplicates collection [] defs = .ok ()
  defaults : ∃ collection, validateDefaultTypes collection defs = .ok ()
  noNull : noNullDefaults defs = true

theorem names_of_noDuplicates {collection : String} {defs : List FieldDef} {seen : List String}
    (h : validateFieldsNoDuplicates collection seen defs = .ok ()) :
    (defs.map (·.name)).Nodup ∧ (∀ field ∈ defs, field.name ∉ seen) ∧
      ∀ field ∈ defs, nestedNoDuplicates collection field.fieldType = .ok () := by
  induction defs generalizing seen with
  | nil => exact ⟨List.nodup_nil, nofun, nofun⟩
  | cons field defs ih =>
    obtain ⟨name, fieldType, required, default⟩ := field
    unfold validateFieldsNoDuplicates at h
    split at h
    · cases h
    · next hname =>
      obtain ⟨⟨⟩, hnested, hrest⟩ := bind_eq_ok_iff.mp h
      obtain ⟨hnodup, hseen, hall⟩ := ih hrest
      refine ⟨List.nodup_cons.mpr ⟨fun hmem => ?_, hnodup⟩,
        List.forall_mem_cons.mpr ⟨hname, fun g hg hgs => ?_⟩,
        List.forall_mem_cons.mpr ⟨hnested, hall⟩⟩
      · obtain ⟨g, hg, hgname⟩ := List.mem_map.mp hmem
        exact hseen g hg (hgname ▸ List.mem_cons_self)
      · exact hseen g hg (List.mem_cons_of_mem _ hgs)

theorem fits_of_defaultTypes {collection : String} {defs : List FieldDef}
    (h : validateDefaultTypes collection defs = .ok ()) :
    ∀ field ∈ defs, (∀ d, field.default = some d →
        defaultFits field.fieldType field.required d = true) ∧
      nestedDefaultTypes collection field.fieldType = .ok () := by
  induction defs with
  | nil => exact nofun
  | cons field defs ih =>
    obtain ⟨name, fieldType, required, default⟩ := field
    unfold validateDefaultTypes at h
    cases default with
    | none =>
      obtain ⟨⟨⟩, hnested, hrest⟩ := bind_eq_ok_iff.mp h
      exact List.forall_mem_cons.mpr ⟨⟨nofun, hnested⟩, ih hrest⟩
    | some d =>
      simp only at h
      split at h
      · next hfits =>
        obtain ⟨⟨⟩, hnested, hrest⟩ := bind_eq_ok_iff.mp h
        exact List.forall_mem_cons.mpr
          ⟨⟨fun d' hd' => Option.some.inj hd' ▸ hfits, hnested⟩, ih hrest⟩
      · cases h

theorem noNull_of_mem {defs : List FieldDef} (h : noNullDefaults defs = true) :
    ∀ field ∈ defs, field.default ≠ some .null ∧ field.fieldType.noNullDefaults = true := by
  induction defs with
  | nil => exact nofun
  | cons field defs ih =>
    obtain ⟨name, fieldType, required, default⟩ := field
    unfold noNullDefaults at h
    rw [Bool.and_eq_true, Bool.and_eq_true, decide_eq_true_eq] at h
    exact List.forall_mem_cons.mpr ⟨h.1, ih h.2⟩

namespace Accepted

variable {defs : List FieldDef} (h : Accepted defs)
include h

theorem nodup : (defs.map (·.name)).Nodup := by
  obtain ⟨collection, hnames⟩ := h.names
  exact (names_of_noDuplicates hnames).1

theorem fits {field : FieldDef} (hf : field ∈ defs) {d : DefaultValue}
    (hd : field.default = some d) :
    defaultFits field.fieldType field.required d = true ∧ d ≠ .null := by
  obtain ⟨collection, hdefaults⟩ := h.defaults
  refine ⟨(fits_of_defaultTypes hdefaults field hf).1 d hd, fun hnull => ?_⟩
  exact (noNull_of_mem h.noNull field hf).1 (hnull ▸ hd)

theorem nested {field : FieldDef} (hf : field ∈ defs) {inner : List FieldDef} {mode : SchemaMode}
    (ht : field.fieldType = .object inner mode) : Accepted inner := by
  obtain ⟨collection, hnames⟩ := h.names
  obtain ⟨collection', hdefaults⟩ := h.defaults
  have hnames' := (names_of_noDuplicates hnames).2.2 field hf
  have hdefaults' := (fits_of_defaultTypes hdefaults field hf).2
  have hnull' := (noNull_of_mem h.noNull field hf).2
  rw [ht] at hnames' hdefaults' hnull'
  exact ⟨⟨collection, hnames'⟩, ⟨collection', hdefaults'⟩, hnull'⟩

end Accepted

theorem accepted_of_validateSchema {schema : CollectionSchema}
    (h : validateSchema schema = .ok ()) (hnull : noNullDefaults schema.fields = true) :
    Accepted schema.fields := by
  unfold validateSchema at h
  obtain ⟨⟨⟩, -, h⟩ := bind_eq_ok_iff.mp h
  obtain ⟨⟨⟩, hnames, h⟩ := bind_eq_ok_iff.mp h
  obtain ⟨⟨⟩, hdefaults, -⟩ := bind_eq_ok_iff.mp h
  exact ⟨⟨_, hnames⟩, ⟨_, hdefaults⟩, hnull⟩

/-! ## One definition -/

/-- What one definition makes of a field: an error, a new value, or nothing to change. -/
def fieldStep (now : Int64) (errors : ErrorStyle) (field : FieldDef) :
    Option Value → Except FieldError (Option Value)
  | some .null => if field.required then .error (errors.requiredNull field) else .ok none
  | some value =>
    match field.fieldType, value with
    | .object nested mode, .object nestedFields =>
      (validateAndDefaultObjectFields now field.name nestedFields nested mode).map
        fun validated => some (.object validated)
    | fieldType, value =>
      match validateFieldType now fieldType field.name value with
      | .error e => .error (errors.wrap e)
      | .ok () => .ok none
  | none =>
    match field.default with
    | some d => .ok (some (defaultToValue now d))
    | none => if field.required then .error (errors.requiredMissing field) else .ok none

/-- Set a field if there is something to change. -/
def setField (name : String) (change : Option Value) (result : List (String × Value)) :
    List (String × Value) :=
  match change with
  | some value => setEntry name value result
  | none => result

theorem applyDefs_cons (now : Int64) (errors : ErrorStyle) (fields : List (String × Value))
    (field : FieldDef) (defs : List FieldDef) (result : List (String × Value)) :
    applyDefs now errors fields (field :: defs) result =
      match fieldStep now errors field (fields.lookup field.name) with
      | .error e => .error e
      | .ok change => applyDefs now errors fields defs (setField field.name change result) := by
  obtain ⟨name, fieldType, required, default⟩ := field
  show applyDefs now errors fields (.mk name fieldType required default :: defs) result =
    match fieldStep now errors (.mk name fieldType required default) (fields.lookup name) with
    | .error e => .error e
    | .ok change => applyDefs now errors fields defs (setField name change result)
  rw [applyDefs.eq_def]
  simp only
  cases fields.lookup name with
  | none => cases default <;> cases required <;> rfl
  | some value =>
    cases value with
    | null => cases required <;> rfl
    | object nestedFields =>
      cases fieldType with
      | object nested mode =>
        simp only [fieldStep, FieldDef.fieldType, FieldDef.name, validateAndDefaultObjectFields]
        cases checkKnown name nested mode nestedFields with
        | error e => rfl
        | ok _ => cases applyDefs now (.nested name) nestedFields nested nestedFields <;> rfl
      | _ =>
        simp only [fieldStep, FieldDef.fieldType, FieldDef.name]
        split <;> rfl
    | _ =>
      simp only [fieldStep, FieldDef.fieldType, FieldDef.name]
      cases validateFieldType now fieldType name _ <;> rfl

/-- A value is only checked, unless it is null or an object for a nested object. -/
theorem fieldStep_checked (now : Int64) (errors : ErrorStyle) (field : FieldDef) {value : Value}
    (hnull : value ≠ .null)
    (hobject : ∀ nested mode fields, field.fieldType = .object nested mode →
      value ≠ .object fields) :
    fieldStep now errors field (some value) =
      match validateFieldType now field.fieldType field.name value with
      | .error e => .error (errors.wrap e)
      | .ok () => .ok none := by
  obtain ⟨name, fieldType, required, default⟩ := field
  cases value with
  | null => exact absurd rfl hnull
  | object fields =>
    cases fieldType with
    | object nested mode => exact absurd rfl (hobject nested mode fields rfl)
    | _ => rfl
  | _ => simp only [fieldStep]

theorem fieldStep_object (now : Int64) (errors : ErrorStyle) {field : FieldDef}
    {nested : List FieldDef} {mode : SchemaMode} (ht : field.fieldType = .object nested mode)
    (fields : List (String × Value)) :
    fieldStep now errors field (some (.object fields)) =
      (validateAndDefaultObjectFields now field.name fields nested mode).map
        fun validated => some (.object validated) := by
  simp only [fieldStep, ht]

/-! ## The clock

The clock decides which defaults are filled in, not whether a value is accepted. -/

/-- An outcome without its result. -/
def outcome {α : Type} (x : Except FieldError α) : Except FieldError Unit := x.map fun _ => ()

section Clock

variable {now now' : Int64}

theorem ok_of_outcome {α β : Type} {x : Except FieldError α} {y : Except FieldError β}
    (h : outcome x = outcome y) :
    (∃ e, x = .error e ∧ y = .error e) ∨ ∃ a b, x = .ok a ∧ y = .ok b := by
  cases x with
  | error e =>
    cases y with
    | error e' => exact Or.inl ⟨e, rfl, congrArg _ (Except.error.inj h).symm⟩
    | ok b => cases h
  | ok a =>
    cases y with
    | error e' => cases h
    | ok b => exact Or.inr ⟨a, b, rfl, rfl⟩

theorem applyDefs_cons_clock {errors : ErrorStyle} {fields : List (String × Value)}
    {field : FieldDef} {defs : List FieldDef} {result result' : List (String × Value)}
    (hstep : outcome (fieldStep now errors field (fields.lookup field.name))
      = outcome (fieldStep now' errors field (fields.lookup field.name)))
    (hrest : ∀ result result', outcome (applyDefs now errors fields defs result)
      = outcome (applyDefs now' errors fields defs result')) :
    outcome (applyDefs now errors fields (field :: defs) result)
      = outcome (applyDefs now' errors fields (field :: defs) result') := by
  rw [applyDefs_cons, applyDefs_cons]
  rcases ok_of_outcome hstep with ⟨e, h, h'⟩ | ⟨change, change', h, h'⟩
  · rw [h, h']
  · rw [h, h']
    exact hrest _ _

theorem fieldStep_clock {errors : ErrorStyle} {field : FieldDef} (value : Option Value)
    (htype : ∀ v, validateFieldType now field.fieldType field.name v
      = validateFieldType now' field.fieldType field.name v)
    (hnested : ∀ nested mode fields, field.fieldType = .object nested mode →
      outcome (applyDefs now (.nested field.name) fields nested fields)
        = outcome (applyDefs now' (.nested field.name) fields nested fields)) :
    outcome (fieldStep now errors field value) = outcome (fieldStep now' errors field value) := by
  obtain ⟨name, fieldType, required, default⟩ := field
  have hvalue : ∀ v, validateFieldType now fieldType name v
      = validateFieldType now' fieldType name v := htype
  cases value with
  | none => cases default <;> rfl
  | some value =>
    cases value with
    | null => rfl
    | object fields =>
      cases fieldType with
      | object nested mode =>
        have h : outcome (applyDefs now (.nested name) fields nested fields)
            = outcome (applyDefs now' (.nested name) fields nested fields) :=
          hnested nested mode fields rfl
        simp only [fieldStep, FieldDef.fieldType, FieldDef.name, validateAndDefaultObjectFields]
        cases checkKnown name nested mode fields with
        | error e => rfl
        | ok _ =>
          rcases ok_of_outcome h with ⟨e, h, h'⟩ | ⟨out, out', h, h'⟩
          · simp only [h, h']
          · simp only [h, h']
            rfl
      | _ =>
        simp only [fieldStep, FieldDef.fieldType, FieldDef.name]
        rw [hvalue]
    | _ =>
      simp only [fieldStep, FieldDef.fieldType, FieldDef.name]
      rw [hvalue]

mutual

theorem validateFieldType_clock : ∀ (t : FieldType) (name : String) (value : Value),
    validateFieldType now t name value = validateFieldType now' t name value
  | .object defs mode, name, value => by
    cases value with
    | object fields =>
      have hdefs := applyDefs_clock defs (.nested name) fields fields fields
      unfold validateFieldType
      simp only
      cases checkKnown name defs mode fields with
      | error e => rfl
      | ok _ =>
        simp only
        rcases ok_of_outcome hdefs with ⟨e, h, h'⟩ | ⟨out, out', h, h'⟩ <;> rw [h, h']
    | _ => rfl
  | .array inner, name, value => by
    cases value with
    | array elements =>
      show checkElements name (validateFieldType now inner "element") 0 elements
        = checkElements name (validateFieldType now' inner "element") 0 elements
      rw [funext (validateFieldType_clock inner "element")]
    | _ => rfl
  | .reference expected, name, value => by cases value <;> rfl
  | .range elem, name, value => by
    cases value with
    | range start stop =>
      unfold validateFieldType
      simp only [validateFieldType_clock elem name start, validateFieldType_clock elem name stop]
    | _ => rfl
  | .union types, name, value => by
    unfold validateFieldType
    simp only [matchesAny_clock types name]
  | .string, _, value => by cases value <;> rfl
  | .int, _, value => by cases value <;> rfl
  | .float, _, value => by cases value <;> rfl
  | .decimal, _, value => by cases value <;> rfl
  | .bool, _, value => by cases value <;> rfl
  | .datetime, _, value => by cases value <;> rfl
  | .duration, _, value => by cases value <;> rfl
  | .bytes, _, value => by cases value <;> rfl
  | .anyArray, _, value => by cases value <;> rfl
  | .any, _, value => by cases value <;> rfl

theorem matchesAny_clock : ∀ (types : List FieldType) (name : String) (value : Value),
    matchesAny now types name value = matchesAny now' types name value
  | [], _, _ => rfl
  | t :: types, name, value => by
    unfold matchesAny
    rw [validateFieldType_clock t name value, matchesAny_clock types name value]

theorem applyDefs_clock : ∀ (defs : List FieldDef) (errors : ErrorStyle)
    (fields result result' : List (String × Value)),
    outcome (applyDefs now errors fields defs result)
      = outcome (applyDefs now' errors fields defs result')
  | [], _, _, _, _ => rfl
  | .mk name fieldType required default :: defs, errors, fields, result, result' => by
    refine applyDefs_cons_clock (fieldStep_clock _ (fun v => ?_) fun nested mode fields h => ?_)
      (applyDefs_clock defs errors fields)
    · exact validateFieldType_clock fieldType name v
    · cases fieldType with
      | object nested mode =>
        cases h
        exact applyDefs_clock nested (.nested name) fields fields fields
      | _ => cases h

end

end Clock

/-! ## Runs over the definitions -/

/-- Each defined field has been treated by its definition, the others are as before. -/
structure Filled (now : Int64) (errors : ErrorStyle) (defs : List FieldDef)
    (fields out : List (String × Value)) : Prop where
  defined : ∀ field ∈ defs, ∃ change,
    fieldStep now errors field (fields.lookup field.name) = .ok change ∧
      out.lookup field.name = change.or (fields.lookup field.name)
  others : ∀ key, key ∉ defs.map (·.name) → out.lookup key = fields.lookup key

theorem lookup_setField (name : String) (change : Option Value) (result : List (String × Value))
    (key : String) : (setField name change result).lookup key
      = if name = key then change.or (result.lookup key) else result.lookup key := by
  cases change with
  | none =>
    show result.lookup key = _
    rw [Option.none_or, ite_self]
  | some value =>
    show (setEntry name value result).lookup key = _
    rw [lookup_setEntry, Option.some_or]

/-- One definition after the other, each leaves the fields of the later ones alone. -/
theorem applyDefs_lookup {now : Int64} {errors : ErrorStyle} {fields : List (String × Value)}
    {defs : List FieldDef} (hnodup : (defs.map (·.name)).Nodup) {result out : List (String × Value)}
    (h : applyDefs now errors fields defs result = .ok out) :
    (∀ field ∈ defs, ∃ change,
      fieldStep now errors field (fields.lookup field.name) = .ok change ∧
        out.lookup field.name = change.or (result.lookup field.name)) ∧
      ∀ key, key ∉ defs.map (·.name) → out.lookup key = result.lookup key := by
  induction defs generalizing result with
  | nil =>
    rw [applyDefs.eq_def] at h
    exact ⟨nofun, fun key _ => congrArg _ (Except.ok.inj h).symm⟩
  | cons field defs ih =>
    obtain ⟨hnot, hrest⟩ := List.nodup_cons.mp hnodup
    rw [applyDefs_cons] at h
    cases hstep : fieldStep now errors field (fields.lookup field.name) with
    | error e =>
      rw [hstep] at h
      cases h
    | ok change =>
      rw [hstep] at h
      obtain ⟨hdefined, hothers⟩ := ih hrest h
      refine ⟨List.forall_mem_cons.mpr ⟨⟨change, hstep, ?_⟩, fun g hg => ?_⟩, fun key hkey => ?_⟩
      · rw [hothers field.name hnot, lookup_setField, if_pos rfl]
      · obtain ⟨change', hstep', hout⟩ := hdefined g hg
        have hne : field.name ≠ g.name := fun heq => hnot (List.mem_map.mpr ⟨g, hg, heq.symm⟩)
        rw [lookup_setField, if_neg hne] at hout
        exact ⟨change', hstep', hout⟩
      · rw [List.map_cons, List.mem_cons, not_or] at hkey
        rw [hothers key hkey.2, lookup_setField, if_neg (Ne.symm hkey.1)]

theorem filled_of_applyDefs {now : Int64} {errors : ErrorStyle} {fields : List (String × Value)}
    {defs : List FieldDef} (hnodup : (defs.map (·.name)).Nodup) {out : List (String × Value)}
    (h : applyDefs now errors fields defs fields = .ok out) :
    Filled now errors defs fields out := by
  obtain ⟨hdefined, hothers⟩ := applyDefs_lookup hnodup h
  exact ⟨hdefined, hothers⟩

/-- Nothing is left to change where every definition leaves its field alone. -/
theorem applyDefs_of_settled {now : Int64} {errors : ErrorStyle} {fields : List (String × Value)}
    {defs : List FieldDef}
    (h : ∀ field ∈ defs, ∃ change,
      fieldStep now errors field (fields.lookup field.name) = .ok change ∧
        change.or (fields.lookup field.name) = fields.lookup field.name) :
    applyDefs now errors fields defs fields = .ok fields := by
  induction defs with
  | nil => rfl
  | cons field defs ih =>
    obtain ⟨⟨change, hstep, hsame⟩, hrest⟩ := List.forall_mem_cons.mp h
    have hset : setField field.name change fields = fields := by
      cases change with
      | none => rfl
      | some value => exact setEntry_self hsame.symm
    rw [applyDefs_cons, hstep]
    show applyDefs now errors fields defs (setField field.name change fields) = _
    rw [hset, ih hrest]

end StellarDb
