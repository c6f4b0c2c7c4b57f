import StellarDb.Schema.Validate

/-!
# StellarDb — what validation adds

Validating a document that has been validated changes nothing (`validateDocument_again`): every
default passes the check of its own field, and a nested object comes out settled. What is new in
the outcome is a default (`addsDefaults_of_applyDefs`), and everything else is as it was
(`agreesWith_of_applyDefs`).

Required fields are another matter. Defaults are filled in for the fields of the document and of
objects nested in objects, while the objects in arrays, ranges and unions only pass the check as
if they had them. `wellFilled_iff_supplied` says which documents come out complete.
-/

namespace StellarDb

open Keyspaces Entries

/-! ## Idempotence -/

/-- What holds of definitions whose nested definitions satisfy it holds of all. -/
theorem defs_induction {P : List FieldDef → Prop}
    (step : ∀ defs, (∀ field ∈ defs, ∀ nested mode, field.fieldType = .object nested mode →
      P nested) → P defs) (defs : List FieldDef) : P defs := by
  induction hn : sizeOf defs using Nat.strong_induction_on generalizing defs with
  | _ n ih =>
    refine step defs fun field hf nested mode ht => ih (sizeOf nested) ?_ nested rfl
    have hmem := List.sizeOf_lt_of_mem hf
    obtain ⟨name, fieldType, required, default⟩ := field
    cases ht
    simp only [FieldDef.mk.sizeOf_spec, FieldType.object.sizeOf_spec] at hmem
    omega

/-- Every default that fits its field passes the check of the field. -/
theorem validateFieldType_default (now now' : Int64) {t : FieldType} {required : Bool}
    {d : DefaultValue} (hfits : defaultFits t required d = true) (name : String) :
    validateFieldType now' t name (defaultToValue now d) = .ok () := by
  cases t <;> cases d <;> first | rfl | cases hfits

theorem defaultToValue_ne_null (now : Int64) {d : DefaultValue} (h : d ≠ .null) :
    defaultToValue now d ≠ .null := by
  cases d <;> first | exact absurd rfl h | nofun

theorem defaultToValue_ne_object (now : Int64) (d : DefaultValue) (fields : List (String × Value)) :
    defaultToValue now d ≠ .object fields := by
  cases d <;> nofun

theorem findUnknown_eq_none_iff {defs : List FieldDef} {fields : List (String × Value)} :
    findUnknown defs fields = none ↔
      ∀ key ∈ fields.map Prod.fst, key ∈ defs.map (·.name) := by
  rw [findUnknown, Option.map_eq_none_iff, List.find?_eq_none, List.forall_mem_map]
  simp

theorem Filled.keys {now : Int64} {errors : ErrorStyle} {defs : List FieldDef}
    {fields out : List (String × Value)} (h : Filled now errors defs fields out) {key : String}
    (hkey : key ∈ out.map Prod.fst) : key ∈ fields.map Prod.fst ∨ key ∈ defs.map (·.name) := by
  by_cases hdef : key ∈ defs.map (·.name)
  · exact Or.inr hdef
  · refine Or.inl ?_
    have hsome : ∀ {es : List (String × Value)}, key ∈ es.map Prod.fst ↔ es.lookup key ≠ none := by
      intro es
      rw [← Option.isSome_iff_ne_none, List.lookup_isSome_iff, List.mem_map]
      exact exists_congr fun e => and_congr Iff.rfl (by rw [beq_iff_eq, eq_comm])
    rw [hsome, h.others key hdef, ← hsome] at hkey
    exact hkey

theorem checkKnown_filled {now : Int64} {errors : ErrorStyle} {defs : List FieldDef}
    {mode : SchemaMode} {parent parent' : String} {fields out : List (String × Value)}
    (h : Filled now errors defs fields out) (hknown : checkKnown parent defs mode fields = .ok ()) :
    checkKnown parent' defs mode out = .ok () := by
  unfold checkKnown at hknown ⊢
  split
  · next hmode =>
    rw [if_pos hmode] at hknown
    cases hunknown : findUnknown defs fields with
    | some field =>
      rw [hunknown] at hknown
      cases hknown
    | none =>
      have hout : findUnknown defs out = none := findUnknown_eq_none_iff.mpr fun key hkey =>
        (h.keys hkey).elim (findUnknown_eq_none_iff.mp hunknown key) id
      rw [hout]
  · rfl

/-- After a definition has treated its field, it leaves it alone. -/
theorem fieldStep_settled {now : Int64} {errors : ErrorStyle} {defs : List FieldDef}
    {field : FieldDef} (haccepted : Accepted defs) (hf : field ∈ defs)
    (hnested : ∀ nested mode fields validated, field.fieldType = .object nested mode →
      validateAndDefaultObjectFields now field.name fields nested mode = .ok validated →
      ∀ now', validateAndDefaultObjectFields now' field.name validated nested mode = .ok validated)
    {value change : Option Value} (h : fieldStep now errors field value = .ok change)
    (now' : Int64) (errors' : ErrorStyle) :
    ∃ change', fieldStep now' errors' field (change.or value) = .ok change' ∧
      change'.or (change.or value) = change.or value := by
  cases value with
  | none =>
    cases hd : field.default with
    | none =>
      simp only [fieldStep, hd] at h
      split at h
      · cases h
      · next hrequired =>
        cases h
        exact ⟨none, by simp only [Option.or_none, fieldStep, hd, if_neg hrequired], rfl⟩
    | some d =>
      simp only [fieldStep, hd] at h
      cases h
      obtain ⟨hfits, hnull⟩ := haccepted.fits hf hd
      refine ⟨none, ?_, rfl⟩
      rw [Option.or_none, fieldStep_checked _ _ _ (defaultToValue_ne_null now hnull)
        (fun _ _ fields _ => defaultToValue_ne_object now d fields),
        validateFieldType_default now now' hfits]
  | some value =>
    by_cases hnull : value = .null
    · subst hnull
      simp only [fieldStep] at h
      split at h
      · cases h
      · next hrequired =>
        cases h
        exact ⟨none, by simp only [Option.none_or, fieldStep, if_neg hrequired], rfl⟩
    · by_cases hobject : ∃ nested mode fields,
          field.fieldType = .object nested mode ∧ value = .object fields
      · obtain ⟨nested, mode, fields, ht, rfl⟩ := hobject
        rw [fieldStep_object now errors ht] at h
        cases hvalid : validateAndDefaultObjectFields now field.name fields nested mode with
        | error e =>
          rw [hvalid] at h
          cases h
        | ok validated =>
          rw [hvalid] at h
          cases h
          refine ⟨some (.object validated), ?_, rfl⟩
          rw [Option.some_or, fieldStep_object now' errors' ht,
            hnested nested mode fields validated ht hvalid now']
          rfl
      · have hchecked : ∀ nested mode fields, field.fieldType = .object nested mode →
            value ≠ .object fields :=
          fun nested mode fields ht hv => hobject ⟨nested, mode, fields, ht, hv⟩
        rw [fieldStep_checked now errors field hnull hchecked] at h
        split at h
        · cases h
        · next hvalid =>
          cases h
          have hclock : validateFieldType now' field.fieldType field.name value = .ok () :=
            (validateFieldType_clock _ _ _).trans hvalid
          refine ⟨none, ?_, rfl⟩
          rw [Option.none_or, fieldStep_checked now' errors' field hnull hchecked, hclock]

/-- Validating once more changes nothing, whatever the clock says. -/
theorem applyDefs_again {defs : List FieldDef} (haccepted : Accepted defs) :
    ∀ {now errors fields out}, applyDefs now errors fields defs fields = .ok out →
      ∀ now' errors', applyDefs now' errors' out defs out = .ok out := by
  induction defs using defs_induction with
  | step defs ih =>
    intro now errors fields out h now' errors'
    have hfilled := filled_of_applyDefs haccepted.nodup h
    refine applyDefs_of_settled fun field hf => ?_
    obtain ⟨change, hstep, hout⟩ := hfilled.defined field hf
    rw [hout]
    refine fieldStep_settled haccepted hf (fun nested mode fields validated ht hvalid now' => ?_)
      hstep now' errors'
    unfold validateAndDefaultObjectFields at hvalid ⊢
    split at hvalid
    · cases hvalid
    · next hknown =>
      have hfilled' := filled_of_applyDefs (haccepted.nested hf ht).nodup hvalid
      rw [checkKnown_filled hfilled' hknown]
      exact ih field hf nested mode ht (haccepted.nested hf ht) hvalid now' _

/-! ## Paths -/

/-- The value at a path of field names. -/
def valueAt (fields : List (String × Value)) : List String → Option Value
  | [] => none
  | [key] => fields.lookup key
  | key :: path =>
    match fields.lookup key with
    | some (.object nested) => valueAt nested path
    | _ => none

/-- The definition of the field at a path. -/
def defAt (defs : List FieldDef) : List String → Option FieldDef
  | [] => none
  | [key] => defs.find? (·.name = key)
  | key :: path =>
    match (defs.find? (·.name = key)).map (·.fieldType) with
    | some (FieldType.object nested _) => defAt nested path
    | _ => none

theorem valueAt_cons_cons (fields : List (String × Value)) (key key' : String)
    (path : List String) : valueAt fields (key :: key' :: path) =
      match fields.lookup key with
      | some (.object nested) => valueAt nested (key' :: path)
      | _ => none := rfl

theorem defAt_cons_cons (defs : List FieldDef) (key key' : String) (path : List String) :
    defAt defs (key :: key' :: path) =
      match (defs.find? (·.name = key)).map (·.fieldType) with
      | some (FieldType.object nested _) => defAt nested (key' :: path)
      | _ => none := rfl

/-- The same value, but that an object may have got more fields. -/
def SameButFields (v v' : Value) : Prop :=
  v = v' ∨ ∃ fields fields', v = .object fields ∧ v' = .object fields'

/-- What is at a path of the first is there in the second. -/
def AgreesWith (fields out : List (String × Value)) : Prop :=
  ∀ path v, valueAt fields path = some v → ∃ v', valueAt out path = some v' ∧ SameButFields v v'

/-- What is at a path of the second only is the default of that field. -/
def AddsDefaults (now : Int64) (defs : List FieldDef) (fields out : List (String × Value)) : Prop :=
  ∀ path v', valueAt out path = some v' → valueAt fields path = none →
    ∃ field d, defAt defs path = some field ∧ field.default = some d ∧ v' = defaultToValue now d

/-- How one field may differ after its definitions. -/
inductive FieldChange (now : Int64) (field : FieldDef) : Option Value → Option Value → Prop where
  | same (value : Option Value) : FieldChange now field value value
  | default {d : DefaultValue} (hd : field.default = some d) :
    FieldChange now field none (some (defaultToValue now d))
  | nested {nested : List FieldDef} {mode : SchemaMode} {fields out : List (String × Value)}
    {errors : ErrorStyle} (ht : field.fieldType = .object nested mode)
    (h : applyDefs now errors fields nested fields = .ok out) :
    FieldChange now field (some (.object fields)) (some (.object out))

theorem fieldChange_of_step {now : Int64} {errors : ErrorStyle} {field : FieldDef}
    {value change : Option Value} (h : fieldStep now errors field value = .ok change) :
    FieldChange now field value (change.or value) := by
  cases value with
  | none =>
    cases hd : field.default with
    | none =>
      simp only [fieldStep, hd] at h
      split at h <;> cases h
      exact .same none
    | some d =>
      simp only [fieldStep, hd] at h
      cases h
      exact .default hd
  | some value =>
    by_cases hobject : ∃ nested mode fields,
        field.fieldType = .object nested mode ∧ value = .object fields
    · obtain ⟨nested, mode, fields, ht, rfl⟩ := hobject
      rw [fieldStep_object now errors ht] at h
      cases hvalid : validateAndDefaultObjectFields now field.name fields nested mode with
      | error e =>
        rw [hvalid] at h
        cases h
      | ok validated =>
        rw [hvalid] at h
        cases h
        unfold validateAndDefaultObjectFields at hvalid
        split at hvalid
        · cases hvalid
        · exact .nested ht hvalid
    · by_cases hnull : value = .null
      · subst hnull
        simp only [fieldStep] at h
        split at h <;> cases h
        exact .same _
      · rw [fieldStep_checked now errors field hnull
          (fun nested mode fields ht hv => hobject ⟨nested, mode, fields, ht, hv⟩)] at h
        split at h <;> cases h
        exact .same _

theorem find_name {defs : List FieldDef} (hnodup : (defs.map (·.name)).Nodup) {field : FieldDef}
    (hf : field ∈ defs) : defs.find? (·.name = field.name) = some field := by
  induction defs with
  | nil => cases hf
  | cons g defs ih =>
    obtain ⟨hnot, hrest⟩ := List.nodup_cons.mp hnodup
    rcases List.mem_cons.mp hf with rfl | hf
    · rw [List.find?_cons_of_pos (by simp)]
    · have hne : g.name ≠ field.name := fun heq => hnot (List.mem_map.mpr ⟨field, hf, heq.symm⟩)
      rw [List.find?_cons_of_neg (by simpa using hne), ih hrest hf]

/-- A field is as before, or changed by its definition. -/
theorem Filled.change {now : Int64} {errors : ErrorStyle} {defs : List FieldDef}
    {fields out : List (String × Value)} (hnodup : (defs.map (·.name)).Nodup)
    (h : Filled now errors defs fields out) (key : String) :
    out.lookup key = fields.lookup key ∨
      ∃ field, field ∈ defs ∧ defs.find? (·.name = key) = some field ∧
        FieldChange now field (fields.lookup key) (out.lookup key) := by
  by_cases hkey : key ∈ defs.map (·.name)
  · obtain ⟨field, hf, rfl⟩ := List.mem_map.mp hkey
    obtain ⟨change, hstep, hout⟩ := h.defined field hf
    exact Or.inr ⟨field, hf, find_name hnodup hf, hout ▸ fieldChange_of_step hstep⟩
  · exact Or.inl (h.others key hkey)

/-- What was there before is there afterwards. -/
theorem agreesWith_of_applyDefs {now : Int64} {errors : ErrorStyle} {defs : List FieldDef}
    {fields out : List (String × Value)} (haccepted : Accepted defs)
    (h : applyDefs now errors fields defs fields = .ok out) : AgreesWith fields out := by
  intro path
  induction path generalizing defs fields out errors with
  | nil => exact nofun
  | cons key path ih =>
    intro v hv
    have hchange := (filled_of_applyDefs haccepted.nodup h).change haccepted.nodup key
    cases path with
    | nil =>
      have hv : fields.lookup key = some v := hv
      show ∃ v', out.lookup key = some v' ∧ _
      rcases hchange with hsame | ⟨field, -, -, hchange⟩
      · exact ⟨v, hsame.trans hv, Or.inl rfl⟩
      · rw [hv] at hchange
        generalize out.lookup key = after at hchange ⊢
        cases hchange with
        | same => exact ⟨v, rfl, Or.inl rfl⟩
        | nested ht hnested => exact ⟨_, rfl, Or.inr ⟨_, _, rfl, rfl⟩⟩
    | cons key' path =>
      rw [valueAt_cons_cons] at hv ⊢
      rcases hchange with hsame | ⟨field, hf, -, hchange⟩
      · rw [hsame]
        split at hv
        · exact ⟨v, hv, Or.inl rfl⟩
        · cases hv
      · generalize out.lookup key = after at hchange ⊢
        generalize fields.lookup key = before at hchange hv
        cases hchange with
        | same =>
          split at hv
          · exact ⟨v, hv, Or.inl rfl⟩
          · cases hv
        | default hd => cases hv
        | nested ht hnested => exact ih (haccepted.nested hf ht) hnested v hv

/-- What was not there before is a default. -/
theorem addsDefaults_of_applyDefs {now : Int64} {errors : ErrorStyle} {defs : List FieldDef}
    {fields out : List (String × Value)} (haccepted : Accepted defs)
    (h : applyDefs now errors fields defs fields = .ok out) : AddsDefaults now defs fields out := by
  intro path
  induction path generalizing defs fields out errors with
  | nil => exact nofun
  | cons key path ih =>
    intro v' hv' hnone
    have hchange := (filled_of_applyDefs haccepted.nodup h).change haccepted.nodup key
    cases path with
    | nil =>
      have hv' : out.lookup key = some v' := hv'
      have hnone : fields.lookup key = none := hnone
      rw [hv', hnone] at hchange
      rcases hchange with hsame | ⟨field, -, hfind, hchange⟩
      · cases hsame
      · cases hchange with
        | default hd => exact ⟨field, _, hfind, hd, rfl⟩
    | cons key' path =>
      rw [valueAt_cons_cons] at hv' hnone
      rcases hchange with hsame | ⟨field, hf, hfind, hchange⟩
      · rw [hsame, hnone] at hv'
        cases hv'
      · rw [defAt_cons_cons, hfind]
        generalize out.lookup key = after at hchange hv'
        generalize fields.lookup key = before at hchange hnone
        cases hchange with
        | same =>
          rw [hnone] at hv'
          cases hv'
        | @default d hd => cases d <;> cases hv'
        | nested ht hnested =>
          have hrest := ih (haccepted.nested hf ht) hnested v' hv' hnone
          simp only [Option.map_some, ht]
          exact hrest

/-! ## Required fields -/

mutual

/-- Every required field of every object in a value is there and not null. A value of a union is
complete for some type of the union that accepts it. -/
def Complete : FieldType → Value → Prop
  | .object defs _, .object fields => CompleteFields defs fields
  | .array inner, .array elements => ∀ v ∈ elements, Complete inner v
  | .range elem, .range start stop => Complete elem start ∧ Complete elem stop
  | .union types, value => value = .null ∨ CompleteAny types value
  | _, _ => True

def CompleteFields : List FieldDef → List (String × Value) → Prop
  | [], _ => True
  | .mk name fieldType required _ :: defs, fields =>
    ((required = true → ∃ v, fields.lookup name = some v ∧ v ≠ .null) ∧
      ∀ v, fields.lookup name = some v → Complete fieldType v) ∧
    CompleteFields defs fields

def CompleteAny : List FieldType → Value → Prop
  | [], _ => False
  | t :: types, value =>
    (validateFieldType 0 t "" value = .ok () ∧ Complete t value) ∨ CompleteAny types value

end

mutual

/-- Every object that stands inside an array, a range or a union has its required fields. The
objects above them need not. -/
def Supplied : List FieldDef → List (String × Value) → Prop
  | [], _ => True
  | .mk name fieldType _ _ :: defs, fields =>
    (∀ v, fields.lookup name = some v → SuppliedValue fieldType v) ∧ Supplied defs fields

def SuppliedValue : FieldType → Value → Prop
  | .object nested _, .object fields => Supplied nested fields
  | t, value => Complete t value

end

@[simp] theorem complete_object (defs : List FieldDef) (mode : SchemaMode)
    (fields : List (String × Value)) :
    Complete (.object defs mode) (.object fields) ↔ CompleteFields defs fields := by
  rw [Complete]

@[simp] theorem complete_array (inner : FieldType) (elements : List Value) :
    Complete (.array inner) (.array elements) ↔ ∀ v ∈ elements, Complete inner v := by
  rw [Complete]

@[simp] theorem suppliedValue_object (defs : List FieldDef) (mode : SchemaMode)
    (fields : List (String × Value)) :
    SuppliedValue (.object defs mode) (.object fields) ↔ Supplied defs fields := by
  rw [SuppliedValue]

theorem completeFields_iff {defs : List FieldDef} {fields : List (String × Value)} :
    CompleteFields defs fields ↔ ∀ field ∈ defs,
      (field.required = true → ∃ v, fields.lookup field.name = some v ∧ v ≠ .null) ∧
        ∀ v, fields.lookup field.name = some v → Complete field.fieldType v := by
  induction defs with
  | nil => simp [CompleteFields]
  | cons field defs ih =>
    obtain ⟨name, fieldType, required, default⟩ := field
    rw [List.forall_mem_cons, ← ih, CompleteFields]
    rfl

theorem supplied_iff {defs : List FieldDef} {fields : List (String × Value)} :
    Supplied defs fields ↔ ∀ field ∈ defs,
      ∀ v, fields.lookup field.name = some v → SuppliedValue field.fieldType v := by
  induction defs with
  | nil => simp [Supplied]
  | cons field defs ih =>
    obtain ⟨name, fieldType, required, default⟩ := field
    rw [List.forall_mem_cons, ← ih, Supplied]
    rfl

theorem complete_null (t : FieldType) : Complete t .null := by
  cases t <;> simp [Complete]

theorem complete_default (now : Int64) {t : FieldType} {required : Bool} {d : DefaultValue}
    (h : defaultFits t required d = true) : Complete t (defaultToValue now d) := by
  cases t <;> cases d <;> first | exact complete_null _ | trivial

theorem suppliedValue_iff {t : FieldType} {value : Value}
    (h : ∀ nested mode fields, t = .object nested mode → value ≠ .object fields) :
    SuppliedValue t value ↔ Complete t value := by
  cases t with
  | object nested mode =>
    cases value with
    | object fields => exact absurd rfl (h nested mode fields rfl)
    | _ => simp [SuppliedValue]
  | _ => simp [SuppliedValue]

/-- The defaults make the document complete, but for what stands inside arrays, ranges and
unions. -/
theorem completeFields_iff_supplied {defs : List FieldDef} (haccepted : Accepted defs) :
    ∀ {now errors fields out}, applyDefs now errors fields defs fields = .ok out →
      (CompleteFields defs out ↔ Supplied defs fields) := by
  induction defs using defs_induction with
  | step defs ih =>
    intro now errors fields out h
    have hfilled := filled_of_applyDefs haccepted.nodup h
    rw [completeFields_iff, supplied_iff]
    refine forall₂_congr fun field hf => ?_
    obtain ⟨change, hstep, hout⟩ := hfilled.defined field hf
    rw [hout]
    cases hvalue : fields.lookup field.name with
    | none =>
      rw [hvalue] at hstep
      cases hd : field.default with
      | none =>
        simp only [fieldStep, hd] at hstep
        split at hstep
        · cases hstep
        · next hrequired =>
          cases hstep
          exact iff_of_true ⟨fun hr => absurd hr hrequired, fun _ h => by cases h⟩
            fun _ h => by cases h
      | some d =>
        simp only [fieldStep, hd] at hstep
        cases hstep
        obtain ⟨hfits, hnull⟩ := haccepted.fits hf hd
        refine iff_of_true ⟨fun _ => ⟨_, rfl, defaultToValue_ne_null now hnull⟩, ?_⟩
          fun _ h => by cases h
        intro v hv
        cases hv
        exact complete_default now hfits
    | some value =>
      rw [hvalue] at hstep
      by_cases hnull : value = .null
      · subst hnull
        simp only [fieldStep] at hstep
        split at hstep
        · cases hstep
        · next hrequired =>
          cases hstep
          refine iff_of_true ⟨fun hr => absurd hr hrequired, ?_⟩ ?_
          · intro v hv
            cases hv
            exact complete_null _
          · intro v hv
            cases hv
            exact (suppliedValue_iff (fun _ _ _ _ h => by cases h)).mpr (complete_null _)
      · by_cases hobject : ∃ nested mode fields,
            field.fieldType = .object nested mode ∧ value = .object fields
        · obtain ⟨nested, mode, inner, ht, rfl⟩ := hobject
          rw [fieldStep_object now errors ht] at hstep
          cases hvalid : validateAndDefaultObjectFields now field.name inner nested mode with
          | error e =>
            rw [hvalid] at hstep
            cases hstep
          | ok validated =>
            rw [hvalid] at hstep
            cases hstep
            unfold validateAndDefaultObjectFields at hvalid
            split at hvalid
            · cases hvalid
            · have hiff := ih field hf nested mode ht (haccepted.nested hf ht) hvalid
              simp only [Option.some_or, Option.some.injEq, forall_eq', ht, complete_object,
                suppliedValue_object, hiff]
              exact and_iff_right fun _ => ⟨.object validated, rfl, Value.noConfusion⟩
        · have hchecked : ∀ nested mode fields, field.fieldType = .object nested mode →
              value ≠ .object fields :=
            fun nested mode fields ht hv => hobject ⟨nested, mode, fields, ht, hv⟩
          rw [fieldStep_checked now errors field hnull hchecked] at hstep
          split at hstep
          · cases hstep
          · cases hstep
            simp only [Option.none_or, Option.some.injEq, forall_eq', suppliedValue_iff hchecked]
            exact and_iff_right fun _ => ⟨value, rfl, hnull⟩

/-! ## Validated documents -/

/-- Validation has only added defaults, all required fields are there, and validating once more
changes nothing. -/
structure WellFilled (now : Int64) (schema : CollectionSchema)
    (fields out : List (String × Value)) : Prop where
  agrees : AgreesWith fields out
  adds : AddsDefaults now schema.fields fields out
  complete : CompleteFields schema.fields out
  again : ∀ now', validateDocument now' schema out = .ok out

theorem applyDefs_of_validateDocument {now : Int64} {schema : CollectionSchema}
    {fields out : List (String × Value)} (h : validateDocument now schema fields = .ok out) :
    applyDefs now (.document schema.name) fields schema.fields fields = .ok out ∧
      (schema.mode = .strict →
        findUnknown schema.fields (fields.filter (·.1 ≠ "id")) = none) := by
  unfold validateDocument at h
  split at h
  · cases h
  · next hrun =>
    split at h
    · split at h
      · cases h
      · next hknown =>
        cases h
        exact ⟨hrun, fun _ => hknown⟩
    · next hmode =>
      cases h
      exact ⟨hrun, fun hstrict => absurd hstrict hmode⟩

theorem validateDocument_again {now : Int64} {schema : CollectionSchema}
    {fields out : List (String × Value)} (haccepted : Accepted schema.fields)
    (h : validateDocument now schema fields = .ok out) (now' : Int64) :
    validateDocument now' schema out = .ok out := by
  obtain ⟨hrun, hknown⟩ := applyDefs_of_validateDocument h
  have hfilled := filled_of_applyDefs haccepted.nodup hrun
  rw [validateDocument, applyDefs_again haccepted hrun now' _]
  simp only
  split
  · next hmode =>
    -- the fields of the outcome are those of the document and defined ones
    have hout : findUnknown schema.fields (out.filter (·.1 ≠ "id")) = none := by
      refine findUnknown_eq_none_iff.mpr fun key hkey => ?_
      obtain ⟨e, he, rfl⟩ := List.mem_map.mp hkey
      obtain ⟨hmem, hid⟩ := List.mem_filter.mp he
      rcases hfilled.keys (List.mem_map_of_mem hmem) with hold | hdef
      · obtain ⟨e', he', heq⟩ := List.mem_map.mp hold
        refine findUnknown_eq_none_iff.mp (hknown hmode) e.1 (List.mem_map.mpr ⟨e', ?_, heq⟩)
        exact List.mem_filter.mpr ⟨he', by rw [heq]; exact hid⟩
      · exact hdef
    rw [hout]
  · rfl

/-- A validated document is as it should be if and only if the objects inside its arrays, ranges
and unions came with their required fields. -/
theorem wellFilled_iff_supplied {now : Int64} {schema : CollectionSchema}
    {fields out : List (String × Value)} (hschema : validateSchema schema = .ok ())
    (hnull : noNullDefaults schema.fields = true)
    (h : validateDocument now schema fields = .ok out) :
    WellFilled now schema fields out ↔ Supplied schema.fields fields := by
  have haccepted := accepted_of_validateSchema hschema hnull
  have hrun := (applyDefs_of_validateDocument h).1
  have hcomplete := completeFields_iff_supplied haccepted hrun
  constructor
  · intro hfilled
    exact hcomplete.mp hfilled.complete
  · intro hsupplied
    exact ⟨agreesWith_of_applyDefs haccepted hrun, addsDefaults_of_applyDefs haccepted hrun,
      hcomplete.mpr hsupplied, validateDocument_again haccepted h⟩

/-! ## Orders and their items -/

namespace Parcels

def quantity : FieldDef := .mk "qty" .int true (some (.int 1))

/-- `items` is an array of objects, `gift` an object, both with a required quantity. -/
def orders : CollectionSchema where
  name := "orders"
  mode := .strict
  fields := [.mk "items" (.array (.object [quantity] .strict)) false none,
    .mk "gift" (.object [quantity] .strict) false none]
  indexes := []

/-- The quantity of the gift is filled in, that of the item came with it. -/
theorem gift_filled : WellFilled 0 orders
    [("items", .array [.object [("qty", .int 2)]]), ("gift", .object [])]
    [("items", .array [.object [("qty", .int 2)]]), ("gift", .object [("qty", .int 1)])] := by
  refine (wellFilled_iff_supplied (by rfl) (by decide +kernel) (by rfl)).mpr ?_
  refine supplied_iff.mpr (List.forall_mem_cons.mpr ⟨fun v hv => ?_,
    List.forall_mem_singleton.mpr fun v hv => ?_⟩)
  · cases hv
    refine (suppliedValue_iff (by intros; nofun)).mpr ((complete_array _ _).mpr ?_)
    refine List.forall_mem_singleton.mpr ((complete_object _ _ _).mpr ?_)
    exact completeFields_iff.mpr (List.forall_mem_singleton.mpr
      ⟨fun _ => ⟨.int 2, rfl, nofun⟩, fun _ _ => trivial⟩)
  · cases hv
    exact (suppliedValue_object _ _ _).mpr
      (supplied_iff.mpr (List.forall_mem_singleton.mpr nofun))

/-- The quantity of an item is not: the document is accepted without it. -/
theorem item_not_filled :
    validateSchema orders = .ok () ∧ noNullDefaults orders.fields = true ∧
      validateDocument 0 orders [("items", .array [.object []])]
        = .ok [("items", .array [.object []])] ∧
      ¬ WellFilled 0 orders [("items", .array [.object []])] [("items", .array [.object []])] := by
  refine ⟨by rfl, by decide +kernel, by rfl, fun h => ?_⟩
  have hitems := (completeFields_iff.mp h.complete _ List.mem_cons_self).2 _ rfl
  have hitem := (complete_object _ _ _).mp ((complete_array _ _).mp hitems _ List.mem_cons_self)
  obtain ⟨v, hv, -⟩ := (completeFields_iff.mp hitem _ List.mem_cons_self).1 rfl
  cases hv

end Parcels

end StellarDb
