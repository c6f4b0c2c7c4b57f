import StellarDb.Json
import StellarDb.Schema.Collection

/-!
# StellarDb — full-text and vector indexes (`storage/indexes/fts.rs`, `hnsw.rs`)

Both kinds keep one entry per document, under its id, outside of the key-value store: the texts
of the indexed fields, or the vector in the one field. An update first removes the entry of the
document and then adds the one of its new version, so it may be made twice.
-/

namespace StellarDb

open Keyspaces Formats

/-! ## Entries -/

/-- `f64::to_string` -/
def F64.display (f : F64) : String :=
  if f.isNan then "NaN"
  else
    (if f.isNegative then "-" else "") ++
      (if f.isInfinite then "inf" else if f.isZero then "0" else f.absToString)

section Entries

variable [External] [Formats]

mutual

def valueToText : Value → String
  | .string s => s
  | .int n => toString n
  | .float f => f.display
  | .decimal d => External.decimalToString d
  | .bool b => toString b
  | .array elems => " ".intercalate (elemTexts elems)
  | .object entries => " ".intercalate (entryTexts entries)
  | .null => ""
  | .reference id => id
  | .datetime ms => (rfc3339 ms).getD (toString ms)
  | .duration ns => toString ns ++ "ns"
  | .bytes _ => ""
  | .range start stop => valueToText start ++ " " ++ valueToText stop

def elemTexts : List Value → List String
  | [] => []
  | v :: vs => valueToText v :: elemTexts vs

def entryTexts : List (String × Value) → List String
  | [] => []
  | (_, v) :: es => valueToText v :: entryTexts es

end

end Entries

/-- `v as f32`, by its bits; only numbers have one. -/
def toF32 : Value → Option UInt32
  | .float f => some (Float.ofBits f.bits).toFloat32.toBits
  | .int n => some n.toFloat32.toBits
  | _ => none

def extractVector (doc : Document) (field : String) : Option (List UInt32) :=
  match doc.fields.lookup field with
  | some (.array elems) => some (elems.filterMap toF32)
  | _ => none

/-- What an external index keeps of a document. -/
inductive ExternalEntry where
  /-- The indexed fields that have a text. -/
  | texts (fields : List (String × String))
  | vector (components : List UInt32)
  deriving DecidableEq

/-- The fields of an index in the order of their names. -/
def sortedFields (fields : List String) : List String :=
  fields.mergeSort fun a b => (compare (utf8 a) (utf8 b)).isLE

def IndexDefinition.isExternal (index : IndexDefinition) : Bool := index.indexType ≠ .btree

/-- The entry of a document; a document without a vector has none in a vector index. The texts
go to separate fields of the search index, so their order says nothing. -/
def externalEntry [External] [Formats] (index : IndexDefinition) (doc : Document) :
    Option ExternalEntry :=
  match index.indexType with
  | .btree => none
  | .fullText =>
    some (.texts ((sortedFields index.fields).filterMap fun field =>
      (doc.fields.lookup field).bind fun value =>
        if valueToText value = "" then none else some (field, valueToText value)))
  | .hnsw =>
    match index.fields with
    | [] => none
    | field :: _ =>
      match extractVector doc field with
      | some (c :: cs) => some (.vector (c :: cs))
      | _ => none

/-! ## Backends -/

/-- The backend's name of an index: full-text indexes go by their sorted fields, vector indexes
by their field. -/
structure ExternalId where
  indexType : IndexType
  collection : String
  name : String
  deriving DecidableEq

def IndexDefinition.externalId (index : IndexDefinition) (collection : String) : ExternalId where
  indexType := index.indexType
  collection := collection
  name :=
    match index.indexType with
    | .hnsw => index.fields.headD ""
    | _ => "_".intercalate (sortedFields index.fields) ++ "_fts"

/-- The entries of every external index, by document id. -/
abbrev ExternalTables := ExternalId → String → Option ExternalEntry

def ExternalTables.put (tables : ExternalTables) (x : ExternalId) (docId : String)
    (entry : Option ExternalEntry) : ExternalTables :=
  Function.update tables x (Function.update (tables x) docId entry)

theorem ExternalTables.put_apply (tables : ExternalTables) (x : ExternalId) (docId : String)
    (entry : Option ExternalEntry) (x' : ExternalId) (docId' : String) :
    tables.put x docId entry x' docId' =
      if x' = x ∧ docId' = docId then entry else tables x' docId' := by
  unfold put
  by_cases hx : x' = x
  · subst hx
    rw [Function.update_self]
    by_cases hd : docId' = docId
    · subst hd
      rw [Function.update_self, if_pos ⟨rfl, rfl⟩]
    · rw [Function.update_of_ne hd, if_neg fun h => hd h.2]
  · rw [Function.update_of_ne hx, if_neg fun h => hx h.1]

/-- Remove the entry of the old version, or else of the new one. -/
def ExternalTables.removeEntry (tables : ExternalTables) (x : ExternalId) :
    Option Document → Option Document → ExternalTables
  | some old, _ => tables.put x old.id none
  | none, some new => tables.put x new.id none
  | none, none => tables

/-- `update_document` of a backend. -/
def ExternalTables.updateDocument [External] [Formats] (tables : ExternalTables)
    (collection : String) (index : IndexDefinition) (oldDoc newDoc : Option Document) :
    ExternalTables :=
  let x := index.externalId collection
  let tables := tables.removeEntry x oldDoc newDoc
  match newDoc with
  | some new =>
    match externalEntry index new with
    | some entry => tables.put x new.id (some entry)
    | none => tables
  | none => tables

theorem ExternalTables.removeEntry_eq (tables : ExternalTables) (x : ExternalId)
    {oldDoc newDoc : Option Document} {docId : String} (hold : ∀ d, oldDoc = some d → d.id = docId)
    (hnew : ∀ d, newDoc = some d → d.id = docId) (hsome : oldDoc.isSome ∨ newDoc.isSome) :
    tables.removeEntry x oldDoc newDoc = tables.put x docId none := by
  cases oldDoc with
  | some old => exact congrArg (tables.put x · none) (hold old rfl)
  | none =>
    cases newDoc with
    | some new => exact congrArg (tables.put x · none) (hnew new rfl)
    | none => simp at hsome

/-- Versions of one document: its entry is that of the new version afterwards. -/
theorem ExternalTables.updateDocument_apply [External] [Formats] (tables : ExternalTables)
    (collection : String) (index : IndexDefinition) {oldDoc newDoc : Option Document}
    {docId : String} (hold : ∀ d, oldDoc = some d → d.id = docId)
    (hnew : ∀ d, newDoc = some d → d.id = docId) (hsome : oldDoc.isSome ∨ newDoc.isSome)
    (x : ExternalId) (docId' : String) :
    tables.updateDocument collection index oldDoc newDoc x docId' =
      if x = index.externalId collection ∧ docId' = docId then newDoc.bind (externalEntry index)
      else tables x docId' := by
  unfold updateDocument
  rw [removeEntry_eq tables _ hold hnew hsome]
  cases newDoc with
  | none => exact ExternalTables.put_apply ..
  | some new =>
    obtain rfl := hnew new rfl
    simp only [Option.bind_some]
    cases hentry : externalEntry index new with
    | none => exact ExternalTables.put_apply ..
    | some entry =>
      simp only [ExternalTables.put_apply]
      split <;> rfl

end StellarDb
