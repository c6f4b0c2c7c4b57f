import StellarDb.Schema

/-!
# StellarDb — collection schemas (`schema/types.rs`, `schema/validate.rs`)

A `CollectionSchema` has field definitions and index definitions; `validateSchema` is the check
that DEFINE COLLECTION makes before anything is stored.
-/

namespace StellarDb

open Keyspaces

/-! ## Index definitions -/

inductive DistanceMetric where
  | cosine
  | euclidean
  | dot
  deriving DecidableEq, Repr

structure HnswParams where
  dimension : Nat
  metric : DistanceMetric
  m : Nat
  efConstruction : Nat
  deriving DecidableEq, Repr

/-- `IndexDef` with the fields that only the index backends read. -/
structure IndexDefinition extends IndexDef where
  hnswParams : Option HnswParams
  analyzer : Option String
  deriving DecidableEq, Repr

/-- `f.replace('.', "_")` -/
def replaceDots (field : String) : String :=
  String.ofList (field.toList.map fun c => if c = '.' then '_' else c)

/-- Full-text names sort the fields and leave the collection out. -/
def generateIndexName (collection : String) (indexType : IndexType) (fields : List String) : String :=
  let parts := fields.map replaceDots
  match indexType with
  | .fullText =>
    "_".intercalate (parts.mergeSort fun a b => (compare (utf8 a) (utf8 b)).isLE) ++ "_fts"
  | .btree => "idx_" ++ collection ++ "_btree_" ++ "_".intercalate parts
  | .hnsw => "idx_" ++ collection ++ "_hnsw_" ++ "_".intercalate parts

/-! ## Field definitions -/

inductive SchemaMode where
  | strict
  | flexible
  deriving DecidableEq, Repr

inductive DefaultValue where
  | null
  | bool (b : Bool)
  | int (n : Int)
  | float (f : F64)
  | string (s : String)
  | now
  deriving DecidableEq, Repr

mutual

inductive FieldType where
  | string
  | int
  | float
  | decimal
  | bool
  | datetime
  | duration
  | bytes
  | object (fields : List FieldDef) (mode : SchemaMode)
  | array (inner : FieldType)
  | anyArray
  | reference (collection : Option String)
  | any
  | range (inner : FieldType)
  | union (types : List FieldType)

inductive FieldDef where
  | mk (name : String) (fieldType : FieldType) (required : Bool) (default : Option DefaultValue)

end

def FieldDef.name : FieldDef → String
  | .mk name _ _ _ => name

structure CollectionSchema where
  name : String
  mode : SchemaMode
  fields : List FieldDef
  indexes : List IndexDefinition

/-- `CollectionSchema::flexible` -/
def CollectionSchema.flexible (name : String) : CollectionSchema := ⟨name, .flexible, [], []⟩

/-- Add an index unless one has its fields; add, remove and look up are those of the schema and
of the index registry alike. -/
def addIndexTo (indexes : List IndexDefinition) (index : IndexDefinition) : List IndexDefinition :=
  if indexes.any (·.fields = index.fields) then indexes else indexes ++ [index]

def removeIndexFrom (indexes : List IndexDefinition) (fields : List String) :
    List IndexDefinition :=
  indexes.filter (·.fields ≠ fields)

/-! ## Validation -/

inductive BindError where
  /-- `InvalidName` and `NameTooLong`. -/
  | name (e : StorageError)
  | duplicateFieldName (collection field : String)
  | defaultValueTypeMismatch (collection field : String)
  | duplicateIndexName (collection index : String)
  | indexFieldNotFound (collection index field : String)
  | invalidIndexConfig (collection index reason : String)

def validName (kind name : String) : Except BindError Unit :=
  match validateName kind name with
  | .ok () => .ok ()
  | .error e => .error (.name e)

mutual

/-- Field names seen before must not come again, in nested objects for themselves. -/
def validateFieldsNoDuplicates (collection : String) :
    List String → List FieldDef → Except BindError Unit
  | _, [] => .ok ()
  | seen, .mk name fieldType _ _ :: fields =>
    if name ∈ seen then .error (.duplicateFieldName collection name)
    else do
      nestedNoDuplicates collection fieldType
      validateFieldsNoDuplicates collection (name :: seen) fields

def nestedNoDuplicates (collection : String) : FieldType → Except BindError Unit
  | .object fields _ => validateFieldsNoDuplicates collection [] fields
  | .array (.object fields _) => validateFieldsNoDuplicates collection [] fields
  | _ => .ok ()

end

/-- Which defaults a field type takes. -/
def defaultFits : FieldType → Bool → DefaultValue → Bool
  | .string, _, .string _ => true
  | .int, _, .int _ => true
  | .float, _, .float _ => true
  | .float, _, .int _ => true
  | .decimal, _, .float _ => true
  | .decimal, _, .int _ => true
  | .bool, _, .bool _ => true
  | .datetime, _, .now => true
  | .datetime, _, .int _ => true
  | .datetime, _, .string _ => true
  | .any, _, _ => true
  | _, required, .null => !required
  | _, _, _ => false

mutual

def validateDefaultTypes (collection : String) : List FieldDef → Except BindError Unit
  | [] => .ok ()
  | .mk name fieldType required default :: fields =>
    match default with
    | some d =>
      if defaultFits fieldType required d then do
        nestedDefaultTypes collection fieldType
        validateDefaultTypes collection fields
      else .error (.defaultValueTypeMismatch collection name)
    | none => do
      nestedDefaultTypes collection fieldType
      validateDefaultTypes collection fields

def nestedDefaultTypes (collection : String) : FieldType → Except BindError Unit
  | .object fields _ => validateDefaultTypes collection fields
  | .array (.object fields _) => validateDefaultTypes collection fields
  | _ => .ok ()

end

/-- The first segment of a field path. -/
def topLevel (field : String) : String :=
  match splitOnce '.' field with
  | some (root, _) => root
  | none => field

/-- The indexes in order, with the names seen so far; empty names are filled in later. -/
def validateIndexesFrom (schema : CollectionSchema) (seen : List String) :
    List IndexDefinition → Except BindError Unit
  | [] => .ok ()
  | index :: indexes => do
    if index.name ≠ "" then
      if index.name ∈ seen then throw (.duplicateIndexName schema.name index.name)
      validName "index" index.name
    if !schema.fields.isEmpty then
      for field in index.fields do
        if topLevel field ∉ schema.fields.map (·.name) then
          throw (.indexFieldNotFound schema.name index.name field)
    if index.indexType = .hnsw then
      match index.hnswParams with
      | none => throw (.invalidIndexConfig schema.name index.name
          "HNSW index requires hnsw_params with dimension > 0")
      | some params =>
        if params.dimension = 0 then
          throw (.invalidIndexConfig schema.name index.name "HNSW dimension must be greater than 0")
    validateIndexesFrom schema (if index.name ≠ "" then index.name :: seen else seen) indexes

def validateIndexes (schema : CollectionSchema) : Except BindError Unit :=
  validateIndexesFrom schema [] schema.indexes

def validateSchema (schema : CollectionSchema) : Except BindError Unit := do
  validName "collection" schema.name
  validateFieldsNoDuplicates schema.name [] schema.fields
  validateDefaultTypes schema.name schema.fields
  validateIndexes schema

end StellarDb
