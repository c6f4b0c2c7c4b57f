import StellarDb.Encoding

/-!
# StellarDb — index definitions and field paths

`IndexDef` (`schema/types.rs`) with the fields that document maintenance reads, the name
check of `schema/validate.rs`, and the resolution of a dotted field path against a document's
fields, which the BTree index and the unique constraint manager share.
-/

namespace StellarDb

open Keyspaces

inductive IndexType where
  | btree
  | fullText
  | hnsw
  deriving DecidableEq, Repr

structure IndexDef where
  name : String
  fields : List String
  unique : Bool
  indexType : IndexType
  deriving DecidableEq, Repr

/-! ## Names -/

def maxNameLength : Nat := 120

/-- Unicode general category `Cc`. -/
def isControl (c : Char) : Bool := c.toNat < 0x20 || (0x7F ≤ c.toNat && c.toNat < 0xA0)

/-- Two adjacent dots somewhere in the name. -/
def hasDotDot : List Char → Bool
  | '.' :: '.' :: _ => true
  | _ :: cs => hasDotDot cs
  | [] => false

/-- `BindError::InvalidName`, as the storage layer reports it. -/
def invalidName (kind reason : String) : StorageError :=
  .invalidOperation ("invalid " ++ kind ++ " name: " ++ reason)

/-- `BindError::NameTooLong`, as the storage layer reports it. -/
def nameTooLong (kind name : String) : StorageError :=
  .invalidOperation (kind ++ " name '" ++ name ++ "' exceeds maximum length of "
    ++ toString maxNameLength ++ " characters")

/-- Names must be non-empty, short, and free of path separators and control characters. -/
def validateName (kind name : String) : Except StorageError Unit :=
  let cs := name.toList
  if cs.isEmpty then .error (invalidName kind "name cannot be empty")
  else if '/' ∈ cs || '\\' ∈ cs || hasDotDot cs then
    .error (invalidName kind "name cannot contain path separators or '..'")
  else if name = "." then .error (invalidName kind "name cannot be '.'")
  else if '\x00' ∈ cs then .error (invalidName kind "name cannot contain null bytes")
  else if cs.any isControl then
    .error (invalidName kind "name cannot contain control characters")
  else if maxNameLength < (utf8 name).length then
    .error (nameTooLong kind name)
  else .ok ()

/-! ## Field paths -/

/-- `s.split(c)` -/
def splitChar (c : Char) (s : String) : List String :=
  (s.toList.splitOn c).map String.ofList

/-- Step into one segment of a path: only objects have segments. -/
def Value.getSegment (v : Value) (segment : String) : Option Value :=
  match v with
  | .object entries => entries.lookup segment
  | _ => none

/-- Resolve a dot-separated field path against a document's fields. -/
def resolveFieldValue (fields : List (String × Value)) (path : String) : Option Value :=
  match splitOnce '.' path with
  | none => fields.lookup path
  | some (root, rest) => do
    let value ← fields.lookup root
    (splitChar '.' rest).foldlM Value.getSegment value

theorem Value.wf_getSegment {v w : Value} {segment : String} (hv : v.wf = true)
    (h : v.getSegment segment = some w) : w.wf = true := by
  cases v with
  | object entries =>
    simp only [Value.wf, Bool.and_eq_true, Value.wfEntries_iff] at hv
    exact hv.2 (segment, w) (Value.mem_of_lookup h)
  | _ => cases h

/-- A resolved value is a part of the document, hence well formed. -/
theorem wf_resolveFieldValue (d : Document) {path : String} {v : Value}
    (h : resolveFieldValue d.fields path = some v) : v.wf = true := by
  unfold resolveFieldValue at h
  split at h
  · exact d.wf_of_lookup h
  · next root rest _ =>
    simp only [Option.bind_eq_bind, Option.bind_eq_some_iff] at h
    obtain ⟨value, hroot, hfold⟩ := h
    have hvalue : value.wf = true := d.wf_of_lookup hroot
    clear hroot
    generalize splitChar '.' rest = segments at hfold
    induction segments generalizing value with
    | nil =>
      obtain rfl : value = v := by simpa using hfold
      exact hvalue
    | cons s segments ih =>
      rw [List.foldlM_cons] at hfold
      simp only [Option.bind_eq_bind, Option.bind_eq_some_iff] at hfold
      obtain ⟨w, hw, hrest⟩ := hfold
      exact ih w (Value.wf_getSegment hvalue hw) hrest

end StellarDb
