import StellarDb.Indexes.Exact
import StellarDb.Query.Optimizer

/-!
# StellarDb — index scans (`storage/indexes/btree.rs`, `storage/database.rs`)

A lookup picks the first BTree index of the collection that starts with the looked-up fields,
walks its keyspace over a prefix or a range of encoded values, and reads the document key
behind the last `0xFF` of each entry. Every scan stops one entry past its limit.

Over an exact index the walk is described by the documents alone (`mem_entriesWhere`): its
entries are the keys of the stored documents that have all indexed fields, and what a scan
tests about an entry is a property of the document's encoded values. A scan returns the first
entries, one more than its limit (`collectDocIds_docIds`).
-/

namespace StellarDb

open Keyspaces

/-! ## Scans of one index -/

/-- Result of an index scan. -/
structure ScanResult where
  docIds : List String
  exceededLimit : Bool

/-- `StorageError::IndexLookupFailed`, the error of a lookup that no index serves. -/
structure IndexLookupFailed where
  what : String
  deriving DecidableEq, Repr

/-- The loop all scans share: collect document keys, stop one past the limit. -/
def collectDocIds (limit : Nat) : List String → List Bytes → ScanResult
  | docIds, [] => ⟨docIds, false⟩
  | docIds, key :: keys =>
    match extractDocKey key with
    | some docId =>
      if limit < (docIds ++ [docId]).length then ⟨docIds ++ [docId], true⟩
      else collectDocIds limit (docIds ++ [docId]) keys
    | none => collectDocIds limit docIds keys

namespace BTreeIndex

variable [External]

omit [External] in
/-- `prefix` on a keyspace. -/
def withPrefix (p key : Bytes) : Bool := p.isPrefixOf key

def scanEq (ks : Keyspace Unit) (value : Value) (limit : Nat) : ScanResult :=
  collectDocIds limit [] (ks.keysWhere (withPrefix (encodeIndexPrefix [value])))

/-- The entries a range operator accepts: a range of keys, and for `>` a check of the part
before the document key. -/
def rangeTest (op : RangeOp) (value : Value) (key : Bytes) : Bool :=
  let query := encodeValueOrdered value
  match op with
  | .gt => (compare query key).isLE && (keyValue key).any fun kv => (compare query kv).isLT
  | .gte => (compare query key).isLE
  | .lt => (compare key query).isLT
  | .lte => (compare key (byteSuccessor query)).isLT

def scanRange (ks : Keyspace Unit) (op : RangeOp) (value : Value) (limit : Nat) : ScanResult :=
  collectDocIds limit [] (ks.keysWhere (rangeTest op value))

/-- The entries between two values. -/
def betweenTest (lower : Value) (lowerInclusive : Bool) (upper : Value) (upperInclusive : Bool)
    (key : Bytes) : Bool :=
  let lo := encodeValueOrdered lower
  let hi := encodeValueOrdered upper
  inRange lo (if upperInclusive then byteSuccessor hi else hi) key &&
    (lowerInclusive || (keyValue key).any fun kv => (compare lo kv).isLT)

def scanRangeBetween (ks : Keyspace Unit) (lower : Value) (lowerInclusive : Bool)
    (upper : Value) (upperInclusive : Bool) (limit : Nat) : ScanResult :=
  collectDocIds limit []
    (ks.keysWhere (betweenTest lower lowerInclusive upper upperInclusive))

def scanCompoundEq (ks : Keyspace Unit) (fieldValues : List (String × Value)) (limit : Nat) :
    ScanResult :=
  collectDocIds limit [] (ks.keysWhere (withPrefix (encodeIndexPrefix (fieldValues.map (·.2)))))

end BTreeIndex

/-! ## Scans of a collection -/

namespace Database

/-- The first BTree index that starts with the fields. -/
def btreeLeadBy (indexes : List IndexDef) (fields : List String) : Option IndexDef :=
  indexes.find? fun idx => decide (idx.indexType = .btree) && fields.isPrefixOf idx.fields

/-- The index a lookup on one field walks. -/
def indexForField (db : Database) (collection field : String) :
    Except IndexLookupFailed IndexDef :=
  match btreeLeadBy (db.indexes collection) [field] with
  | some index => .ok index
  | none => .error ⟨"field '" ++ field ++ "'"⟩

/-- The index a lookup on several fields walks. -/
def indexForFields (db : Database) (collection : String) (fields : List String) :
    Except IndexLookupFailed IndexDef :=
  match btreeLeadBy (db.indexes collection) fields with
  | some index => .ok index
  | none => .error ⟨"compound fields " ++ toString fields⟩

/-- The keyspace of an index. -/
def keyspaceOf (db : Database) (collection : String) (index : IndexDef) : Keyspace Unit :=
  db.indexKeyspaces (indexKeyspaceName collection index.name)

variable [External]

def scanIndexEq (db : Database) (collection field : String) (value : Value) (limit : Nat) :
    Except IndexLookupFailed ScanResult :=
  (db.indexForField collection field).map fun index =>
    BTreeIndex.scanEq (db.keyspaceOf collection index) value limit

def scanIndexRange (db : Database) (collection field : String) (value : Value) (op : RangeOp)
    (limit : Nat) : Except IndexLookupFailed ScanResult :=
  (db.indexForField collection field).map fun index =>
    BTreeIndex.scanRange (db.keyspaceOf collection index) op value limit

def scanIndexRangeBetween (db : Database) (collection field : String) (lower : Value)
    (lowerInclusive : Bool) (upper : Value) (upperInclusive : Bool) (limit : Nat) :
    Except IndexLookupFailed ScanResult :=
  (db.indexForField collection field).map fun index =>
    BTreeIndex.scanRangeBetween (db.keyspaceOf collection index) lower lowerInclusive upper
      upperInclusive limit

def scanCompoundIndexEq (db : Database) (collection : String)
    (fieldValues : List (String × Value)) (limit : Nat) :
    Except IndexLookupFailed ScanResult :=
  (db.indexForFields collection (fieldValues.map (·.1))).map fun index =>
    BTreeIndex.scanCompoundEq (db.keyspaceOf collection index) fieldValues limit

/-- The loop of an `IN` lookup: equality scans one after the other, until as many ids as the
limit have come together. -/
def scanIndexInLoop (db : Database) (collection field : String) (limit : Nat) :
    List String → Bool → List Value → Except IndexLookupFailed (List String × Bool)
  | allIds, exceeded, [] => .ok (allIds, exceeded)
  | allIds, exceeded, value :: values =>
    match db.scanIndexEq collection field value limit with
    | .error e => .error e
    | .ok result =>
      if limit ≤ (allIds ++ result.docIds).length then .ok (allIds ++ result.docIds, true)
      else
        scanIndexInLoop db collection field limit (allIds ++ result.docIds)
          (exceeded || result.exceededLimit) values

/-- Equality scans for each value of a list, sorted and deduplicated. -/
def scanIndexIn (db : Database) (collection field : String) (values : List Value)
    (limit : Nat) : Except IndexLookupFailed ScanResult :=
  (db.scanIndexInLoop collection field limit [] false values).map fun r =>
    ⟨(r.1.mergeSort fun a b => (compare (utf8 a) (utf8 b)).isLE).dedup, r.2⟩

omit [External] in
/-- The stored documents under the given keys, missing ones skipped. -/
def getDocumentsByIds (db : Database) (collection : String) (docIds : List String) :
    List Document :=
  docIds.filterMap fun id => db.getDocument collection (utf8 id)

end Database

/-! ## The operator (`operators/scan.rs`) -/

section IndexScanOp

variable [External]

/-- `INDEX_RESULT_THRESHOLD` -/
def indexResultThreshold : Nat := 1000

/-- The documents `IndexScanOp` has after `open`, which `next` then hands out one by one, and
whether the threshold was exceeded, which nothing asks for. -/
def indexScanOp (db : Database) (collection : String) (lookup : IndexLookup) :
    Except IndexLookupFailed (List Document × Bool) :=
  let fetch (r : ScanResult) := (db.getDocumentsByIds collection r.docIds, r.exceededLimit)
  match lookup with
  | .compoundEq fieldValues =>
    (db.scanCompoundIndexEq collection fieldValues indexResultThreshold).map fetch
  | .eq field value =>
    (db.scanIndexEq collection field value indexResultThreshold).map fetch
  | .range field op value =>
    (db.scanIndexRange collection field value op indexResultThreshold).map fetch
  | .rangeBetween field lower lowerInclusive upper upperInclusive =>
    (db.scanIndexRangeBetween collection field lower lowerInclusive upper upperInclusive
      indexResultThreshold).map fetch
  | .in field values =>
    (db.scanIndexIn collection field values indexResultThreshold).map fetch

end IndexScanOp

/-! ## What a scan collects -/

theorem collectDocIds_docIds {limit : Nat} {acc : List String} (hacc : acc.length ≤ limit)
    (keys : List Bytes) :
    (collectDocIds limit acc keys).docIds =
      (acc ++ keys.filterMap extractDocKey).take (limit + 1) := by
  induction keys generalizing acc with
  | nil =>
    rw [List.filterMap_nil, List.append_nil, List.take_of_length_le (by omega)]
    rfl
  | cons key keys ih =>
    rw [collectDocIds]
    cases hkey : extractDocKey key with
    | none =>
      rw [List.filterMap_cons_none hkey]
      exact ih hacc
    | some docId =>
      rw [List.filterMap_cons_some hkey]
      have happ : acc ++ docId :: keys.filterMap extractDocKey =
          (acc ++ [docId]) ++ keys.filterMap extractDocKey := by simp
      rw [happ]
      have hlen : (acc ++ [docId]).length = acc.length + 1 := by simp
      by_cases hlimit : limit < (acc ++ [docId]).length
      · simp only [hlimit, if_true]
        rw [List.take_append_of_le_length (by omega), List.take_of_length_le (by omega)]
      · simp only [hlimit, if_false]
        exact ih (not_lt.mp hlimit)

section Entries

variable [External]

omit [External] in
/-- The last `0xFF` is the separator. -/
theorem takeWhile_ff {bs : Bytes} (hbs : (0xFF : UInt8) ∉ bs) (as : Bytes) :
    (as ++ 0xFF :: bs).reverse.takeWhile (· ≠ 0xFF) = bs.reverse ∧
      (as ++ 0xFF :: bs).reverse.dropWhile (· ≠ 0xFF) = 0xFF :: as.reverse := by
  have hall : ∀ b ∈ bs.reverse, decide (b ≠ 0xFF) = true := by
    intro b hb
    have : b ≠ 0xFF := by
      intro h
      exact hbs (h ▸ List.mem_reverse.mp hb)
    simpa using this
  rw [List.reverse_append, List.reverse_cons, List.append_assoc,
    List.takeWhile_append_of_pos hall, List.dropWhile_append_of_pos hall]
  simp

@[simp] theorem extractDocKey_encodeIndexKey (values : List Value) (docKey : String) :
    extractDocKey (encodeIndexKey values docKey) = some docKey := by
  unfold extractDocKey encodeIndexKey
  rw [if_pos (by simp), (takeWhile_ff (ff_notMem_utf8 docKey) _).1, List.reverse_reverse,
    fromUtf8_utf8]

@[simp] theorem keyValue_encodeIndexKey (values : List Value) (docKey : String) :
    keyValue (encodeIndexKey values docKey) = some (values.flatMap encodeValueOrdered) := by
  unfold keyValue encodeIndexKey
  rw [if_pos (by simp), (takeWhile_ff (ff_notMem_utf8 docKey) _).2, List.drop_one, List.tail_cons,
    List.reverse_reverse]

namespace Database

/-- A stored document of a collection. -/
def Stored (db : Database) (collection : String) (d : Document) : Prop :=
  db.getDocument collection d.keyBytes = some d

/-- The document keys of the index entries that pass a test, in key order. -/
def entriesWhere (db : Database) (collection : String) (index : IndexDef)
    (test : Bytes → Bool) : List String :=
  ((db.keyspaceOf collection index).keysWhere test).filterMap extractDocKey

/-- The document has an entry in the index that passes the test. -/
def EntryPasses (index : IndexDef) (test : Bytes → Bool) (d : Document) : Prop :=
  ∃ key, buildIndexKey d index.fields = some key ∧ test key = true

variable {db : Database} {collection : String} {index : IndexDef}

omit [External] in
theorem stored_of_docs {k : Bytes} {d : Document} (h : (db.docs collection)[k]? = some d) :
    db.Stored collection d := by
  rw [← getDocument_eq] at h
  obtain ⟨ks, hks, hd⟩ := Option.bind_eq_some_iff.mp h
  unfold Stored getDocument
  rw [hks, ks.keyed k d hd]
  exact hd

omit [External] in
/-- Documents are stored under their keys. -/
theorem Stored.unique {d d' : Document} (h : db.Stored collection d)
    (h' : db.Stored collection d') (hkey : d.key = d'.key) : d = d' := by
  have hbytes : d.keyBytes = d'.keyBytes := congrArg utf8 hkey
  unfold Stored at h h'
  rw [hbytes, h', Option.some_inj] at h
  exact h.symm

/-- An entry of an exact index belongs to the stored document it names. -/
theorem stored_of_entry (hdb : db.IndexExact) (hindex : index ∈ db.indexes collection)
    (hbtree : index.indexType = .btree) {test : Bytes → Bool} {key : Bytes} {id : String}
    (hkey : key ∈ (db.keyspaceOf collection index).keysWhere test)
    (hid : extractDocKey key = some id) :
    ∃ d, db.Stored collection d ∧ buildIndexKey d index.fields = some key ∧ d.key = id := by
  obtain ⟨u, hu⟩ := Option.isSome_iff_exists.mp (mem_keysWhere.mp hkey).1
  obtain ⟨k, d, hd, hbuild⟩ := (hdb collection index hindex hbtree key).mp hu
  refine ⟨d, stored_of_docs hd, hbuild, ?_⟩
  obtain ⟨values, -, rfl⟩ := Option.map_eq_some_iff.mp hbuild
  rwa [extractDocKey_encodeIndexKey, Option.some_inj] at hid

/-- The entries of an exact index that pass a test belong to the stored documents whose key
passes it. -/
theorem mem_entriesWhere (hdb : db.IndexExact) (hindex : index ∈ db.indexes collection)
    (hbtree : index.indexType = .btree) {test : Bytes → Bool} {id : String} :
    id ∈ db.entriesWhere collection index test ↔
      ∃ d, db.Stored collection d ∧ EntryPasses index test d ∧ d.key = id := by
  unfold entriesWhere
  rw [List.mem_filterMap]
  refine ⟨?_, ?_⟩
  · rintro ⟨key, hkey, hid⟩
    obtain ⟨d, hd, hbuild, hdkey⟩ := stored_of_entry hdb hindex hbtree hkey hid
    exact ⟨d, hd, ⟨key, hbuild, (mem_keysWhere.mp hkey).2⟩, hdkey⟩
  · rintro ⟨d, hd, ⟨key, hbuild, htest⟩, rfl⟩
    have hentry := (hdb collection index hindex hbtree key).mpr
      ⟨d.keyBytes, d, by rw [← getDocument_eq]; exact hd, hbuild⟩
    refine ⟨key, mem_keysWhere.mpr ⟨?_, htest⟩, ?_⟩
    · show ((db.indexKeyspaces _)[key]?).isSome = true
      rw [hentry]
      rfl
    · obtain ⟨values, -, rfl⟩ := Option.map_eq_some_iff.mp hbuild
      exact extractDocKey_encodeIndexKey values d.key

theorem key_mem_entriesWhere (hdb : db.IndexExact) (hindex : index ∈ db.indexes collection)
    (hbtree : index.indexType = .btree) {test : Bytes → Bool} {d : Document}
    (hd : db.Stored collection d) :
    d.key ∈ db.entriesWhere collection index test ↔ EntryPasses index test d := by
  rw [mem_entriesWhere hdb hindex hbtree]
  refine ⟨?_, fun h => ⟨d, hd, h, rfl⟩⟩
  rintro ⟨d', hd', hpass, hkey⟩
  rwa [hd.unique hd' hkey.symm]

/-- One document key stands for one document, which has one index key. -/
theorem entriesWhere_nodup (hdb : db.IndexExact) (hindex : index ∈ db.indexes collection)
    (hbtree : index.indexType = .btree) (test : Bytes → Bool) :
    (db.entriesWhere collection index test).Nodup := by
  refine List.pairwise_filterMap.mpr ?_
  refine (keysWhere_nodup (db.keyspaceOf collection index) test).imp_of_mem ?_
  intro key key' hkey hkey' hne id hid id' hid' heq
  subst heq
  obtain ⟨d, hd, hb, hk⟩ := stored_of_entry hdb hindex hbtree hkey hid
  obtain ⟨d', hd', hb', hk'⟩ := stored_of_entry hdb hindex hbtree hkey' hid'
  obtain rfl : d = d' := hd.unique hd' (hk.trans hk'.symm)
  exact hne (Option.some.inj (hb.symm.trans hb'))

omit [External] in
theorem of_btreeLeadBy {indexes : List IndexDef} {fields : List String}
    (h : btreeLeadBy indexes fields = some index) :
    index ∈ indexes ∧ index.indexType = .btree ∧ fields <+: index.fields := by
  have hfound := List.find?_some h
  simp only [Bool.and_eq_true, decide_eq_true_eq, List.isPrefixOf_iff_prefix] at hfound
  exact ⟨List.mem_of_find?_eq_some h, hfound⟩

/-! Each scan of a collection returns the first entries of its index that pass its test. -/

omit [External] in
theorem collectDocIds_entriesWhere (db : Database) (collection : String) (index : IndexDef)
    (test : Bytes → Bool) (limit : Nat) :
    (collectDocIds limit [] ((db.keyspaceOf collection index).keysWhere test)).docIds =
      (db.entriesWhere collection index test).take (limit + 1) :=
  collectDocIds_docIds (Nat.zero_le limit) _

section Scans

variable {field : String} (h : btreeLeadBy (db.indexes collection) [field] = some index)
  (limit : Nat)

include h

theorem scanIndexEq_eq (value : Value) :
    ∃ r, db.scanIndexEq collection field value limit = .ok r ∧ r.docIds =
      (db.entriesWhere collection index
        (BTreeIndex.withPrefix (encodeIndexPrefix [value]))).take (limit + 1) := by
  unfold scanIndexEq indexForField
  rw [h]
  exact ⟨_, rfl, collectDocIds_entriesWhere ..⟩

theorem scanIndexRange_eq (value : Value) (op : RangeOp) :
    ∃ r, db.scanIndexRange collection field value op limit = .ok r ∧ r.docIds =
      (db.entriesWhere collection index (BTreeIndex.rangeTest op value)).take (limit + 1) := by
  unfold scanIndexRange indexForField
  rw [h]
  exact ⟨_, rfl, collectDocIds_entriesWhere ..⟩

theorem scanIndexRangeBetween_eq (lower : Value) (lowerInclusive : Bool) (upper : Value)
    (upperInclusive : Bool) :
    ∃ r, db.scanIndexRangeBetween collection field lower lowerInclusive upper upperInclusive
        limit = .ok r ∧ r.docIds =
      (db.entriesWhere collection index
        (BTreeIndex.betweenTest lower lowerInclusive upper upperInclusive)).take (limit + 1) := by
  unfold scanIndexRangeBetween indexForField
  rw [h]
  exact ⟨_, rfl, collectDocIds_entriesWhere ..⟩

end Scans

theorem scanCompoundIndexEq_eq {fieldValues : List (String × Value)}
    (h : btreeLeadBy (db.indexes collection) (fieldValues.map (·.1)) = some index)
    (limit : Nat) :
    ∃ r, db.scanCompoundIndexEq collection fieldValues limit = .ok r ∧ r.docIds =
      (db.entriesWhere collection index
        (BTreeIndex.withPrefix (encodeIndexPrefix (fieldValues.map (·.2))))).take (limit + 1) := by
  unfold scanCompoundIndexEq indexForFields
  rw [h]
  exact ⟨_, rfl, collectDocIds_entriesWhere ..⟩

end Database

end Entries

end StellarDb
