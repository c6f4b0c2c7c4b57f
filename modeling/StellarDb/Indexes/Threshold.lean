import StellarDb.Edges.Cascade
import StellarDb.Indexes.Lookup
import StellarDb.Query.Execute

/-!
# StellarDb — index scans and the result threshold

`IndexScanOp` passes a threshold of 1000 down to the scans, and a scan stops one entry past
it. The flag that reports this is not read by anyone, so the documents behind the cut are lost.
An `IN` lookup makes one scan for each value and stops as soon as 1000 ids have come together;
the values behind are not scanned at all.

`indexScanOp_complete_iff`: a lookup yields all documents that match it, each once, exactly if
the matches stay within these limits (`WithinThreshold`).
-/

namespace StellarDb

open Keyspaces

/-! ## Fetching documents -/

section Fetch

variable {db : Database} {collection : String}

theorem mem_getDocumentsByIds {ids : List String} {d : Document} :
    d ∈ db.getDocumentsByIds collection ids ↔ db.Stored collection d ∧ d.key ∈ ids := by
  unfold Database.getDocumentsByIds
  rw [List.mem_filterMap]
  refine ⟨?_, fun h => ⟨d.key, h.2, h.1⟩⟩
  rintro ⟨id, hid, hd⟩
  rw [Database.getDocument_eq] at hd
  have hkey : d.key = id := utf8_injective (db.keyed hd)
  exact ⟨Database.stored_of_docs hd, hkey ▸ hid⟩

theorem getDocumentsByIds_nodup {ids : List String} (hids : ids.Nodup) :
    (db.getDocumentsByIds collection ids).Nodup := by
  refine List.pairwise_filterMap.mpr (hids.imp ?_)
  intro id id' hne d hd d' hd' heq
  subst heq
  rw [Database.getDocument_eq] at hd hd'
  exact hne (utf8_injective ((db.keyed hd).symm.trans (db.keyed hd')))

end Fetch

/-! ## The scans of a lookup -/

section Scans

variable [External]

/-- The tests of the scans that a lookup makes: one, or one for each value of an `IN` list. -/
def IndexLookup.tests : IndexLookup → List (Bytes → Bool)
  | .eq _ value => [BTreeIndex.withPrefix (encodeIndexPrefix [value])]
  | .range _ op value => [BTreeIndex.rangeTest op value]
  | .rangeBetween _ lower lowerInclusive upper upperInclusive =>
    [BTreeIndex.betweenTest lower lowerInclusive upper upperInclusive]
  | .compoundEq fieldValues =>
    [BTreeIndex.withPrefix (encodeIndexPrefix (fieldValues.map (·.2)))]
  | .in _ values => values.map fun value => BTreeIndex.withPrefix (encodeIndexPrefix [value])

/-- The document matches the lookup in the index. -/
def IndexLookup.Matches (lookup : IndexLookup) (index : IndexDef) (d : Document) : Prop :=
  ∃ test ∈ lookup.tests, Database.EntryPasses index test d

omit [External] in
/-- The scans that are made before `limit` ids have come together. -/
def scansMade (limit : Nat) : Nat → List (List String) → List (List String)
  | _, [] => []
  | found, entries :: rest =>
    entries :: if limit ≤ found + (entries.take (limit + 1)).length then []
      else scansMade limit (found + (entries.take (limit + 1)).length) rest

/-- Every match of the lookup is among the first 1001 entries of a scan that is made. -/
def WithinThreshold (db : Database) (collection : String) (index : IndexDef)
    (lookup : IndexLookup) : Prop :=
  match lookup with
  | .in _ values =>
    let entries value :=
      db.entriesWhere collection index (BTreeIndex.withPrefix (encodeIndexPrefix [value]))
    ∀ value ∈ values, ∀ id ∈ entries value,
      ∃ scanned ∈ scansMade indexResultThreshold 0 (values.map entries),
        id ∈ scanned.take (indexResultThreshold + 1)
  | lookup => ∀ test ∈ lookup.tests,
    (db.entriesWhere collection index test).length ≤ indexResultThreshold + 1

variable {db : Database} {collection : String} {index : IndexDef}

/-- The ids an `IN` lookup accumulates. -/
theorem scanIndexInLoop_eq {field : String}
    (h : Database.btreeLeadBy (db.indexes collection) [field] = some index) (limit : Nat)
    (allIds : List String) (exceeded : Bool) (values : List Value) :
    ∃ r, db.scanIndexInLoop collection field limit allIds exceeded values = .ok r ∧
      r.1 = allIds ++ (scansMade limit allIds.length (values.map fun value =>
        db.entriesWhere collection index
          (BTreeIndex.withPrefix (encodeIndexPrefix [value])))).flatMap
            fun entries => entries.take (limit + 1) := by
  induction values generalizing allIds exceeded with
  | nil => exact ⟨_, rfl, by simp [scansMade]⟩
  | cons value values ih =>
    obtain ⟨result, hresult, hids⟩ := Database.scanIndexEq_eq h limit value
    rw [Database.scanIndexInLoop, hresult, List.map_cons, scansMade]
    simp only [List.length_append, hids]
    split
    · exact ⟨_, rfl, by simp⟩
    · obtain ⟨r, hr, hr1⟩ := ih (allIds ++ result.docIds) (exceeded || result.exceededLimit)
      rw [hids] at hr hr1
      refine ⟨r, hr, ?_⟩
      rw [hr1, List.length_append, List.flatMap_cons, List.append_assoc]

omit [External] in
theorem scansMade_singleton (limit found : Nat) (entries : List String) :
    scansMade limit found [entries] = [entries] := by
  rw [scansMade]
  split <;> rfl

omit [External] in
/-- Scans are made from the front of the list. -/
theorem scansMade_subset (limit found : Nat) (scans : List (List String)) :
    ∀ entries ∈ scansMade limit found scans, entries ∈ scans := by
  induction scans generalizing found with
  | nil => exact fun entries h => absurd h List.not_mem_nil
  | cons e scans ih =>
    rw [scansMade]
    refine List.forall_mem_cons.mpr ⟨List.mem_cons_self, fun entries h => ?_⟩
    split at h
    · exact absurd h List.not_mem_nil
    · exact List.mem_cons_of_mem e (ih _ entries h)

/-- The documents of a lookup are those named in the first 1001 entries of the scans made. -/
theorem indexScanOp_docs {lookup : IndexLookup} (hdb : db.IndexExact)
    (h : Database.btreeLeadBy (db.indexes collection) lookup.fields = some index) :
    ∃ ids exceeded,
      indexScanOp db collection lookup = .ok (db.getDocumentsByIds collection ids, exceeded) ∧
      ids.Nodup ∧ ∀ id, id ∈ ids ↔
        ∃ entries ∈ scansMade indexResultThreshold 0
            (lookup.tests.map (db.entriesWhere collection index)),
          id ∈ entries.take (indexResultThreshold + 1) := by
  obtain ⟨hmem, hbtree, -⟩ := Database.of_btreeLeadBy h
  -- one scan: its first entries, which are distinct
  have hone : ∀ (r : ScanResult) (test : Bytes → Bool),
      r.docIds = (db.entriesWhere collection index test).take (indexResultThreshold + 1) →
      r.docIds.Nodup ∧ ∀ id, id ∈ r.docIds ↔
        ∃ entries ∈ scansMade indexResultThreshold 0 ([test].map (db.entriesWhere collection index)),
          id ∈ entries.take (indexResultThreshold + 1) := by
    intro r test hids
    rw [hids]
    refine ⟨(Database.entriesWhere_nodup hdb hmem hbtree test).take, fun id => ?_⟩
    rw [List.map_singleton, scansMade_singleton]
    simp
  cases lookup with
  | eq field value =>
    obtain ⟨r, hr, hids⟩ := Database.scanIndexEq_eq h indexResultThreshold value
    refine ⟨r.docIds, r.exceededLimit, ?_, hone r _ hids⟩
    simp only [indexScanOp, hr, Except.map]
  | range field op value =>
    obtain ⟨r, hr, hids⟩ := Database.scanIndexRange_eq h indexResultThreshold value op
    refine ⟨r.docIds, r.exceededLimit, ?_, hone r _ hids⟩
    simp only [indexScanOp, hr, Except.map]
  | rangeBetween field lower lowerInclusive upper upperInclusive =>
    obtain ⟨r, hr, hids⟩ := Database.scanIndexRangeBetween_eq h indexResultThreshold lower
      lowerInclusive upper upperInclusive
    refine ⟨r.docIds, r.exceededLimit, ?_, hone r _ hids⟩
    simp only [indexScanOp, hr, Except.map]
  | compoundEq fieldValues =>
    obtain ⟨r, hr, hids⟩ := Database.scanCompoundIndexEq_eq h indexResultThreshold
    refine ⟨r.docIds, r.exceededLimit, ?_, hone r _ hids⟩
    simp only [indexScanOp, hr, Except.map]
  | «in» field values =>
    -- sorted and deduplicated: the same ids, each once
    obtain ⟨r, hr, hids⟩ := scanIndexInLoop_eq h indexResultThreshold [] false values
    refine ⟨_, r.2, ?_, List.nodup_dedup (r.1.mergeSort fun a b =>
      (compare (utf8 a) (utf8 b)).isLE), fun id => ?_⟩
    · simp only [indexScanOp, Database.scanIndexIn, hr, Except.map]
    · rw [List.mem_dedup, List.mem_mergeSort, hids, List.nil_append, List.mem_flatMap,
        IndexLookup.tests, List.map_map]
      rfl

theorem withinThreshold_iff {lookup : IndexLookup} (hdb : db.IndexExact)
    (hindex : index ∈ db.indexes collection) (hbtree : index.indexType = .btree) :
    WithinThreshold db collection index lookup ↔
      ∀ test ∈ lookup.tests, ∀ id ∈ db.entriesWhere collection index test,
        ∃ entries ∈ scansMade indexResultThreshold 0
            (lookup.tests.map (db.entriesWhere collection index)),
          id ∈ entries.take (indexResultThreshold + 1) := by
  -- of one scan all entries are kept exactly if there are not too many
  have hone : ∀ test, (db.entriesWhere collection index test).length ≤ indexResultThreshold + 1 ↔
      ∀ id ∈ db.entriesWhere collection index test,
        ∃ entries ∈ scansMade indexResultThreshold 0 ([test].map (db.entriesWhere collection index)),
          id ∈ entries.take (indexResultThreshold + 1) := by
    intro test
    have hnodup := Database.entriesWhere_nodup hdb hindex hbtree test
    rw [List.map_singleton, scansMade_singleton]
    simp only [List.mem_singleton, exists_eq_left]
    refine ⟨fun hlen id hid => by rwa [List.take_of_length_le hlen], fun hall => ?_⟩
    have hsub : db.entriesWhere collection index test ⊆
        (db.entriesWhere collection index test).take (indexResultThreshold + 1) := hall
    exact (hnodup.length_le_of_subset hsub).trans (List.length_take_le _ _)
  cases lookup with
  | «in» field values =>
    simp only [WithinThreshold, IndexLookup.tests, List.forall_mem_map, List.map_map]
    rfl
  | _ => simpa only [WithinThreshold, IndexLookup.tests, List.forall_mem_singleton] using hone _

/-- A lookup yields every document that matches it, each exactly once, exactly if the matches
stay within the threshold. -/
theorem indexScanOp_complete_iff {lookup : IndexLookup} (hdb : db.IndexExact)
    (h : Database.btreeLeadBy (db.indexes collection) lookup.fields = some index) :
    (∃ docs exceeded, indexScanOp db collection lookup = .ok (docs, exceeded) ∧ docs.Nodup ∧
      ∀ d, d ∈ docs ↔ db.Stored collection d ∧ lookup.Matches index d) ↔
      WithinThreshold db collection index lookup := by
  obtain ⟨hmem, hbtree, -⟩ := Database.of_btreeLeadBy h
  obtain ⟨ids, exceeded, hop, hnodup, hids⟩ := indexScanOp_docs hdb h
  rw [withinThreshold_iff hdb hmem hbtree]
  refine ⟨?_, fun hall => ⟨_, exceeded, hop, getDocumentsByIds_nodup hnodup, fun d => ?_⟩⟩
  · rintro ⟨docs, exceeded', hop', -, hdocs⟩ test htest id hid
    rw [hop, Except.ok.injEq, Prod.mk.injEq] at hop'
    obtain ⟨d, hd, hpass, rfl⟩ := (Database.mem_entriesWhere hdb hmem hbtree).mp hid
    have hmatch := (hdocs d).mpr ⟨hd, test, htest, hpass⟩
    rw [← hop'.1, mem_getDocumentsByIds] at hmatch
    exact (hids d.key).mp hmatch.2
  · rw [mem_getDocumentsByIds]
    refine and_congr_right fun hd => (hids d.key).trans ⟨?_, ?_⟩
    · rintro ⟨entries, hentries, hkey⟩
      obtain ⟨test, htest, rfl⟩ := List.mem_map.mp (scansMade_subset _ _ _ entries hentries)
      exact ⟨test, htest, (Database.key_mem_entriesWhere hdb hmem hbtree hd).mp
        (List.mem_of_mem_take hkey)⟩
    · rintro ⟨test, htest, hpass⟩
      exact hall test htest d.key
        ((Database.key_mem_entriesWhere hdb hmem hbtree hd).mpr hpass)

end Scans

/-! ## A shelf of equal items -/

namespace Shelf

open StellarDb.Star (name name_injective)
open Stock (single)

local instance : External := .standIn

theorem item_wf : (Value.object [("a", .int 1)]).wf = true := by decide

/-- The `i`-th item; all have `a = 1`. -/
def item (i : Nat) : Document where
  id := "items:" ++ name i
  fields := [("a", .int 1)]
  wf := item_wf

theorem item_key (i : Nat) : (item i).key = name i := by
  unfold Document.key
  simp [item, splitOnce, String.toList_append]

theorem item_keyBytes_injective : Function.Injective fun i => (item i).keyBytes := by
  intro i j hij
  have hkey : (item i).key = (item j).key := utf8_injective hij
  rw [item_key, item_key] at hkey
  exact name_injective hkey

theorem item_entry (i : Nat) :
    buildIndexKey (item i) ["a"] = some (encodeIndexKey [.int 1] (item i).key) := rfl

/-- The first `n` items. -/
def shelf (n : Nat) : CollectionKeyspaces :=
  (List.range n).foldl (fun ks i => ks.putDoc (item i)) .empty

/-- Their index entries. -/
def entries (n : Nat) : Keyspace Unit :=
  (List.range n).foldl (fun ks i => ks.insert (encodeIndexKey [.int 1] (item i).key) ()) ∅

def stocked (n : Nat) : Database where
  keyspaces c := if c = "items" then some (shelf n) else none
  indexes c := if c = "items" then [single] else []
  indexKeyspaces name := if name = indexKeyspaceName "items" single.name then entries n else ∅
  edges := ⟨[], fun _ => ∅⟩

theorem getElem?_shelf (n : Nat) (k : Bytes) (d : Document) :
    (shelf n).docs[k]? = some d ↔ ∃ i < n, (item i).keyBytes = k ∧ item i = d := by
  induction n with
  | zero => simp [shelf, CollectionKeyspaces.empty]
  | succ n ih =>
    have hsucc : (shelf (n + 1)).docs = (shelf n).docs.insert (item n).keyBytes (item n) := by
      simp [shelf, List.range_succ, CollectionKeyspaces.putDoc]
    rw [hsucc, getElem?_insert_eq]
    split
    · next hk =>
      refine ⟨fun h => ⟨n, by omega, hk, Option.some.inj h⟩, ?_⟩
      rintro ⟨i, -, hik, rfl⟩
      rw [item_keyBytes_injective (hik.trans hk.symm)]
    · next hk =>
      rw [ih]
      constructor
      · rintro ⟨i, hi, h⟩
        exact ⟨i, by omega, h⟩
      · rintro ⟨i, hi, hik, hd⟩
        have hne : i ≠ n := by
          rintro rfl
          exact hk hik
        exact ⟨i, by omega, hik, hd⟩

theorem getElem?_entries (n : Nat) (k : Bytes) :
    (entries n)[k]? = some () ↔ ∃ i < n, encodeIndexKey [.int 1] (item i).key = k := by
  induction n with
  | zero => simp [entries]
  | succ n ih =>
    have hsucc : entries (n + 1) =
        (entries n).insert (encodeIndexKey [.int 1] (item n).key) () := by
      simp [entries, List.range_succ]
    rw [hsucc, getElem?_insert_eq]
    split
    · next hk => exact ⟨fun _ => ⟨n, by omega, hk⟩, fun _ => rfl⟩
    · next hk =>
      rw [ih]
      refine ⟨fun ⟨i, hi, h⟩ => ⟨i, by omega, h⟩, ?_⟩
      rintro ⟨i, hi, hik⟩
      have hne : i ≠ n := by
        rintro rfl
        exact hk hik
      exact ⟨i, by omega, hik⟩

theorem stored_stocked (n : Nat) (d : Document) :
    (stocked n).Stored "items" d ↔ ∃ i < n, item i = d := by
  have hget : (stocked n).getDocument "items" d.keyBytes = (shelf n).docs[d.keyBytes]? := rfl
  unfold Database.Stored
  rw [hget, getElem?_shelf]
  refine ⟨fun ⟨i, hi, _, h⟩ => ⟨i, hi, h⟩, ?_⟩
  rintro ⟨i, hi, rfl⟩
  exact ⟨i, hi, rfl, rfl⟩

theorem stocked_indexExact (n : Nat) : (stocked n).IndexExact := by
  intro c i hi _ k
  by_cases hc : c = "items"
  · subst hc
    obtain rfl : i = single := by simpa [stocked] using hi
    have hks : (stocked n).indexKeyspaces (indexKeyspaceName "items" single.name) = entries n := by
      simp [stocked]
    rw [hks, getElem?_entries]
    refine ⟨?_, ?_⟩
    · rintro ⟨i, hi, rfl⟩
      exact ⟨_, item i, (getElem?_shelf n _ _).mpr ⟨i, hi, rfl, rfl⟩, item_entry i⟩
    · rintro ⟨key, d, hd, hbuild⟩
      obtain ⟨i, hi, -, rfl⟩ := (getElem?_shelf n key d).mp hd
      exact ⟨i, hi, Option.some.inj ((item_entry i).symm.trans hbuild)⟩
  · simp [stocked, hc] at hi

/-- `a = 1` -/
def aIsOne : IndexLookup := .eq "a" (.int 1)

theorem stocked_lead (n : Nat) :
    Database.btreeLeadBy ((stocked n).indexes "items") aIsOne.fields = some single := rfl

theorem item_matches (i : Nat) : aIsOne.Matches single (item i) := by
  refine ⟨_, List.mem_cons_self, _, item_entry i, List.isPrefixOf_iff_prefix.mpr ?_⟩
  exact List.prefix_append _ _

/-- Of 1002 matching documents a lookup yields 1001 at most. -/
theorem lookup_1002_incomplete :
    (stocked 1002).IndexExact ∧
      (∀ i < 1002, (stocked 1002).Stored "items" (item i) ∧ aIsOne.Matches single (item i)) ∧
      ∃ docs exceeded, indexScanOp (stocked 1002) "items" aIsOne = .ok (docs, exceeded) ∧
        ∃ i < 1002, item i ∉ docs := by
  obtain ⟨ids, exceeded, hop, hnodup, hids⟩ :=
    indexScanOp_docs (stocked_indexExact 1002) (stocked_lead 1002)
  refine ⟨stocked_indexExact 1002, fun i hi => ⟨(stored_stocked 1002 _).mpr ⟨i, hi, rfl⟩,
    item_matches i⟩, _, exceeded, hop, ?_⟩
  by_contra hall
  push Not at hall
  have hlen : ids.length ≤ 1001 := by
    have hsub : ids ⊆ ((stocked 1002).entriesWhere "items" single
        (BTreeIndex.withPrefix (encodeIndexPrefix [.int 1]))).take 1001 := by
      intro id hid
      obtain ⟨entries, hentries, hmem⟩ := (hids id).mp hid
      have hone := scansMade_subset _ _ _ entries hentries
      rwa [List.mem_singleton.mp hone] at hmem
    exact (hnodup.length_le_of_subset hsub).trans (List.length_take_le _ _)
  have hnames : ((List.range 1002).map name).Nodup := List.nodup_range.map name_injective
  have hsub : (List.range 1002).map name ⊆ ids := by
    intro id hid
    obtain ⟨i, hi, rfl⟩ := List.mem_map.mp hid
    have hmem := (mem_getDocumentsByIds.mp (hall i (List.mem_range.mp hi))).2
    rwa [item_key] at hmem
  have hle := hnames.length_le_of_subset hsub
  rw [List.length_map, List.length_range] at hle
  omega

/-- Two matching documents are within the threshold. -/
theorem lookup_two_complete :
    WithinThreshold (stocked 2) "items" single aIsOne ∧
      ∃ docs exceeded, indexScanOp (stocked 2) "items" aIsOne = .ok (docs, exceeded) ∧ docs.Nodup ∧
        ∀ d, d ∈ docs ↔ (stocked 2).Stored "items" d ∧ aIsOne.Matches single d := by
  have hwithin : WithinThreshold (stocked 2) "items" single aIsOne := by
    intro test htest
    obtain rfl := List.mem_singleton.mp htest
    decide +kernel
  exact ⟨hwithin, (indexScanOp_complete_iff (stocked_indexExact 2) (stocked_lead 2)).mpr hwithin⟩

end Shelf

end StellarDb
