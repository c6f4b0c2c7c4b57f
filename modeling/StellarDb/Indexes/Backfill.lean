import StellarDb.Batch.Documents
import StellarDb.Indexes.Exact
import StellarDb.Lib.Chunking

/-!
# StellarDb — building a BTree index from the stored documents (`storage/database.rs`)

`build_btree_from_serialized` reads the documents of a collection in serialized form and fills
an index keyspace and, for a unique index, a lock keyspace. Its loops cut the input at four
places: into chunks by count and size (one document too large for the chunk is kept for the
next), over the workers, by index key after sorting, and into write batches by size.

`BuildState.Holds` says what a list of documents leaves in the two keyspaces. One chunk takes it
from the documents before to those and the chunk (`Holds.buildChunk`), or finds two documents
with one lock; so does the whole build (`Holds.buildLoop`), whatever the configuration.
-/

namespace StellarDb

open Keyspaces Ownership Chunking

/-- `usize::saturating_add` -/
def saturatingAdd (a b : Nat) : Nat := min (a + b) (2 ^ 64 - 1)

/-- Limits of an index build, as `validate` accepts them (it asks for a larger budget still). -/
structure IndexBuildConfig where
  chunkSize : Nat
  memoryBudgetBytes : Nat
  workerCount : Nat
  chunkSize_pos : 0 < chunkSize
  memoryBudgetBytes_pos : 0 < memoryBudgetBytes
  workerCount_pos : 0 < workerCount

/-- Milestones of an index build. -/
inductive IndexBuildEvent where
  | building (processedItems : Nat)
  | committing
  | validatingUnique
  deriving DecidableEq, Repr

structure PreparedEntry where
  indexKey : Option Bytes
  uniqueLock : Option (Bytes × Bytes)

/-- Size of what an entry adds to a write batch. -/
def PreparedEntry.bytes (entry : PreparedEntry) : Nat :=
  (entry.indexKey.map List.length).getD 0 +
    (entry.uniqueLock.map fun lock => 16 + lock.2.length).getD 0

/-- What the build writes to, and the milestones it has reported. -/
structure BuildState where
  indexKeyspace : Keyspace Unit
  uniqueKeyspace : Option (Keyspace Bytes)
  events : List IndexBuildEvent

/-- The caller's callback, which may depend on all it was told before. -/
abbrev Progress := List IndexBuildEvent → Bool

/-! ## Reading a chunk -/

/-- The serialized documents still to be read: the one put back, and the iterator. -/
structure RawSource where
  pending : Option Bytes
  docs : List Bytes

namespace RawSource

/-- What is still to come, in order. -/
def items (source : RawSource) : List Bytes := source.pending.toList ++ source.docs

/-- `pending.take()`, else `docs.next()` -/
def next (source : RawSource) : Option (Bytes × RawSource) :=
  match source.pending with
  | some bytes => some (bytes, { source with pending := none })
  | none =>
    match source.docs with
    | [] => none
    | bytes :: docs => some (bytes, { source with docs := docs })

theorem next_none {source : RawSource} (h : source.next = none) : source.items = [] := by
  obtain ⟨pending, docs⟩ := source
  cases pending with
  | some b => cases h
  | none =>
    cases docs with
    | nil => rfl
    | cons b bs => cases h

theorem next_some {source rest : RawSource} {bytes : Bytes} (h : source.next = some (bytes, rest)) :
    source.items = bytes :: rest.items ∧ rest.pending = none := by
  obtain ⟨pending, docs⟩ := source
  cases pending with
  | some b =>
    cases h
    exact ⟨rfl, rfl⟩
  | none =>
    cases docs with
    | nil => cases h
    | cons b bs =>
      cases h
      exact ⟨rfl, rfl⟩

end RawSource

/-- Fill a chunk of `slots` more documents; `rawBytes` is its size, `none` while it is empty. A
document that does not fit is put back. -/
def fillChunk (rawBudget : Nat) : Nat → Option Nat → RawSource → List Bytes × RawSource
  | 0, _, source => ([], source)
  | slots + 1, rawBytes, source =>
    match source.next with
    | none => ([], source)
    | some (bytes, rest) =>
      let total := saturatingAdd (rawBytes.getD 0) bytes.length
      if rawBytes.isSome && rawBudget < total then ([], { rest with pending := some bytes })
      else
        let (chunk, rest) := fillChunk rawBudget slots (some total) rest
        (bytes :: chunk, rest)

/-- Nothing is lost or doubled at the end of a chunk. -/
theorem fillChunk_items (rawBudget slots : Nat) (rawBytes : Option Nat) (source : RawSource) :
    (fillChunk rawBudget slots rawBytes source).1 ++
      (fillChunk rawBudget slots rawBytes source).2.items = source.items := by
  induction slots generalizing rawBytes source with
  | zero => rfl
  | succ slots ih =>
    rw [fillChunk]
    cases hnext : source.next with
    | none => rfl
    | some next =>
      obtain ⟨bytes, rest⟩ := next
      obtain ⟨hitems, hpending⟩ := RawSource.next_some hnext
      dsimp only
      split
      · rw [hitems]
        show bytes :: rest.docs = bytes :: (rest.pending.toList ++ rest.docs)
        rw [hpending]
        rfl
      · rw [hitems]
        exact congrArg (bytes :: ·) (ih _ rest)

/-- A chunk with room for a document is empty only at the end of the input. -/
theorem fillChunk_eq_nil {rawBudget slots : Nat} {source : RawSource} (hslots : 0 < slots)
    (h : (fillChunk rawBudget slots none source).1 = []) : source.items = [] := by
  obtain ⟨slots, rfl⟩ := Nat.exists_eq_succ_of_ne_zero hslots.ne'
  rw [fillChunk] at h
  cases hnext : source.next with
  | none => exact RawSource.next_none hnext
  | some next =>
    rw [hnext] at h
    cases h

/-! ## Preparing the entries of a chunk -/

section Build

variable [External]

/-- The entry of one document; locks are taken only for a unique index. -/
def prepareEntry (index : IndexDef) (unique : Bool) (doc : Document) : PreparedEntry where
  indexKey := buildIndexKey doc index.fields
  uniqueLock :=
    if unique then
      (getFieldValueForIndex doc index.fields).map fun value =>
        (computeUniqueLockKey (joinFields index.fields) value, doc.keyBytes)
    else none

/-- `rkyv::from_bytes`, then the entry. -/
def prepareRaw (decode : Bytes → Except StorageError Document) (index : IndexDef) (unique : Bool)
    (raw : Bytes) : Except StorageError PreparedEntry := do
  let doc ← decode raw
  return prepareEntry index unique doc

/-- The workers prepare one piece of the chunk each; their results are joined in order. -/
def prepareChunk (config : IndexBuildConfig) (decode : Bytes → Except StorageError Document)
    (index : IndexDef) (unique : Bool) (rawChunk : List Bytes) :
    Except StorageError (List PreparedEntry) :=
  let workerCount := min config.workerCount rawChunk.length
  let perWorker := (rawChunk.length + workerCount - 1) / workerCount
  List.flatten <$> (chunks perWorker rawChunk).mapM (List.mapM (prepareRaw decode index unique))

omit [External] in
/-- `prepared.sort_unstable_by`: entries without a key come first, equal keys in any order. -/
def sortPrepared (order : IterOrder) (prepared : List PreparedEntry) : List PreparedEntry :=
  (order.iter prepared).mergeSort fun a b => (compare a.indexKey b.indexKey).isLE

omit [External] in
/-- `locks.sort_unstable_by_key` -/
def sortLocks (order : IterOrder) (locks : List (Bytes × Bytes)) : List (Bytes × Bytes) :=
  (order.iter locks).mergeSort fun a b => (compare a.1 b.1).isLE

omit [External] in
def duplicateValue (index : IndexDef) : StorageError :=
  .conflict ("Duplicate value for unique index on " ++ debugStrings index.fields)

omit [External] in
/-- Two locks of the chunk with one key, or a lock that another document already holds. -/
def checkUnique (order : IterOrder) (index : IndexDef) (uniqueKeyspace : Option (Keyspace Bytes))
    (prepared : List PreparedEntry) : Except StorageError Unit :=
  match uniqueKeyspace with
  | none => .ok ()
  | some written =>
    let locks := sortLocks order (prepared.filterMap (·.uniqueLock))
    if (windows locks).any fun pair => pair.1.1 = pair.2.1 && pair.1.2 != pair.2.2 then
      .error (duplicateValue index)
    else if locks.any fun lock =>
        match written[lock.1]? with
        | some existing => existing != lock.2
        | none => false then
      .error (duplicateValue index)
    else .ok ()

/-! ## Writing the entries -/

namespace BuildState

omit [External] in
/-- Report a milestone; the build ends here if the callback says so. -/
def report (progress : Progress) (s : BuildState) (event : IndexBuildEvent) :
    BuildState × Body Bool Unit :=
  ({ s with events := s.events ++ [event] },
    if progress (s.events ++ [event]) then .ok () else .error (.ok false))

omit [External] in
/-- Commit one write batch. -/
def commitBatch (s : BuildState) (batch : List PreparedEntry) : BuildState where
  indexKeyspace :=
    s.indexKeyspace.applyWrites (batch.filterMap fun e => e.indexKey.map fun k => (k, some ()))
  uniqueKeyspace := s.uniqueKeyspace.map fun written =>
    written.applyWrites (batch.filterMap fun e => e.uniqueLock.map fun l => (l.1, some l.2))
  events := s.events

end BuildState

omit [External] in
/-- The entries that go into a batch of `batchBytes` so far, and those that wait. -/
def cutBatch (budget : Nat) : Nat → List PreparedEntry → List PreparedEntry × List PreparedEntry
  | _, [] => ([], [])
  | batchBytes, entry :: entries =>
    let total := saturatingAdd batchBytes entry.bytes
    if budget < total then ([], entry :: entries)
    else
      let (batch, rest) := cutBatch budget total entries
      (entry :: batch, rest)

omit [External] in
theorem cutBatch_append (budget batchBytes : Nat) (entries : List PreparedEntry) :
    (cutBatch budget batchBytes entries).1 ++ (cutBatch budget batchBytes entries).2 =
      entries := by
  induction entries generalizing batchBytes with
  | nil => rfl
  | cons entry entries ih =>
    rw [cutBatch]
    dsimp only
    split
    · rfl
    · exact congrArg (entry :: ·) (ih _)

omit [External] in
theorem cutBatch_length (budget batchBytes : Nat) (entries : List PreparedEntry) :
    (cutBatch budget batchBytes entries).2.length ≤ entries.length := by
  have h := congrArg List.length (cutBatch_append budget batchBytes entries)
  rw [List.length_append] at h
  omega

omit [External] in
/-- Write the entries in batches; the first entry of a batch always goes in. -/
def writeBatches (config : IndexBuildConfig) (progress : Progress) (processedItems : Nat) :
    List PreparedEntry → BuildState → BuildState × Body Bool Unit
  | [], s => (s, .ok ())
  | entry :: entries, s =>
    match s.report progress (.building processedItems) with
    | (s, .error r) => (s, .error r)
    | (s, .ok ()) =>
      let cut := cutBatch config.memoryBudgetBytes (saturatingAdd 0 entry.bytes) entries
      writeBatches config progress processedItems cut.2 (s.commitBatch (entry :: cut.1))
termination_by entries => entries.length
decreasing_by
  have := cutBatch_length config.memoryBudgetBytes (saturatingAdd 0 entry.bytes) entries
  simp only [List.length_cons]
  omega

/-! ## The build -/

/-- Prepare, check and write one chunk. -/
def buildChunk (config : IndexBuildConfig) (order : IterOrder) (progress : Progress)
    (decode : Bytes → Except StorageError Document) (index : IndexDef) (rawChunk : List Bytes)
    (processedItems : Nat) (s : BuildState) : BuildState × Body Bool Unit :=
  match prepareChunk config decode index s.uniqueKeyspace.isSome rawChunk with
  | .error e => (s, .error (.error e))
  | .ok prepared =>
    let prepared := sortPrepared order prepared
    match checkUnique order index s.uniqueKeyspace prepared with
    | .error e => (s, .error (.error e))
    | .ok () =>
      match s.report progress (.building processedItems) with
      | (s, .error r) => (s, .error r)
      | (s, .ok ()) =>
        match writeBatches config progress processedItems prepared s with
        | (s, .error r) => (s, .error r)
        | (s, .ok ()) => s.report progress (.building (processedItems + rawChunk.length))

def buildLoop (config : IndexBuildConfig) (order : IterOrder) (progress : Progress)
    (decode : Bytes → Except StorageError Document) (index : IndexDef) (source : RawSource)
    (processedItems : Nat) (s : BuildState) : BuildState × Except StorageError Bool :=
  match s.report progress (.building processedItems) with
  | (s, .error r) => (s, r)
  | (s, .ok ()) =>
    match _hchunk : fillChunk (max (config.memoryBudgetBytes / 2) 1) config.chunkSize none source with
    | ([], _) =>
      match s.report progress .committing with
      | (s, .error r) => (s, r)
      | (s, .ok ()) => (s, .ok true)
    | (raw :: raws, rest) =>
      match buildChunk config order progress decode index (raw :: raws) processedItems s with
      | (s, .error r) => (s, r)
      | (s, .ok ()) =>
        buildLoop config order progress decode index rest
          (processedItems + (raw :: raws).length) s
termination_by source.items.length
decreasing_by
  have h := fillChunk_items (max (config.memoryBudgetBytes / 2) 1) config.chunkSize none source
  rw [_hchunk] at h
  rw [← h]
  simp only [List.cons_append, List.length_cons, List.length_append]
  omega

/-- Build a BTree index of a collection into the given keyspaces. -/
def buildBTreeFromSerialized (config : IndexBuildConfig) (order : IterOrder)
    (encode : Document → Bytes) (decode : Bytes → Except StorageError Document)
    (db : Database) (collection : String) (index : IndexDef) (indexKeyspace : Keyspace Unit)
    (uniqueKeyspace : Option (Keyspace Bytes)) (progress : Progress) :
    BuildState × Except StorageError Bool :=
  let s : BuildState := ⟨indexKeyspace, uniqueKeyspace, []⟩
  match db.keyspaces collection with
  | none => (s, .error (.collectionNotLoaded "collection not found"))
  | some ks =>
    -- `iter_serialized`: the stored values in key order
    let docs := ks.docs.toList.map fun entry => encode entry.2
    buildLoop config order progress decode index ⟨none, docs⟩ 0 s

/-! ## The entries of a list of documents -/

/-- Two documents of one key need the lock of the index. -/
def SharesLock (index : IndexDef) (d d' : Document) : Prop :=
  ∃ l, lockOf index d = some l ∧ lockOf index d' = some l

/-- Documents with different keys need different locks. -/
def DistinctLocks (index : IndexDef) (docs : List Document) : Prop :=
  ∀ d ∈ docs, ∀ d' ∈ docs, SharesLock index d d' → d.keyBytes = d'.keyBytes

theorem DistinctLocks.of_append {index : IndexDef} {docs docs' : List Document}
    (h : DistinctLocks index (docs ++ docs')) : DistinctLocks index docs :=
  fun d hd d' hd' => h d (List.mem_append_left _ hd) d' (List.mem_append_left _ hd')

theorem prepareChunk_eq (config : IndexBuildConfig) {encode : Document → Bytes}
    {decode : Bytes → Except StorageError Document} {docs : List Document}
    (hcodec : ∀ d ∈ docs, decode (encode d) = .ok d) (index : IndexDef) (unique : Bool) :
    prepareChunk config decode index unique (docs.map encode) =
      .ok (docs.map (prepareEntry index unique)) := by
  -- a raw document that decodes gives the entry of the document it decodes to
  let entryOf (raw : Bytes) : PreparedEntry :=
    match decode raw with
    | .ok doc => prepareEntry index unique doc
    | .error _ => ⟨none, none⟩
  have hraw : ∀ raw ∈ docs.map encode, prepareRaw decode index unique raw = .ok (entryOf raw) := by
    intro raw hmem
    obtain ⟨d, hd, rfl⟩ := List.mem_map.mp hmem
    simp only [prepareRaw, entryOf, hcodec d hd]
    rfl
  refine (flatten_mapM_chunks hraw).trans ?_
  rw [List.map_map]
  refine congrArg Except.ok (List.map_congr_left fun d hd => ?_)
  simp only [Function.comp_apply, entryOf, hcodec d hd]

omit [External] in
theorem sortPrepared_perm (order : IterOrder) (prepared : List PreparedEntry) :
    (sortPrepared order prepared).Perm prepared :=
  (List.mergeSort_perm _ _).trans (order.perm prepared)

omit [External] in
theorem sortLocks_perm (order : IterOrder) (locks : List (Bytes × Bytes)) :
    (sortLocks order locks).Perm locks :=
  (List.mergeSort_perm _ _).trans (order.perm locks)

theorem mem_locks {index : IndexDef} {docs : List Document} {entries : List PreparedEntry}
    (hentries : entries.Perm (docs.map (prepareEntry index true))) {l owner : Bytes} :
    (l, owner) ∈ entries.filterMap (·.uniqueLock) ↔
      ∃ d ∈ docs, lockOf index d = some l ∧ d.keyBytes = owner := by
  rw [(hentries.filterMap _).mem_iff, List.filterMap_map, List.mem_filterMap]
  refine exists_congr fun d => and_congr_right fun _ => ?_
  show Option.map _ (getFieldValueForIndex d index.fields) = some (l, owner) ↔
    Option.map _ (getFieldValueForIndex d index.fields) = some l ∧ _
  cases getFieldValueForIndex d index.fields with
  | none => simp
  | some value => simp

theorem mem_indexKeys {index : IndexDef} {unique : Bool} {docs : List Document}
    {entries : List PreparedEntry}
    (hentries : entries.Perm (docs.map (prepareEntry index unique))) {k : Bytes} :
    (k, ()) ∈ entries.filterMap (fun e => e.indexKey.map fun k => (k, ())) ↔
      ∃ d ∈ docs, buildIndexKey d index.fields = some k := by
  rw [(hentries.filterMap _).mem_iff, List.filterMap_map, List.mem_filterMap]
  refine exists_congr fun d => and_congr_right fun _ => ?_
  show Option.map _ (buildIndexKey d index.fields) = some (k, ()) ↔ _
  cases buildIndexKey d index.fields with
  | none => simp
  | some key => simp

namespace BuildState

/-- What the documents `docs` leave in the two keyspaces. -/
structure Holds (index : IndexDef) (docs : List Document) (s : BuildState) : Prop where
  entries : ∀ k, s.indexKeyspace[k]? = some () ↔
    ∃ d ∈ docs, buildIndexKey d index.fields = some k
  locks : ∀ written, s.uniqueKeyspace = some written → ∀ l owner : Bytes,
    written[l]? = some owner ↔ ∃ d ∈ docs, lockOf index d = some l ∧ d.keyBytes = owner

theorem holds_empty (index : IndexDef) (unique : Bool) :
    Holds index [] ⟨∅, if unique then some ∅ else none, []⟩ := by
  constructor
  · intro k
    rw [Std.ExtTreeMap.getElem?_empty]
    simp
  · intro written hwritten l owner
    dsimp only at hwritten
    split at hwritten
    · rw [← Option.some.inj hwritten, Std.ExtTreeMap.getElem?_empty]
      simp
    · cases hwritten

variable {index : IndexDef} {docs chunk : List Document} {s : BuildState}

/-- A chunk passes the check exactly if it brings no lock that another document needs too. -/
theorem Holds.checkUnique_iff (h : s.Holds index docs) {written : Keyspace Bytes}
    (hwritten : s.uniqueKeyspace = some written) (hdocs : DistinctLocks index docs)
    (order : IterOrder) {prepared : List PreparedEntry}
    (hprepared : prepared.Perm (chunk.map (prepareEntry index true))) :
    checkUnique order index s.uniqueKeyspace prepared = .ok () ↔
      DistinctLocks index (docs ++ chunk) := by
  have hmem : ∀ {l owner : Bytes}, (l, owner) ∈ sortLocks order (prepared.filterMap (·.uniqueLock)) ↔
      ∃ d ∈ chunk, lockOf index d = some l ∧ d.keyBytes = owner :=
    ((sortLocks_perm order _).mem_iff).trans (mem_locks hprepared)
  have hsorted := pairwise_mergeSort_by Prod.fst (order.iter (prepared.filterMap (·.uniqueLock)))
  rw [hwritten]
  show (if _ then _ else if _ then _ else _) = _ ↔ _
  constructor
  · intro hok
    split at hok
    · cases hok
    next hwindows =>
    split at hok
    · cases hok
    next hforeign =>
    have hagree := agree_of_windows Prod.fst Prod.snd hsorted (by
      intro w hw hkey
      by_contra hne
      exact hwindows (List.any_eq_true.mpr ⟨w, hw, by simp [hkey, hne]⟩))
    have hold : ∀ d ∈ docs, ∀ d' ∈ chunk, SharesLock index d d' → d.keyBytes = d'.keyBytes := by
      rintro d hd d' hd' ⟨l, hl, hl'⟩
      have hstored : written[l]? = some d.keyBytes := (h.locks _ hwritten l _).mpr ⟨d, hd, hl, rfl⟩
      by_contra hne
      refine hforeign (List.any_eq_true.mpr ⟨(l, d'.keyBytes), hmem.mpr ⟨d', hd', hl', rfl⟩, ?_⟩)
      dsimp only
      rw [hstored]
      exact bne_iff_ne.mpr hne
    have hnew : ∀ d ∈ chunk, ∀ d' ∈ chunk, SharesLock index d d' → d.keyBytes = d'.keyBytes := by
      rintro d hd d' hd' ⟨l, hl, hl'⟩
      exact hagree (l, d.keyBytes) (hmem.mpr ⟨d, hd, hl, rfl⟩) (l, d'.keyBytes)
        (hmem.mpr ⟨d', hd', hl', rfl⟩) rfl
    intro d hd d' hd' hshare
    have hswap : SharesLock index d' d := let ⟨l, hl, hl'⟩ := hshare; ⟨l, hl', hl⟩
    rcases List.mem_append.mp hd with hd | hd <;> rcases List.mem_append.mp hd' with hd' | hd'
    · exact hdocs d hd d' hd' hshare
    · exact hold d hd d' hd' hshare
    · exact (hold d' hd' d hd hswap).symm
    · exact hnew d hd d' hd' hshare
  · intro hdistinct
    rw [if_neg, if_neg]
    · intro hany
      obtain ⟨⟨l, owner⟩, hlock, hforeign⟩ := List.any_eq_true.mp hany
      obtain ⟨d', hd', hl', rfl⟩ := hmem.mp hlock
      dsimp only at hforeign
      split at hforeign
      · next existing hexisting =>
        obtain ⟨d, hd, hl, rfl⟩ := (h.locks _ hwritten l existing).mp hexisting
        exact bne_iff_ne.mp hforeign (hdistinct d (List.mem_append_left _ hd) d'
          (List.mem_append_right _ hd') ⟨l, hl, hl'⟩)
      · cases hforeign
    · intro hany
      obtain ⟨⟨⟨l, owner⟩, ⟨l', owner'⟩⟩, hw, hclash⟩ := List.any_eq_true.mp hany
      obtain ⟨d, hd, hl, rfl⟩ := hmem.mp (mem_windows hw).1
      obtain ⟨d', hd', hl', rfl⟩ := hmem.mp (mem_windows hw).2
      simp only [Bool.and_eq_true, decide_eq_true_eq, bne_iff_ne] at hclash
      obtain ⟨rfl, hne⟩ := hclash
      exact hne (hdistinct d (List.mem_append_right _ hd) d' (List.mem_append_right _ hd')
        ⟨l, hl, hl'⟩)

omit [External] in
/-- The only refusal of the check. -/
theorem checkUnique_error {order : IterOrder} {index : IndexDef}
    {uniqueKeyspace : Option (Keyspace Bytes)} {prepared : List PreparedEntry}
    (h : checkUnique order index uniqueKeyspace prepared ≠ .ok ()) :
    checkUnique order index uniqueKeyspace prepared = .error (duplicateValue index) := by
  revert h
  unfold checkUnique
  split
  · exact fun h => absurd rfl h
  · dsimp only
    split
    · exact fun _ => rfl
    · split
      · exact fun _ => rfl
      · exact fun h => absurd rfl h

omit [External] in
theorem commitBatch_append (s : BuildState) (batch batch' : List PreparedEntry) :
    (s.commitBatch batch).commitBatch batch' = s.commitBatch (batch ++ batch') := by
  simp only [commitBatch, List.filterMap_append, Keyspace.applyWrites_append, Option.map_map]
  rfl

/-- The entries of a chunk are there after they are written. -/
theorem Holds.commitBatch (h : s.Holds index docs) {entries : List PreparedEntry}
    (hentries : entries.Perm (chunk.map (prepareEntry index s.uniqueKeyspace.isSome)))
    (hdistinct : s.uniqueKeyspace.isSome → DistinctLocks index (docs ++ chunk)) :
    (s.commitBatch entries).Holds index (docs ++ chunk) := by
  constructor
  · intro k
    have hwrites : entries.filterMap (fun e => e.indexKey.map fun k => (k, some ())) =
        (entries.filterMap fun e => e.indexKey.map fun k => (k, ())).map
          fun p => (p.1, some p.2) := by
      rw [List.map_filterMap]
      refine List.filterMap_congr fun e _ => ?_
      rw [Option.map_map]
      rfl
    show (s.indexKeyspace.applyWrites (entries.filterMap _))[k]? = some () ↔ _
    rw [hwrites, getElem?_applyWrites_inserts (fun _ _ _ _ _ => rfl) (fun _ _ _ _ => rfl),
      mem_indexKeys hentries, h.entries k, or_comm]
    simp only [List.mem_append, or_and_right, exists_or]
  · intro written hwritten l owner
    obtain ⟨old, hold, rfl⟩ := Option.map_eq_some_iff.mp hwritten
    rw [hold] at hentries hdistinct
    have hlocks : ∀ p ∈ entries.filterMap (·.uniqueLock),
        ∃ d ∈ chunk, lockOf index d = some p.1 ∧ d.keyBytes = p.2 :=
      fun p hp => (mem_locks hentries).mp hp
    have hwrites : entries.filterMap (fun e => e.uniqueLock.map fun l => (l.1, some l.2)) =
        (entries.filterMap (·.uniqueLock)).map fun p => (p.1, some p.2) := by
      rw [List.map_filterMap]
    rw [hwrites, getElem?_applyWrites_inserts, mem_locks hentries, h.locks _ hold, or_comm]
    · simp only [List.mem_append, or_and_right, exists_or]
    · intro p hp q hq hpq
      obtain ⟨d, hd, hl, hkey⟩ := hlocks p hp
      obtain ⟨d', hd', hl', hkey'⟩ := hlocks q hq
      rw [← hkey, ← hkey']
      exact hdistinct rfl d (List.mem_append_right _ hd) d' (List.mem_append_right _ hd')
        ⟨p.1, hl, hpq ▸ hl'⟩
    · intro p hp v hv
      obtain ⟨d, hd, hl, hkey⟩ := hlocks p hp
      obtain ⟨d', hd', hl', rfl⟩ := (h.locks _ hold p.1 v).mp hv
      rw [← hkey]
      exact hdistinct rfl d' (List.mem_append_left _ hd') d (List.mem_append_right _ hd)
        ⟨p.1, hl', hl⟩

omit [External] in
/-- The batches together write all entries. -/
theorem writeBatches_eq (config : IndexBuildConfig) (processedItems : Nat)
    (entries : List PreparedEntry) (s : BuildState) :
    ∃ events, writeBatches config (fun _ => true) processedItems entries s =
      ({ s.commitBatch entries with events := events }, .ok ()) := by
  fun_induction writeBatches config (fun _ => true) processedItems entries s with
  | case1 s =>
    refine ⟨s.events, ?_⟩
    obtain ⟨indexKeyspace, uniqueKeyspace, events⟩ := s
    cases uniqueKeyspace <;> rfl
  | case2 s entry entries s' r hreport => cases hreport
  | case3 s entry entries s' hreport cut ih =>
    obtain ⟨events, hrest⟩ := ih
    refine ⟨events, hrest.trans ?_⟩
    cases hreport
    rw [commitBatch_append, List.cons_append, cutBatch_append]
    rfl

/-! ## One chunk, and all of them -/

variable (config : IndexBuildConfig) (order : IterOrder) {encode : Document → Bytes}
  {decode : Bytes → Except StorageError Document}

omit [External] in
theorem Holds.withEvents [External] (h : s.Holds index docs) (events : List IndexBuildEvent) :
    Holds index docs { s with events := events } := ⟨h.entries, h.locks⟩

/-- The build may go on from `docs`: a unique index needs no lock twice. -/
def Passes (index : IndexDef) (docs : List Document) (s : BuildState) : Prop :=
  s.uniqueKeyspace.isSome = true → DistinctLocks index docs

theorem Holds.buildChunk_ok (h : s.Holds index docs)
    (hcodec : ∀ d ∈ chunk, decode (encode d) = .ok d) (hpasses : s.Passes index (docs ++ chunk))
    (processedItems : Nat) :
    ∃ s', buildChunk config order (fun _ => true) decode index (chunk.map encode) processedItems s
        = (s', .ok ()) ∧
      s'.Holds index (docs ++ chunk) ∧
      s'.uniqueKeyspace.isSome = s.uniqueKeyspace.isSome := by
  have hsorted := sortPrepared_perm order
    (chunk.map (prepareEntry index s.uniqueKeyspace.isSome))
  have hcheck : checkUnique order index s.uniqueKeyspace
      (sortPrepared order (chunk.map (prepareEntry index s.uniqueKeyspace.isSome))) = .ok () := by
    by_cases hunique : s.uniqueKeyspace.isSome
    · obtain ⟨written, hwritten⟩ := Option.isSome_iff_exists.mp hunique
      rw [hunique] at hsorted ⊢
      exact (h.checkUnique_iff hwritten (hpasses hunique).of_append order hsorted).mpr
        (hpasses hunique)
    · rw [Option.not_isSome_iff_eq_none.mp hunique]
      rfl
  obtain ⟨events, hwrite⟩ := writeBatches_eq config processedItems
    (sortPrepared order (chunk.map (prepareEntry index s.uniqueKeyspace.isSome)))
    { s with events := s.events ++ [.building processedItems] }
  refine ⟨_, ?_, ((h.commitBatch hsorted hpasses).withEvents
    (events ++ [.building (processedItems + (chunk.map encode).length)])), ?_⟩
  · rw [buildChunk, prepareChunk_eq config hcodec]
    dsimp only
    rw [hcheck]
    simp only [report, if_true]
    rw [hwrite]
    rfl
  · show (Option.map _ s.uniqueKeyspace).isSome = _
    rw [Option.isSome_map]

theorem Holds.buildChunk_error (h : s.Holds index docs)
    (hcodec : ∀ d ∈ chunk, decode (encode d) = .ok d) (hdocs : s.Passes index docs)
    (hpasses : ¬ s.Passes index (docs ++ chunk)) (processedItems : Nat) :
    buildChunk config order (fun _ => true) decode index (chunk.map encode) processedItems s =
      (s, .error (.error (duplicateValue index))) := by
  have hsorted := sortPrepared_perm order
    (chunk.map (prepareEntry index s.uniqueKeyspace.isSome))
  have hcheck : checkUnique order index s.uniqueKeyspace
      (sortPrepared order (chunk.map (prepareEntry index s.uniqueKeyspace.isSome))) ≠ .ok () := by
    intro hok
    refine hpasses fun hunique => ?_
    obtain ⟨written, hwritten⟩ := Option.isSome_iff_exists.mp hunique
    rw [hunique] at hsorted hok
    exact (h.checkUnique_iff hwritten (hdocs hunique) order hsorted).mp hok
  rw [buildChunk, prepareChunk_eq config hcodec]
  dsimp only
  rw [checkUnique_error hcheck]

/-- How the build ends: with all documents, or at the first chunk with a lock needed twice. -/
theorem Holds.buildLoop (h : s.Holds index docs) (hdocs : s.Passes index docs)
    {source : RawSource} {rest : List Document} (hsource : source.items = rest.map encode)
    (hcodec : ∀ d ∈ rest, decode (encode d) = .ok d) (processedItems : Nat) :
    (s.Passes index (docs ++ rest) → ∃ s' events,
      buildLoop config order (fun _ => true) decode index source processedItems s = (s', .ok true) ∧
        s'.Holds index (docs ++ rest) ∧
        s'.uniqueKeyspace.isSome = s.uniqueKeyspace.isSome ∧
        s'.events = events ++ [.building (processedItems + rest.length), .committing]) ∧
    (¬ s.Passes index (docs ++ rest) → ∃ s',
      buildLoop config order (fun _ => true) decode index source processedItems s =
        (s', .error (duplicateValue index))) := by
  induction hn : rest.length using Nat.strong_induction_on
    generalizing s docs source rest processedItems with
  | _ n ih =>
  -- the chunk read first is a front part of what is still to come
  have hitems := fillChunk_items (max (config.memoryBudgetBytes / 2) 1) config.chunkSize none source
  rw [hsource] at hitems
  obtain ⟨chunk, later, hrest, hchunk, hlater⟩ := List.append_eq_map_iff.mp hitems
  subst hrest
  rw [StellarDb.buildLoop]
  simp only [report, if_true]
  have hreported := h.withEvents (s.events ++ [.building processedItems])
  split
  · next raws hfill =>
    rw [hfill] at hchunk
    obtain rfl := List.map_eq_nil_iff.mp hchunk
    have hnil : source.items = [] := fillChunk_eq_nil config.chunkSize_pos (by rw [hfill])
    rw [hsource, List.nil_append] at hnil
    obtain rfl := List.map_eq_nil_iff.mp hnil
    rw [List.nil_append, List.append_nil]
    refine ⟨fun _ => ⟨_, s.events, rfl, hreported.withEvents _, rfl, ?_⟩,
      fun hnot => absurd hdocs hnot⟩
    simp [← hn]
  · next raw raws after hfill =>
    rw [hfill] at hchunk hlater
    dsimp only at hchunk hlater
    have hlen : later.length < (chunk ++ later).length := by
      have := congrArg List.length hchunk
      simp only [List.length_map, List.length_cons] at this
      rw [List.length_append]
      omega
    have hchunkCodec : ∀ d ∈ chunk, decode (encode d) = .ok d :=
      fun d hd => hcodec d (List.mem_append_left _ hd)
    rw [← List.append_assoc, ← hchunk]
    by_cases hpasses : s.Passes index (docs ++ chunk)
    · obtain ⟨s', hbuild, hholds, hsome⟩ :=
        hreported.buildChunk_ok config order hchunkCodec hpasses processedItems
      have hpasses' : s'.Passes index (docs ++ chunk) := fun hs => hpasses (hsome ▸ hs)
      have hiff : s'.Passes index (docs ++ chunk ++ later) ↔
          s.Passes index (docs ++ chunk ++ later) := by
        unfold Passes
        rw [hsome]
      rw [hbuild]
      dsimp only
      obtain ⟨hok, herror⟩ := ih later.length (hn ▸ hlen) hholds hpasses' hlater.symm
        (fun d hd => hcodec d (List.mem_append_right _ hd))
        (processedItems + (chunk.map encode).length) rfl
      refine ⟨fun hall => ?_, fun hnot => herror (mt hiff.mp hnot)⟩
      obtain ⟨s'', events, hrun, hholds', hsome', hevents⟩ := hok (hiff.mpr hall)
      refine ⟨s'', events, hrun, hholds', hsome'.trans hsome, ?_⟩
      rw [hevents, List.length_map, Nat.add_assoc, ← List.length_append, hn]
    · rw [hreported.buildChunk_error config order hchunkCodec hdocs hpasses processedItems]
      exact ⟨fun hall => absurd (fun hs => (hall hs).of_append) hpasses, fun _ => ⟨_, rfl⟩⟩

end BuildState

/-! ## The built index -/

omit [External] in
/-- The documents of a collection. -/
def CollectionKeyspaces.documents (ks : CollectionKeyspaces) : List Document :=
  ks.docs.toList.map Prod.snd

omit [External] in
theorem CollectionKeyspaces.eq_of_keyBytes (ks : CollectionKeyspaces) {d d' : Document}
    (hd : d ∈ ks.documents) (hd' : d' ∈ ks.documents) (h : d.keyBytes = d'.keyBytes) : d = d' := by
  obtain ⟨⟨k, _⟩, hmem, rfl⟩ := List.mem_map.mp hd
  obtain ⟨⟨k', _⟩, hmem', rfl⟩ := List.mem_map.mp hd'
  have hk := Std.ExtTreeMap.mem_toList_iff_getElem?_eq_some.mp hmem
  have hk' := Std.ExtTreeMap.mem_toList_iff_getElem?_eq_some.mp hmem'
  rw [← ks.keyed _ _ hk, h, ks.keyed _ _ hk', hk'] at hk
  exact (Option.some.inj hk).symm

omit [External] in
/-- The number of documents a build has reported last. -/
def BuildState.processedItems (s : BuildState) : Option Nat :=
  s.events.reverse.findSome? fun
    | .building processedItems => some processedItems
    | _ => none

/-- An index and lock keyspace hold exactly what the documents call for. -/
structure Backfilled (index : IndexDef) (docs : List Document) (s : BuildState) : Prop where
  entries : ∀ k, k ∈ s.indexKeyspace ↔ ∃ d ∈ docs, buildIndexKey d index.fields = some k
  unique : s.uniqueKeyspace.isSome = index.unique
  locks : ∀ written, s.uniqueKeyspace = some written → ∀ l owner : Bytes,
    written[l]? = some owner ↔ ∃ d ∈ docs, lockOf index d = some l ∧ d.keyBytes = owner
  oneLock : ∀ written, s.uniqueKeyspace = some written → ∀ d ∈ docs,
    (getFieldValueForIndex d index.fields).isSome → ∃! l : Bytes, written[l]? = some d.keyBytes
  processed : s.processedItems = some docs.length

omit [External] in
theorem mem_unit_iff {ks : Keyspace Unit} {k : Bytes} : k ∈ ks ↔ ks[k]? = some () := by
  constructor
  · intro hk
    exact Std.ExtTreeMap.getElem?_eq_some_getElem hk
  · intro hk
    exact Std.ExtTreeMap.mem_iff_isSome_getElem?.mpr (by rw [hk]; rfl)

theorem Backfilled.toHolds {index : IndexDef} {docs : List Document} {s : BuildState}
    (h : Backfilled index docs s) : s.Holds index docs :=
  ⟨fun k => mem_unit_iff.symm.trans (h.entries k), h.locks⟩

/-- The keyspaces are determined by the documents. -/
theorem BuildState.Holds.keyspaces_eq {index : IndexDef} {docs : List Document}
    {s s' : BuildState} (h : s.Holds index docs) (h' : s'.Holds index docs)
    (hsome : s.uniqueKeyspace.isSome = s'.uniqueKeyspace.isSome) :
    s.indexKeyspace = s'.indexKeyspace ∧ s.uniqueKeyspace = s'.uniqueKeyspace := by
  constructor
  · refine Std.ExtTreeMap.ext_mem_unit fun k => ?_
    rw [mem_unit_iff, mem_unit_iff, h.entries, h'.entries]
  · cases hs : s.uniqueKeyspace with
    | none =>
      rw [hs] at hsome
      exact (Option.not_isSome_iff_eq_none.mp (by rw [← hsome]; exact Bool.false_ne_true)).symm
    | some written =>
      rw [hs] at hsome
      obtain ⟨written', hs'⟩ := Option.isSome_iff_exists.mp hsome.symm
      rw [hs']
      refine congrArg some (Std.ExtTreeMap.ext_getElem? fun l => Option.ext fun owner => ?_)
      rw [h.locks _ hs, h'.locks _ hs']

section

variable {db : Database} {collection : String} {ks : CollectionKeyspaces}
  {encode : Document → Bytes} {decode : Bytes → Except StorageError Document}

/-- Build the index into empty keyspaces, with a callback that always goes on. -/
def backfill (config : IndexBuildConfig) (order : IterOrder) (encode : Document → Bytes)
    (decode : Bytes → Except StorageError Document) (db : Database) (collection : String)
    (index : IndexDef) : BuildState × Except StorageError Bool :=
  buildBTreeFromSerialized config order encode decode db collection index ∅
    (if index.unique then some ∅ else none) fun _ => true

/-- No two documents of a unique index need one lock. -/
def NoSharedLock (index : IndexDef) (docs : List Document) : Prop :=
  index.unique = true → ∀ d ∈ docs, ∀ d' ∈ docs, SharesLock index d d' → d = d'

theorem backfill_outcome (hks : db.keyspaces collection = some ks)
    (hcodec : ∀ d ∈ ks.documents, decode (encode d) = .ok d) (index : IndexDef)
    (config : IndexBuildConfig) (order : IterOrder) :
    (NoSharedLock index ks.documents → ∃ s,
      backfill config order encode decode db collection index = (s, .ok true) ∧
        Backfilled index ks.documents s) ∧
    (¬ NoSharedLock index ks.documents → ∃ s,
      backfill config order encode decode db collection index =
        (s, .error (duplicateValue index))) := by
  let start : BuildState := ⟨∅, if index.unique then some ∅ else none, []⟩
  have hunique : start.uniqueKeyspace.isSome = index.unique := by
    show Option.isSome (if index.unique then some ∅ else none) = index.unique
    cases index.unique <;> rfl
  -- the condition of the loop is the one on documents, since their keys differ
  have hpasses : start.Passes index ([] ++ ks.documents) ↔ NoSharedLock index ks.documents := by
    unfold BuildState.Passes NoSharedLock
    rw [hunique, List.nil_append]
    refine imp_congr_right fun _ => forall₂_congr fun d hd => forall₂_congr fun d' hd' =>
      imp_congr_right fun _ => ?_
    exact ⟨ks.eq_of_keyBytes hd hd', fun heq => heq ▸ rfl⟩
  let source : RawSource := ⟨none, ks.documents.map encode⟩
  have hrun : backfill config order encode decode db collection index =
      buildLoop config order (fun _ => true) decode index source 0 start := by
    have hdocs : ks.docs.toList.map (fun entry => encode entry.2) = ks.documents.map encode := by
      unfold CollectionKeyspaces.documents
      rw [List.map_map]
      rfl
    unfold backfill buildBTreeFromSerialized
    rw [hks]
    dsimp only
    rw [hdocs]
  obtain ⟨hok, herror⟩ := (BuildState.holds_empty index index.unique).buildLoop config order
    (fun _ _ hd => absurd hd List.not_mem_nil) (show source.items = _ from rfl) hcodec 0
  rw [hrun, ← hpasses]
  refine ⟨fun h => ?_, herror⟩
  obtain ⟨s, events, hs, hholds, hsome, hevents⟩ := hok h
  rw [List.nil_append] at hholds
  refine ⟨s, hs, ?_⟩
  refine ⟨fun k => ?_, hsome.trans hunique, hholds.locks, ?_, ?_⟩
  · exact mem_unit_iff.trans (hholds.entries k)
  · intro written hwritten d hd hvalue
    obtain ⟨value, hvalue⟩ := Option.isSome_iff_exists.mp hvalue
    have hlock : lockOf index d = some (computeUniqueLockKey (joinFields index.fields) value) := by
      unfold lockOf
      rw [hvalue]
      rfl
    refine ⟨_, (hholds.locks _ hwritten _ _).mpr ⟨d, hd, hlock, rfl⟩, fun l hl => ?_⟩
    obtain ⟨d', hd', hl', hkey⟩ := (hholds.locks _ hwritten _ _).mp hl
    rw [ks.eq_of_keyBytes hd' hd hkey, hlock] at hl'
    exact (Option.some.inj hl').symm
  · unfold BuildState.processedItems
    rw [hevents]
    simp

/-- A build succeeds exactly if no two documents need one lock, and then the keyspaces hold
exactly the entries of the documents; the configuration changes nothing. -/
theorem backfill_exact (hks : db.keyspaces collection = some ks)
    (hcodec : ∀ d ∈ ks.documents, decode (encode d) = .ok d) (index : IndexDef)
    (config config' : IndexBuildConfig) (order order' : IterOrder) :
    let built := backfill config order encode decode db collection index
    let built' := backfill config' order' encode decode db collection index
    (built.2 = .ok true ↔ NoSharedLock index ks.documents) ∧
    (built.2 = .ok true → Backfilled index ks.documents built.1) ∧
    built.2 = built'.2 ∧
    (built.2 = .ok true → built.1.indexKeyspace = built'.1.indexKeyspace ∧
      built.1.uniqueKeyspace = built'.1.uniqueKeyspace) := by
  intro built built'
  obtain ⟨hok, herror⟩ := backfill_outcome hks hcodec index config order
  obtain ⟨hok', herror'⟩ := backfill_outcome hks hcodec index config' order'
  by_cases h : NoSharedLock index ks.documents
  · obtain ⟨s, hs, hfilled⟩ := hok h
    obtain ⟨s', hs', hfilled'⟩ := hok' h
    have hbuilt : built = (s, .ok true) := hs
    have hbuilt' : built' = (s', .ok true) := hs'
    rw [hbuilt, hbuilt']
    exact ⟨iff_of_true rfl h, fun _ => hfilled, rfl, 
      fun _ => hfilled.toHolds.keyspaces_eq hfilled'.toHolds (hfilled.unique.trans
        hfilled'.unique.symm)⟩
  · obtain ⟨s, hs⟩ := herror h
    obtain ⟨s', hs'⟩ := herror' h
    have hbuilt : built = (s, .error (duplicateValue index)) := hs
    have hbuilt' : built' = (s', .error (duplicateValue index)) := hs'
    rw [hbuilt, hbuilt']
    exact ⟨iff_of_false nofun h, nofun, rfl, nofun⟩

/-- An index that writes have maintained, in any run, is what a build makes of the documents that
the run leaves: the build may fail only for a lock that two of them need. -/
theorem rebuilt_as_maintained {db : Database} (hdb : db.Indexed) (steps : List WriteStep)
    {index : IndexDef} (hindex : index ∈ (runWrites db steps).indexes collection)
    (htype : index.indexType = .btree) (hks : (runWrites db steps).keyspaces collection = some ks)
    (hcodec : ∀ d ∈ ks.documents, decode (encode d) = .ok d)
    (hlocks : NoSharedLock index ks.documents) (config : IndexBuildConfig) (order : IterOrder) :
    ∃ s, backfill config order encode decode (runWrites db steps) collection index =
        (s, .ok true) ∧
      s.indexKeyspace =
        (runWrites db steps).indexKeyspaces (indexKeyspaceName collection index.name) := by
  obtain ⟨s, hbuilt, hfilled⟩ := (backfill_outcome hks hcodec index config order).1 hlocks
  refine ⟨s, hbuilt, ?_⟩
  have hexact := (runWrites_indexed hdb steps).index collection index hindex htype
  have hdocs : (runWrites db steps).docs collection = ks.docs := by
    unfold Database.docs
    rw [hks]
  have hstored : ∀ d, d ∈ ks.documents ↔ ∃ key : Bytes, ks.docs[key]? = some d := by
    intro d
    unfold CollectionKeyspaces.documents
    simp [Std.ExtTreeMap.mem_toList_iff_getElem?_eq_some]
  refine Std.ExtTreeMap.ext_getElem? fun k => Option.ext fun u => ?_
  rw [← mem_unit_iff, hfilled.entries, hexact, hdocs]
  constructor
  · rintro ⟨d, hd, hkey⟩
    obtain ⟨key, hkeyed⟩ := (hstored d).mp hd
    exact ⟨key, d, hkeyed, hkey⟩
  · rintro ⟨key, d, hkeyed, hkey⟩
    exact ⟨d, (hstored d).mpr ⟨key, hkeyed⟩, hkey⟩

end

end Build

/-! ## Two members with different mails -/

namespace Members

local instance : External := .standIn

def member (id mail : String) (hwf : (Value.object [("mail", .string mail)]).wf = true := by rfl) :
    Document := ⟨id, [("mail", .string mail)], hwf⟩

def ann : Document := member "members:1" "ann"
def bob : Document := member "members:2" "bob"

def byMail : IndexDef := ⟨"by_mail", ["mail"], true, .btree⟩

def stored : CollectionKeyspaces := (CollectionKeyspaces.empty.putDoc ann).putDoc bob

def members : Database where
  keyspaces := fun c => if c = "members" then some stored else none
  indexes := fun _ => []
  indexKeyspaces := fun _ => ∅
  edges := ⟨[], fun _ => ∅⟩

/-- A stand-in for the archive format on these two documents: their ids. -/
def encode (doc : Document) : Bytes := utf8 doc.id

def decode (raw : Bytes) : Except StorageError Document :=
  if raw = utf8 ann.id then .ok ann
  else if raw = utf8 bob.id then .ok bob
  else .error (.serialization "unknown document")

theorem mem_stored {d : Document} (hd : d ∈ stored.documents) : d = ann ∨ d = bob := by
  obtain ⟨⟨k, d⟩, hmem, rfl⟩ := List.mem_map.mp hd
  have hk : stored.docs[k]? = some d := Std.ExtTreeMap.mem_toList_iff_getElem?_eq_some.mp hmem
  have hputs : stored.docs = ((∅ : Keyspace Document).insert ann.keyBytes ann).insert
    bob.keyBytes bob := rfl
  rw [hputs, getElem?_insert_eq, getElem?_insert_eq, Std.ExtTreeMap.getElem?_empty] at hk
  split at hk
  · exact Or.inr (Option.some.inj hk).symm
  · split at hk
    · exact Or.inl (Option.some.inj hk).symm
    · cases hk

theorem decode_encode {d : Document} (hd : d ∈ stored.documents) : decode (encode d) = .ok d := by
  rcases mem_stored hd with rfl | rfl
  · rfl
  · rfl

/-- Limits that put every document in a chunk and every entry in a batch of its own. -/
def narrow : IndexBuildConfig := ⟨1, 1, 1, by decide, by decide, by decide⟩

def wide : IndexBuildConfig := ⟨4096, 1024, 8, by decide, by decide, by decide⟩

theorem mails_build :
    let built := backfill narrow .asKept encode decode members "members" byMail
    let built' := backfill wide .asKept encode decode members "members" byMail
    built.2 = .ok true ∧ Backfilled byMail stored.documents built.1 ∧
      built.1.indexKeyspace = built'.1.indexKeyspace ∧
      built.1.uniqueKeyspace = built'.1.uniqueKeyspace := by
  intro built built'
  have hstored : members.keyspaces "members" = some stored := rfl
  obtain ⟨hiff, hfilled, -, heq⟩ := backfill_exact hstored (fun _ hd => decode_encode hd) byMail
    narrow wide .asKept .asKept
  have hok : built.2 = .ok true := by
    refine hiff.mpr fun _ d hd d' hd' ⟨l, hl, hl'⟩ => ?_
    have hlocks : lockOf byMail ann ≠ lockOf byMail bob := by decide +kernel
    rcases mem_stored hd with rfl | rfl <;> rcases mem_stored hd' with rfl | rfl
    · rfl
    · exact absurd (hl.trans hl'.symm) hlocks
    · exact absurd (hl'.trans hl.symm) hlocks
    · rfl
  exact ⟨hok, hfilled hok, heq hok⟩

def decodeItem (_ : Bytes) : Except StorageError Document := .ok Items.nested

/-- An item that has been created with its index there. -/
theorem item_rebuilt : ∃ s, backfill narrow .asKept encode decodeItem
      (runWrites (Items.fresh [Items.nestedIndex]) [.call .none (.create Items.nested)]) "items"
      Items.nestedIndex = (s, .ok true) ∧ s.indexKeyspace =
        (runWrites (Items.fresh [Items.nestedIndex])
          [.call .none (.create Items.nested)]).indexKeyspaces
          (indexKeyspaceName "items" Items.nestedIndex.name) := by
  obtain ⟨ks, hks⟩ := Option.isSome_iff_exists.mp (show ((runWrites (Items.fresh [Items.nestedIndex])
    [.call .none (.create Items.nested)]).keyspaces "items").isSome = true by decide +kernel)
  have honly : ∀ d ∈ ks.documents, d = Items.nested := by
    intro d hd
    obtain ⟨⟨k, d⟩, hmem, rfl⟩ := List.mem_map.mp hd
    have hget := DocCall.exec_getDocument .none (Items.fresh [Items.nestedIndex])
      (.create Items.nested) "items" k
    have hk : Database.getDocument (runWrites (Items.fresh [Items.nestedIndex])
        [.call .none (.create Items.nested)]) "items" k = some d := by
      unfold Database.getDocument
      rw [hks]
      exact Std.ExtTreeMap.mem_toList_iff_getElem?_eq_some.mp hmem
    replace hget := hk.symm.trans hget
    split at hget
    · exact Option.some.inj hget
    · cases hget
  have hindexed : (Items.fresh [Items.nestedIndex]).Indexed := by
    obtain ⟨hindex, hmarkers⟩ := Items.fresh_indexExact [Items.nestedIndex]
    refine ⟨fun c c' i hi i' hi' _ _ _ => ?_, hindex, hmarkers⟩
    unfold Items.fresh at hi hi'
    by_cases hc : c = "items" <;> by_cases hc' : c' = "items" <;> simp_all
  have hcodec : ∀ d ∈ ks.documents, decodeItem (encode d) = .ok d :=
    fun d hd => congrArg Except.ok (honly d hd).symm
  exact rebuilt_as_maintained hindexed _ List.mem_cons_self rfl hks hcodec
    (fun _ d hd d' hd' _ => (honly d hd).trans (honly d' hd').symm) narrow .asKept

end Members

end StellarDb
