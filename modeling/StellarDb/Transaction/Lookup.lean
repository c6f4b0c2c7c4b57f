import StellarDb.Transaction.Documents

/-!
# StellarDb — a transaction reads its own writes through indexes

A lookup of a transaction takes the ids that storage finds and adds the ids of the pending
inserts that match. The two are written differently: storage returns bare keys, a pending
document is added under its whole id, and the deletes are kept as whole ids too. So nothing of
what storage finds is ever taken out again, and a document that is stored and pending may be
found twice. The documents are then read through the buffer.

With names free of `:` and a limit that covers all that is found (`Room`), the lookup returns
what storage would return after a commit exactly if each pending insert matches the index
where either its stored version or the transaction's own comparison matches, but not both
(`lookup_committed_iff`).
-/

namespace StellarDb

open Keyspaces

section Lookup

variable [External]

/-! ## Lookups of storage and of a transaction -/

/-- A scan of storage. -/
def Database.scan (db : Database) (c : String) (lookup : IndexLookup) (limit : Nat) :
    Except IndexLookupFailed ScanResult :=
  match lookup with
  | .eq field value => db.scanIndexEq c field value limit
  | .in field values => db.scanIndexIn c field values limit
  | .range field op value => db.scanIndexRange c field value op limit
  | .rangeBetween field lower lowerInclusive upper upperInclusive =>
    db.scanIndexRangeBetween c field lower lowerInclusive upper upperInclusive limit
  | .compoundEq fieldValues => db.scanCompoundIndexEq c fieldValues limit

/-- A scan of a transaction. -/
def Transaction.scan (order : IterOrder) (tx : Transaction) (db : Database) (c : String)
    (lookup : IndexLookup) (limit : Nat) : Except IndexLookupFailed ScanResult :=
  match lookup with
  | .eq field value => tx.scanIndexEq order db c field value limit
  | .in field values => tx.scanIndexIn order db c field values limit
  | .range field op value => tx.scanIndexRange order db c field value op limit
  | .rangeBetween field lower lowerInclusive upper upperInclusive =>
    tx.scanIndexRangeBetween order db c field lower lowerInclusive upper upperInclusive limit
  | .compoundEq fieldValues => tx.scanCompoundIndexEq order db c fieldValues limit

omit [External] in
/-- What a transaction asks of a pending document, in the order of the scans made. -/
def IndexLookup.pendingTests : IndexLookup → List (Document → Bool)
  | .eq field value => [(Transaction.fieldMatches · field value)]
  | .in field values => values.map fun value => (Transaction.fieldMatches · field value)
  | .range field op value => [(Transaction.fieldMatchesRange · field value op)]
  | .rangeBetween field lower lowerInclusive upper upperInclusive =>
    [(Transaction.fieldMatchesBetween · field lower lowerInclusive upper upperInclusive)]
  | .compoundEq fieldValues => [(Transaction.allFieldsMatch · fieldValues)]

omit [External] in
/-- The pending document matches the lookup, as the transaction compares. -/
def IndexLookup.MatchesPending (lookup : IndexLookup) (d : Document) : Prop :=
  ∃ test ∈ lookup.pendingTests, test d = true

/-- The six lookups: five return ids, the last one returns documents. -/
inductive TxLookup where
  | ids (lookup : IndexLookup)
  | compoundDocs (fieldValues : List (String × Value))

omit [External] in
/-- What is looked up. -/
def TxLookup.lookup : TxLookup → IndexLookup
  | .ids lookup => lookup
  | .compoundDocs fieldValues => .compoundEq fieldValues

/-- The documents that a lookup of storage obtains. -/
def Database.Obtains (db : Database) (c : String) (l : TxLookup) (limit : Nat)
    (docs : List Document) : Prop :=
  match l with
  | .ids lookup => ∃ r, db.scan c lookup limit = .ok r ∧ db.getDocumentsByIds c r.docIds = docs
  | .compoundDocs fieldValues =>
    ∃ exceeded, db.scanCompoundIndexEqDocs c fieldValues limit = .ok (docs, exceeded)

/-- The documents that a lookup of a transaction obtains. -/
def Transaction.Obtains (order : IterOrder) (tx : Transaction) (db : Database) (c : String)
    (l : TxLookup) (limit : Nat) (docs : List Document) : Prop :=
  match l with
  | .ids lookup => ∃ r, tx.scan order db c lookup limit = .ok r ∧
    tx.getDocumentsByIds db c r.docIds = .ok docs
  | .compoundDocs fieldValues =>
    ∃ exceeded, tx.scanCompoundIndexEqDocs order db c fieldValues limit = .ok (docs, exceeded)

/-! ## Assumptions and conditions -/

/-- Storage with the calls committed: their overlay, exactly indexed. -/
structure Committed (db : Database) (ops : List TxOp) (db' : Database) : Prop where
  indexes : db'.indexes = db.indexes
  indexExact : db'.IndexExact
  docs : ∀ c k, db'.getDocument c (utf8 k) = overlay db ops c k

/-- The buffer keeps the collection apart from others, the keys of the documents that match have
no `:`, and a pending one has an id of the form `collection:key`. -/
structure PlainNames (order : IterOrder) (db : Database) (ops : List TxOp) (tx : Transaction)
    (c : String) (index : IndexDef) (lookup : IndexLookup) : Prop where
  separate : SeparateKeys db ops c
  stored : ∀ d, db.Stored c d → lookup.Matches index d → ':' ∉ d.key.toList
  pending : ∀ p ∈ tx.pendingInsertsForCollection order c, lookup.MatchesPending p →
    ':' ∈ p.id.toList ∧ ':' ∉ p.key.toList

/-- The number of entries that the scans of a lookup meet in storage. -/
def entriesFound (db : Database) (c : String) (index : IndexDef) (lookup : IndexLookup) : Nat :=
  (lookup.tests.map fun test => (db.entriesWhere c index test).length).sum

omit [External] in
/-- The number of pending documents that the scans of a lookup add. -/
def pendingFound (order : IterOrder) (tx : Transaction) (c : String) (lookup : IndexLookup) :
    Nat :=
  (lookup.pendingTests.map fun test =>
    ((tx.pendingInsertsForCollection order c).filter test).length).sum

/-- The stored version of a document matches. -/
def StoredMatches (db : Database) (c : String) (index : IndexDef) (lookup : IndexLookup)
    (d : Document) : Prop :=
  ∃ s, db.getDocument c d.keyBytes = some s ∧ lookup.Matches index s

/-- A pending insert is found once if it matches, and not at all otherwise. -/
def FoundOnce (db : Database) (c : String) (index : IndexDef) (l : TxLookup) (p : Document) :
    Prop :=
  match l with
  | .ids lookup =>
    (lookup.Matches index p ↔ StoredMatches db c index lookup p ∨ lookup.MatchesPending p) ∧
      ¬ (StoredMatches db c index lookup p ∧ lookup.MatchesPending p)
  | .compoundDocs fieldValues =>
    (IndexLookup.compoundEq fieldValues).Matches index p ↔
      (IndexLookup.compoundEq fieldValues).MatchesPending p

/-! ## Names without separators -/

omit [External] in
theorem toList_id {d : Document} (h : ':' ∈ d.id.toList) :
    d.id.toList = d.collection.toList ++ ':' :: d.key.toList := by
  have hdrop : d.id.toList.dropWhile (· ≠ ':') =
      ':' :: (d.id.toList.dropWhile (· ≠ ':')).drop 1 := by
    obtain ⟨front, rest, hid, hfront⟩ := List.eq_append_cons_of_mem h
    have hall : ∀ ch ∈ front, decide (ch ≠ ':') = true := by
      intro ch hch
      have hne : ch ≠ ':' := fun heq => hfront (heq ▸ hch)
      simpa using hne
    rw [hid, List.dropWhile_append_of_pos hall]
    simp
  unfold Document.collection Document.key splitOnce
  rw [if_pos h]
  show d.id.toList = (String.ofList _).toList ++ ':' :: (String.ofList _).toList
  rw [String.toList_ofList, String.toList_ofList, ← hdrop, List.takeWhile_append_dropWhile]

omit [External] in
/-- The segment of an id that is looked up. -/
theorem lastSegment_plain {id : String} (h : ':' ∉ id.toList) :
    (splitChar ':' id).getLast?.getD id = id := by
  unfold splitChar
  rw [List.splitOn_eq_singleton h]
  simp

omit [External] in
theorem lastSegment_id {d : Document} (h : ':' ∈ d.id.toList) (hkey : ':' ∉ d.key.toList) :
    (splitChar ':' d.id).getLast?.getD d.id = d.key := by
  unfold splitChar
  rw [toList_id h, List.splitOn_append_cons_self, List.splitOn_eq_singleton hkey, List.map_append]
  simp

/-! ## What a transaction finds -/

omit [External] in
/-- Deletes are kept as whole ids. -/
theorem TxOp.deletes_sep {ops : List TxOp} {tx : Transaction} (hrun : TxOp.run ops = .ok tx) :
    ∀ id ∈ tx.pendingDeletes, ':' ∈ id.toList := by
  induction ops using List.reverseRecOn generalizing tx with
  | nil =>
    obtain rfl : Transaction.new = tx := Except.ok.inj hrun
    exact fun id hid => absurd hid (Finset.notMem_empty id)
  | append_singleton ops op ih =>
    obtain ⟨tx₀, hrun₀, hbuf⟩ := TxOp.run_ok ops
    rw [TxOp.run_snoc hrun₀, TxOp.exec_active hbuf.active] at hrun
    obtain rfl := Except.ok.inj hrun
    intro id hid
    have hid' : id ∈ op.deletesAfter tx₀.pendingDeletes := hid
    cases op with
    | insert doc => exact ih hrun₀ id (Finset.mem_of_mem_erase hid')
    | update doc => exact ih hrun₀ id (Finset.mem_of_mem_erase hid')
    | delete c k =>
      rcases Finset.mem_insert.mp hid' with rfl | hold
      · simp [String.toList_append]
      · exact ih hrun₀ id hold

section Found

variable {order : IterOrder} {db : Database} {ops : List TxOp} {c : String} {tx : Transaction}

omit [External] in
theorem getDocumentsByIds_ok (hbuf : TxOp.Buffered ops tx) (hsep : SeparateKeys db ops c)
    (ids : List String) :
    tx.getDocumentsByIds db c ids =
      .ok (ids.filterMap fun id => overlay db ops c ((splitChar ':' id).getLast?.getD id)) := by
  induction ids with
  | nil => rfl
  | cons id ids ih =>
    rw [Transaction.getDocumentsByIds, get_overlay hbuf hsep, ih, List.filterMap_cons]
    cases overlay db ops c ((splitChar ':' id).getLast?.getD id) <;> rfl

omit [External] in
/-- New ids are added behind the others. -/
theorem addPending_eq {test : Document → Bool} {ids : List String} {docs : List Document}
    (hnew : ∀ d ∈ docs, test d = true → d.id ∉ ids) (hnodup : (docs.map (·.id)).Nodup) :
    Transaction.addPending test ids docs = ids ++ (docs.filter test).map (·.id) := by
  induction docs generalizing ids with
  | nil => simp [Transaction.addPending]
  | cons d docs ih =>
    rw [List.forall_mem_cons] at hnew
    rw [List.map_cons, List.nodup_cons] at hnodup
    show Transaction.addPending test
      (if test d && !ids.contains d.id then ids ++ [d.id] else ids) docs = _
    by_cases htest : test d = true
    · have hadd : (test d && !ids.contains d.id) = true := by simp [htest, hnew.1 htest]
      have hrest : ∀ d' ∈ docs, test d' = true → d'.id ∉ ids ++ [d.id] := by
        intro d' hd' htest' hmem
        rcases List.mem_append.mp hmem with h | h
        · exact hnew.2 d' hd' htest' h
        · exact hnodup.1 (List.mem_map.mpr ⟨d', hd', List.mem_singleton.mp h⟩)
      rw [if_pos hadd, ih hrest hnodup.2, List.filter_cons_of_pos htest]
      simp
    · have hskip : ¬ (test d && !ids.contains d.id) = true := by simp [htest]
      rw [if_neg hskip, ih hnew.2 hnodup.2, List.filter_cons_of_neg htest]

omit [External] in
theorem pending_ids_nodup (hbuf : TxOp.Buffered ops tx) (hsep : SeparateKeys db ops c) :
    ((tx.pendingInsertsForCollection order c).map (·.id)).Nodup := by
  refine (tx.pendingInserts_nodup order c).map_on ?_
  intro d hd d' hd' hid
  have hkey : d.key = d'.key := by
    unfold Document.key
    rw [hid]
  have hl := (pending_overlay hbuf hsep hd).1
  have hl' := (pending_overlay hbuf hsep hd').1
  rw [hkey, hl'] at hl
  cases hl
  rfl

variable {index : IndexDef}

/-- The ids of one scan: what storage finds, then the pending documents that match. -/
def candidates (order : IterOrder) (tx : Transaction) (db : Database) (c : String)
    (index : IndexDef) (test : Bytes → Bool) (pendingTest : Document → Bool) : List String :=
  db.entriesWhere c index test ++
    ((tx.pendingInsertsForCollection order c).filter pendingTest).map (·.id)

/-- The ids of one scan are of the two forms. -/
structure PlainScan (order : IterOrder) (tx : Transaction) (db : Database) (c : String)
    (index : IndexDef) (test : Bytes → Bool) (pendingTest : Document → Bool) : Prop where
  stored : ∀ id ∈ db.entriesWhere c index test, ':' ∉ id.toList
  pending : ∀ p ∈ tx.pendingInsertsForCollection order c, pendingTest p = true → ':' ∈ p.id.toList

omit [External] in
theorem mergeScan_docIds (hrun : TxOp.run ops = .ok tx) (hbuf : TxOp.Buffered ops tx)
    (hsep : SeparateKeys db ops c) {test : Bytes → Bool} {pendingTest : Document → Bool}
    (hplain : PlainScan order tx db c index test pendingTest) {limit : Nat}
    (hroom : (candidates order tx db c index test pendingTest).length ≤ limit) {r : ScanResult}
    (hr : r.docIds = (db.entriesWhere c index test).take (limit + Transaction.scanBuffer + 1)) :
    (tx.mergeScan order c pendingTest limit r).docIds =
      candidates order tx db c index test pendingTest := by
  have hall : r.docIds = db.entriesWhere c index test := by
    have hlen : (db.entriesWhere c index test).length ≤ limit := by
      unfold candidates at hroom
      rw [List.length_append] at hroom
      omega
    rw [hr, List.take_of_length_le (by omega)]
  -- bare keys are not among the deleted ids
  have hkept : (r.docIds.filter fun id => !tx.isPendingDelete id) = db.entriesWhere c index test := by
    rw [hall]
    refine List.filter_eq_self.mpr fun id hid => ?_
    have hnot : id ∉ tx.pendingDeletes := fun hmem =>
      hplain.stored id hid (TxOp.deletes_sep hrun id hmem)
    simp [Transaction.isPendingDelete, hnot]
  have hadd : Transaction.addPending pendingTest (db.entriesWhere c index test)
      (tx.pendingInsertsForCollection order c) =
        candidates order tx db c index test pendingTest :=
    addPending_eq (fun p hp htest hmem => hplain.stored _ hmem (hplain.pending p hp htest))
      (pending_ids_nodup hbuf hsep)
  unfold Transaction.mergeScan
  simp only [hkept, hadd]
  rw [if_neg (not_lt.mpr hroom)]

theorem mem_candidates (hdb : db.IndexExact) (hindex : index ∈ db.indexes c)
    (hbtree : index.indexType = .btree) {test : Bytes → Bool} {pendingTest : Document → Bool}
    {id : String} :
    id ∈ candidates order tx db c index test pendingTest ↔
      (∃ d, db.Stored c d ∧ Database.EntryPasses index test d ∧ d.key = id) ∨
        ∃ p ∈ tx.pendingInsertsForCollection order c, pendingTest p = true ∧ p.id = id := by
  unfold candidates
  rw [List.mem_append, Database.mem_entriesWhere hdb hindex hbtree, List.mem_map]
  simp only [List.mem_filter, and_assoc]

theorem candidates_nodup (hdb : db.IndexExact) (hindex : index ∈ db.indexes c)
    (hbtree : index.indexType = .btree) (hbuf : TxOp.Buffered ops tx)
    (hsep : SeparateKeys db ops c) {test : Bytes → Bool} {pendingTest : Document → Bool}
    (hplain : PlainScan order tx db c index test pendingTest) :
    (candidates order tx db c index test pendingTest).Nodup := by
  refine List.nodup_append'.mpr ⟨Database.entriesWhere_nodup hdb hindex hbtree test, ?_, ?_⟩
  · exact (pending_ids_nodup hbuf hsep).sublist ((List.filter_sublist).map _)
  · intro id hid hid'
    obtain ⟨p, hp, rfl⟩ := List.mem_map.mp hid'
    obtain ⟨hpend, htest⟩ := List.mem_filter.mp hp
    exact hplain.stored _ hid (hplain.pending p hpend htest)

/-- The candidates of an equality. -/
def eqCandidates (order : IterOrder) (tx : Transaction) (db : Database) (c : String)
    (index : IndexDef) (field : String) (value : Value) : List String :=
  candidates order tx db c index (BTreeIndex.withPrefix (encodeIndexPrefix [value]))
    (Transaction.fieldMatches · field value)

/-- An `IN` lookup collects the candidates of all values. -/
theorem scanIndexInLoop_candidates {field : String}
    (h : Database.btreeLeadBy (db.indexes c) [field] = some index) (hrun : TxOp.run ops = .ok tx)
    (hbuf : TxOp.Buffered ops tx) (hsep : SeparateKeys db ops c) {limit : Nat}
    (values : List Value) (allIds : List String) (exceeded : Bool)
    (hplain : ∀ v ∈ values, PlainScan order tx db c index
      (BTreeIndex.withPrefix (encodeIndexPrefix [v])) (Transaction.fieldMatches · field v))
    (hroom : allIds.length +
      (values.map fun v => (eqCandidates order tx db c index field v).length).sum ≤ limit) :
    ∃ r, tx.scanIndexInLoop order db c field limit allIds exceeded values = .ok r ∧
      r.1 = allIds ++ values.flatMap (eqCandidates order tx db c index field) := by
  induction values generalizing allIds exceeded with
  | nil => exact ⟨_, rfl, by simp⟩
  | cons value values ih =>
    rw [List.map_cons, List.sum_cons] at hroom
    rw [List.forall_mem_cons] at hplain
    obtain ⟨r₀, hr₀, hids₀⟩ := Database.scanIndexEq_eq h (limit + Transaction.scanBuffer) value
    have hids : (tx.mergeScan order c (Transaction.fieldMatches · field value) limit r₀).docIds =
        eqCandidates order tx db c index field value := by
      refine mergeScan_docIds hrun hbuf hsep hplain.1 ?_ hids₀
      show (eqCandidates order tx db c index field value).length ≤ limit
      omega
    rw [Transaction.scanIndexInLoop, Transaction.scanIndexEq, hr₀]
    simp only [Except.map, hids]
    split
    · next hfull =>
      -- the limit is reached, so nothing is left to find
      refine ⟨_, rfl, ?_⟩
      rw [List.length_append] at hfull
      have hrest : values.flatMap (eqCandidates order tx db c index field) = [] := by
        refine List.length_eq_zero_iff.mp ?_
        rw [List.length_flatMap]
        omega
      rw [List.flatMap_cons, hrest, List.append_nil]
    · obtain ⟨r, hr, hr1⟩ := ih (allIds ++ eqCandidates order tx db c index field value) _
        hplain.2 (by rw [List.length_append]; omega)
      refine ⟨r, hr, ?_⟩
      rw [hr1, List.flatMap_cons, List.append_assoc]

/-- The ids a scan returns, each once: those of the stored and those of the pending documents
that match. -/
theorem scan_ids (order : IterOrder) {lookup : IndexLookup} (hdb : db.IndexExact)
    (h : Database.btreeLeadBy (db.indexes c) lookup.fields = some index)
    (hplain : PlainNames order db ops tx c index lookup) (hrun : TxOp.run ops = .ok tx)
    (hbuf : TxOp.Buffered ops tx) {limit : Nat}
    (hroom : entriesFound db c index lookup + pendingFound order tx c lookup ≤ limit) :
    ∃ r, tx.scan order db c lookup limit = .ok r ∧ r.docIds.Nodup ∧ ∀ id, id ∈ r.docIds ↔
      (∃ d, db.Stored c d ∧ lookup.Matches index d ∧ d.key = id) ∨
        ∃ p ∈ tx.pendingInsertsForCollection order c, lookup.MatchesPending p ∧ p.id = id := by
  obtain ⟨hindex, hbtree, -⟩ := Database.of_btreeLeadBy h
  have hscan : ∀ {test : Bytes → Bool} {pendingTest : Document → Bool}, test ∈ lookup.tests →
      pendingTest ∈ lookup.pendingTests → PlainScan order tx db c index test pendingTest := by
    intro test pendingTest htest hpend
    refine ⟨fun id hid => ?_, fun p hp hm => (hplain.pending p hp ⟨_, hpend, hm⟩).1⟩
    obtain ⟨d, hd, hpass, rfl⟩ := (Database.mem_entriesWhere hdb hindex hbtree).mp hid
    exact hplain.stored d hd ⟨test, htest, hpass⟩
  -- one scan: its candidates
  have hone : ∀ {test : Bytes → Bool} {pendingTest : Document → Bool} {r : ScanResult},
      lookup.tests = [test] → lookup.pendingTests = [pendingTest] →
      r.docIds = (db.entriesWhere c index test).take (limit + Transaction.scanBuffer + 1) →
      (tx.mergeScan order c pendingTest limit r).docIds.Nodup ∧
        ∀ id, id ∈ (tx.mergeScan order c pendingTest limit r).docIds ↔
          (∃ d, db.Stored c d ∧ lookup.Matches index d ∧ d.key = id) ∨
            ∃ p ∈ tx.pendingInsertsForCollection order c, lookup.MatchesPending p ∧ p.id = id := by
    intro test pendingTest r htest hpend hr
    have hlen : (candidates order tx db c index test pendingTest).length ≤ limit := by
      unfold entriesFound pendingFound at hroom
      rw [htest, hpend] at hroom
      simpa [candidates] using hroom
    have hps : PlainScan order tx db c index test pendingTest :=
      hscan (by rw [htest]; exact List.mem_cons_self) (by rw [hpend]; exact List.mem_cons_self)
    rw [mergeScan_docIds hrun hbuf hplain.separate hps hlen hr]
    refine ⟨candidates_nodup hdb hindex hbtree hbuf hplain.separate hps, fun id => ?_⟩
    rw [mem_candidates hdb hindex hbtree]
    simp only [IndexLookup.Matches, IndexLookup.MatchesPending, htest, hpend, List.mem_singleton,
      exists_eq_left]
  cases lookup with
  | eq field value =>
    obtain ⟨r, hr, hids⟩ := Database.scanIndexEq_eq h (limit + Transaction.scanBuffer) value
    refine ⟨_, ?_, hone rfl rfl hids⟩
    simp only [Transaction.scan, Transaction.scanIndexEq, hr, Except.map]
  | range field op value =>
    obtain ⟨r, hr, hids⟩ := Database.scanIndexRange_eq h (limit + Transaction.scanBuffer) value op
    refine ⟨_, ?_, hone rfl rfl hids⟩
    simp only [Transaction.scan, Transaction.scanIndexRange, hr, Except.map]
  | rangeBetween field lower lowerInclusive upper upperInclusive =>
    obtain ⟨r, hr, hids⟩ := Database.scanIndexRangeBetween_eq h (limit + Transaction.scanBuffer)
      lower lowerInclusive upper upperInclusive
    refine ⟨_, ?_, hone rfl rfl hids⟩
    simp only [Transaction.scan, Transaction.scanIndexRangeBetween, hr, Except.map]
  | compoundEq fieldValues =>
    obtain ⟨r, hr, hids⟩ := Database.scanCompoundIndexEq_eq h (limit + Transaction.scanBuffer)
    refine ⟨_, ?_, hone rfl rfl hids⟩
    simp only [Transaction.scan, Transaction.scanCompoundIndexEq, hr, Except.map]
  | «in» field values =>
    -- sorted and deduplicated: the candidates of all values, each once
    have hsum : ([] : List String).length +
        (values.map fun v => (eqCandidates order tx db c index field v).length).sum ≤ limit := by
      have hsplit : (values.map fun v => (eqCandidates order tx db c index field v).length).sum =
          entriesFound db c index (.in field values) +
            pendingFound order tx c (.in field values) := by
        unfold entriesFound pendingFound IndexLookup.tests IndexLookup.pendingTests
        rw [List.map_map, List.map_map, ← List.sum_map_add]
        simp [eqCandidates, candidates]
      rw [hsplit]
      simpa using hroom
    have hps : ∀ v ∈ values, PlainScan order tx db c index
        (BTreeIndex.withPrefix (encodeIndexPrefix [v])) (Transaction.fieldMatches · field v) :=
      fun v hv => hscan (List.mem_map.mpr ⟨v, hv, rfl⟩) (List.mem_map.mpr ⟨v, hv, rfl⟩)
    obtain ⟨r, hr, hids⟩ := scanIndexInLoop_candidates h hrun hbuf hplain.separate values [] false
      hps hsum
    refine ⟨⟨(r.1.mergeSort fun a b => (compare (utf8 a) (utf8 b)).isLE).dedup, r.2⟩,
      by simp only [Transaction.scan, Transaction.scanIndexIn, hr, Except.map],
      List.nodup_dedup _, fun id => ?_⟩
    rw [List.mem_dedup, List.mem_mergeSort, hids, List.nil_append, List.mem_flatMap]
    simp only [eqCandidates, mem_candidates hdb hindex hbtree, IndexLookup.Matches,
      IndexLookup.MatchesPending, IndexLookup.tests, IndexLookup.pendingTests, List.mem_map]
    constructor
    · rintro ⟨v, hv, ⟨d, hd, hpass, hkey⟩ | ⟨p, hp, hm, hid⟩⟩
      · exact Or.inl ⟨d, hd, ⟨_, ⟨v, hv, rfl⟩, hpass⟩, hkey⟩
      · exact Or.inr ⟨p, hp, ⟨_, ⟨v, hv, rfl⟩, hm⟩, hid⟩
    · rintro (⟨d, hd, ⟨_, ⟨v, hv, rfl⟩, hpass⟩, hkey⟩ | ⟨p, hp, ⟨_, ⟨v, hv, rfl⟩, hm⟩, hid⟩)
      · exact ⟨v, hv, Or.inl ⟨d, hd, hpass, hkey⟩⟩
      · exact ⟨v, hv, Or.inr ⟨p, hp, hm, hid⟩⟩

end Found

/-! ## What storage finds -/

section Stored

variable {db : Database} {c : String} {index : IndexDef}

omit [External] in
/-- With room for all entries no scan is left out and none is cut. -/
theorem flatMap_scansMade {limit found : Nat} {scans : List (List String)}
    (h : found + (scans.map List.length).sum ≤ limit) :
    (scansMade limit found scans).flatMap (fun entries => entries.take (limit + 1)) =
      scans.flatten := by
  induction scans generalizing found with
  | nil => rfl
  | cons entries scans ih =>
    rw [List.map_cons, List.sum_cons] at h
    have htake : entries.take (limit + 1) = entries := List.take_of_length_le (by omega)
    rw [scansMade, List.flatMap_cons, htake, List.flatten_cons]
    split
    · have hrest : scans.flatten = [] := by
        refine List.length_eq_zero_iff.mp ?_
        rw [List.length_flatten]
        omega
      rw [hrest, List.flatMap_nil]
    · rw [ih (by omega)]

/-- With room for all entries, a scan of storage returns the keys of the documents that match,
each once. -/
theorem Database.scan_ids {lookup : IndexLookup} (hdb : db.IndexExact)
    (h : Database.btreeLeadBy (db.indexes c) lookup.fields = some index) {limit : Nat}
    (hroom : entriesFound db c index lookup ≤ limit) :
    ∃ r, db.scan c lookup limit = .ok r ∧ r.docIds.Nodup ∧ ∀ id, id ∈ r.docIds ↔
      ∃ d, db.Stored c d ∧ lookup.Matches index d ∧ d.key = id := by
  obtain ⟨hindex, hbtree, -⟩ := Database.of_btreeLeadBy h
  have hone : ∀ {test : Bytes → Bool} {r : ScanResult}, lookup.tests = [test] →
      r.docIds = (db.entriesWhere c index test).take (limit + 1) →
      r.docIds.Nodup ∧ ∀ id, id ∈ r.docIds ↔
        ∃ d, db.Stored c d ∧ lookup.Matches index d ∧ d.key = id := by
    intro test r htest hr
    have hlen : (db.entriesWhere c index test).length ≤ limit := by
      unfold entriesFound at hroom
      rw [htest] at hroom
      simpa using hroom
    rw [hr, List.take_of_length_le (by omega)]
    refine ⟨Database.entriesWhere_nodup hdb hindex hbtree test, fun id => ?_⟩
    rw [Database.mem_entriesWhere hdb hindex hbtree]
    simp only [IndexLookup.Matches, htest, List.mem_singleton, exists_eq_left]
  cases lookup with
  | eq field value =>
    obtain ⟨r, hr, hids⟩ := Database.scanIndexEq_eq h limit value
    exact ⟨r, hr, hone rfl hids⟩
  | range field op value =>
    obtain ⟨r, hr, hids⟩ := Database.scanIndexRange_eq h limit value op
    exact ⟨r, hr, hone rfl hids⟩
  | rangeBetween field lower lowerInclusive upper upperInclusive =>
    obtain ⟨r, hr, hids⟩ := Database.scanIndexRangeBetween_eq h limit lower lowerInclusive upper
      upperInclusive
    exact ⟨r, hr, hone rfl hids⟩
  | compoundEq fieldValues =>
    obtain ⟨r, hr, hids⟩ := Database.scanCompoundIndexEq_eq h limit
    exact ⟨r, hr, hone rfl hids⟩
  | «in» field values =>
    obtain ⟨r, hr, hids⟩ := scanIndexInLoop_eq h limit [] false values
    refine ⟨⟨(r.1.mergeSort fun a b => (compare (utf8 a) (utf8 b)).isLE).dedup, r.2⟩,
      by simp only [Database.scan, Database.scanIndexIn, hr, Except.map],
      List.nodup_dedup _, fun id => ?_⟩
    have hsum : ([] : List String).length + ((values.map fun value => db.entriesWhere c index
        (BTreeIndex.withPrefix (encodeIndexPrefix [value]))).map List.length).sum ≤ limit := by
      unfold entriesFound IndexLookup.tests at hroom
      rw [List.map_map] at hroom ⊢
      rw [List.length_nil, Nat.zero_add]
      exact hroom
    rw [List.mem_dedup, List.mem_mergeSort, hids, List.nil_append, flatMap_scansMade hsum,
      List.mem_flatten]
    simp only [IndexLookup.Matches, IndexLookup.tests, List.mem_map, exists_exists_and_eq_and,
      Database.mem_entriesWhere hdb hindex hbtree]
    constructor
    · rintro ⟨v, hv, d, hd, hpass, hkey⟩
      exact ⟨d, hd, ⟨v, hv, hpass⟩, hkey⟩
    · rintro ⟨d, hd, ⟨v, hv, hpass⟩, hkey⟩
      exact ⟨v, hv, d, hd, hpass, hkey⟩

/-- What a lookup of storage obtains, if there is room: the documents that match, each once. -/
theorem Database.obtains {l : TxLookup} (hdb : db.IndexExact)
    (h : Database.btreeLeadBy (db.indexes c) l.lookup.fields = some index) {limit : Nat}
    (hroom : entriesFound db c index l.lookup ≤ limit) :
    ∃ docs, db.Obtains c l limit docs ∧ docs.Nodup ∧
      ∀ d, d ∈ docs ↔ db.Stored c d ∧ l.lookup.Matches index d := by
  obtain ⟨r, hr, hnodup, hids⟩ := Database.scan_ids hdb h hroom
  refine ⟨db.getDocumentsByIds c r.docIds, ?_, getDocumentsByIds_nodup hnodup, fun d => ?_⟩
  · cases l with
    | ids lookup => exact ⟨r, hr, rfl⟩
    | compoundDocs fieldValues =>
      refine ⟨r.exceededLimit, ?_⟩
      have hscan : db.scanCompoundIndexEq c fieldValues limit = .ok r := hr
      simp only [Database.scanCompoundIndexEqDocs, hscan, Except.map]
  · rw [mem_getDocumentsByIds, hids]
    refine and_congr_right fun hd => ⟨?_, fun hm => ⟨d, hd, hm, rfl⟩⟩
    rintro ⟨d', hd', hm, hkey⟩
    rwa [hd.unique hd' hkey.symm]

theorem Transaction.Obtains.unique {order : IterOrder} {tx : Transaction} {l : TxLookup} {limit : Nat}
    {docs docs' : List Document} (h : tx.Obtains order db c l limit docs)
    (h' : tx.Obtains order db c l limit docs') : docs = docs' := by
  cases l with
  | ids lookup =>
    obtain ⟨r, hr, hdocs⟩ := h
    obtain ⟨r', hr', hdocs'⟩ := h'
    rw [Except.ok.inj (hr.symm.trans hr')] at hdocs
    exact Except.ok.inj (hdocs.symm.trans hdocs')
  | compoundDocs fieldValues =>
    obtain ⟨e, he⟩ := h
    obtain ⟨e', he'⟩ := h'
    exact congrArg Prod.fst (Except.ok.inj (he.symm.trans he'))

theorem Database.Obtains.unique {l : TxLookup} {limit : Nat} {docs docs' : List Document}
    (h : db.Obtains c l limit docs) (h' : db.Obtains c l limit docs') : docs = docs' := by
  cases l with
  | ids lookup =>
    obtain ⟨r, hr, rfl⟩ := h
    obtain ⟨r', hr', rfl⟩ := h'
    rw [Except.ok.inj (hr.symm.trans hr')]
  | compoundDocs fieldValues =>
    obtain ⟨e, he⟩ := h
    obtain ⟨e', he'⟩ := h'
    exact congrArg Prod.fst (Except.ok.inj (he.symm.trans he'))

end Stored

/-! ## What a transaction obtains -/

section Obtained

variable {db : Database} {ops : List TxOp} {c : String} {tx : Transaction} {index : IndexDef}
  {limit : Nat}

theorem storedMatches_iff {lookup : IndexLookup} {d : Document} :
    StoredMatches db c index lookup d ↔
      ∃ s, db.Stored c s ∧ lookup.Matches index s ∧ s.key = d.key := by
  refine ⟨?_, ?_⟩
  · rintro ⟨s, hs, hm⟩
    rw [Database.getDocument_eq] at hs
    exact ⟨s, Database.stored_of_docs hs, hm, utf8_injective (db.keyed hs)⟩
  · rintro ⟨s, hs, hm, hkey⟩
    refine ⟨s, ?_, hm⟩
    unfold Document.keyBytes
    rw [← hkey]
    exact hs

/-- Reading the ids through the buffer. -/
theorem obtains_ids (order : IterOrder) {lookup : IndexLookup} (hdb : db.IndexExact)
    (h : Database.btreeLeadBy (db.indexes c) lookup.fields = some index)
    (hplain : PlainNames order db ops tx c index lookup) (hrun : TxOp.run ops = .ok tx)
    (hbuf : TxOp.Buffered ops tx)
    (hroom : entriesFound db c index lookup + pendingFound order tx c lookup ≤ limit) :
    ∃ docs, tx.Obtains order db c (.ids lookup) limit docs ∧
      (docs.Nodup ↔ ∀ p ∈ tx.pendingInsertsForCollection order c,
        ¬ (StoredMatches db c index lookup p ∧ lookup.MatchesPending p)) ∧
      ∀ d, d ∈ docs ↔ overlay db ops c d.key = some d ∧ (StoredMatches db c index lookup d ∨
        ∃ p ∈ tx.pendingInsertsForCollection order c, p.key = d.key ∧ lookup.MatchesPending p) := by
  obtain ⟨r, hr, hnodup, hids⟩ := scan_ids order hdb h hplain hrun hbuf hroom
  -- an id is a bare key or the id of a pending document, and both lead to their key
  have hseg : ∀ id ∈ r.docIds,
      (∃ s, db.Stored c s ∧ lookup.Matches index s ∧ s.key = id ∧ ':' ∉ id.toList ∧
        (splitChar ':' id).getLast?.getD id = s.key) ∨
      ∃ p ∈ tx.pendingInsertsForCollection order c, lookup.MatchesPending p ∧ p.id = id ∧
        ':' ∈ id.toList ∧ (splitChar ':' id).getLast?.getD id = p.key := by
    intro id hid
    rcases (hids id).mp hid with ⟨s, hs, hm, rfl⟩ | ⟨p, hp, hm, rfl⟩
    · have hsep := hplain.stored s hs hm
      exact Or.inl ⟨s, hs, hm, rfl, hsep, lastSegment_plain hsep⟩
    · obtain ⟨hid, hkey⟩ := hplain.pending p hp hm
      exact Or.inr ⟨p, hp, hm, rfl, hid, lastSegment_id hid hkey⟩
  refine ⟨_, ⟨r, hr, getDocumentsByIds_ok hbuf hplain.separate r.docIds⟩, ?_, fun d => ?_⟩
  · refine ⟨?_, ?_⟩
    · -- the bare key and the id of one document are two ids that lead to it
      rintro hdocs p hp ⟨hstored, hm⟩
      obtain ⟨s, hs, hsm, hkey⟩ := storedMatches_iff.mp hstored
      have hsep := hplain.stored s hs hsm
      obtain ⟨hid, hpsep⟩ := hplain.pending p hp hm
      have hov := (pending_overlay hbuf hplain.separate hp).2
      have hne : s.key ≠ p.id := by
        intro heq
        rw [heq] at hsep
        exact hsep hid
      have hpw := List.pairwise_filterMap.mp hdocs
      have hsymm : Std.Symm fun id id' : String => ∀ b,
          overlay db ops c ((splitChar ':' id).getLast?.getD id) = some b →
          ∀ b', overlay db ops c ((splitChar ':' id').getLast?.getD id') = some b' → b ≠ b' :=
        ⟨fun id id' hid b hb b' hb' => (hid b' hb' b hb).symm⟩
      refine hpw.forall ((hids s.key).mpr (Or.inl ⟨s, hs, hsm, rfl⟩))
        ((hids p.id).mpr (Or.inr ⟨p, hp, hm, rfl⟩)) hne p ?_ p ?_ rfl
      · rw [lastSegment_plain hsep, hkey]
        exact hov
      · rw [lastSegment_id hid hpsep]
        exact hov
    · intro hnone
      refine List.pairwise_filterMap.mpr (hnodup.imp_of_mem ?_)
      intro id id' hid hid' hne b hb b' hb' heq
      subst heq
      have hkey := overlay_key hb
      have hkey' := overlay_key hb'
      rcases hseg id hid with ⟨s, hs, hm, rfl, -, hlast⟩ | ⟨p, hp, hm, rfl, -, hlast⟩
      · rcases hseg id' hid' with ⟨s', hs', hm', rfl, -, hlast'⟩ | ⟨p', hp', hm', rfl, -, hlast'⟩
        · exact hne (by rw [← hlast, ← hlast', ← hkey, ← hkey'])
        · refine hnone p' hp' ⟨storedMatches_iff.mpr ⟨s, hs, hm, ?_⟩, hm'⟩
          rw [← hlast, ← hlast', ← hkey, ← hkey']
      · rcases hseg id' hid' with ⟨s', hs', hm', rfl, -, hlast'⟩ | ⟨p', hp', hm', rfl, -, hlast'⟩
        · refine hnone p hp ⟨storedMatches_iff.mpr ⟨s', hs', hm', ?_⟩, hm⟩
          rw [← hlast, ← hlast', ← hkey, ← hkey']
        · have hov := (pending_overlay hbuf hplain.separate hp).2
          have hov' := (pending_overlay hbuf hplain.separate hp').2
          have hpk : p.key = p'.key := by rw [← hlast, ← hlast', ← hkey, ← hkey']
          rw [hpk, hov', Option.some_inj] at hov
          exact hne (by rw [hov])
  · rw [List.mem_filterMap, storedMatches_iff]
    refine ⟨?_, ?_⟩
    · rintro ⟨id, hid, hd⟩
      have hkey := overlay_key hd
      refine ⟨by rw [hkey]; exact hd, ?_⟩
      rcases hseg id hid with ⟨s, hs, hm, -, -, hlast⟩ | ⟨p, hp, hm, -, -, hlast⟩
      · exact Or.inl ⟨s, hs, hm, by rw [hkey, hlast]⟩
      · exact Or.inr ⟨p, hp, by rw [hkey, hlast], hm⟩
    · rintro ⟨hd, ⟨s, hs, hm, hkey⟩ | ⟨p, hp, hkey, hm⟩⟩
      · have hid := (hids s.key).mpr (Or.inl ⟨s, hs, hm, rfl⟩)
        refine ⟨s.key, hid, ?_⟩
        have hsep := hplain.stored s hs hm
        rw [lastSegment_plain hsep, hkey]
        exact hd
      · refine ⟨p.id, (hids p.id).mpr (Or.inr ⟨p, hp, hm, rfl⟩), ?_⟩
        obtain ⟨hid, hsep⟩ := hplain.pending p hp hm
        rw [lastSegment_id hid hsep, hkey]
        exact hd

/-- Documents directly: what the transaction has written is taken from the buffer alone. -/
theorem obtains_docs (order : IterOrder) {fieldValues : List (String × Value)} (hdb : db.IndexExact)
    (h : Database.btreeLeadBy (db.indexes c) (fieldValues.map (·.1)) = some index)
    (hbuf : TxOp.Buffered ops tx) (hsep : SeparateKeys db ops c)
    (hroom : entriesFound db c index (.compoundEq fieldValues) +
      pendingFound order tx c (.compoundEq fieldValues) ≤ limit) :
    ∃ docs, tx.Obtains order db c (.compoundDocs fieldValues) limit docs ∧ docs.Nodup ∧
      ∀ d, d ∈ docs ↔
        (db.Stored c d ∧ (IndexLookup.compoundEq fieldValues).Matches index d ∧
          tx.pendingWrites.lookup (encodeDocKey c d.key) = none) ∨
        (d ∈ tx.pendingInsertsForCollection order c ∧
          (IndexLookup.compoundEq fieldValues).MatchesPending d) := by
  obtain ⟨hindex, hbtree, -⟩ := Database.of_btreeLeadBy h
  obtain ⟨r, hr, hids⟩ := Database.scanCompoundIndexEq_eq h (limit + Transaction.scanBuffer)
  have hfound : entriesFound db c index (.compoundEq fieldValues) = (db.entriesWhere c index
      (BTreeIndex.withPrefix (encodeIndexPrefix (fieldValues.map (·.2))))).length := by
    simp [entriesFound, IndexLookup.tests]
  have hpfound : pendingFound order tx c (.compoundEq fieldValues) =
      ((tx.pendingInsertsForCollection order c).filter
        (Transaction.allFieldsMatch · fieldValues)).length := by
    simp [pendingFound, IndexLookup.pendingTests]
  rw [List.take_of_length_le (by omega)] at hids
  have huntouched : ∀ d : Document, d ∈ (db.getDocumentsByIds c r.docIds).filter (fun doc =>
      (tx.pendingWrites.lookup (encodeDocKey c doc.key)).isNone) ↔
      db.Stored c d ∧ (IndexLookup.compoundEq fieldValues).Matches index d ∧
        tx.pendingWrites.lookup (encodeDocKey c d.key) = none := by
    intro d
    rw [List.mem_filter, mem_getDocumentsByIds, hids, Option.isNone_iff_eq_none, and_assoc]
    refine and_congr_right fun hd => and_congr_left fun _ => ?_
    rw [Database.key_mem_entriesWhere hdb hindex hbtree hd]
    simp [IndexLookup.Matches, IndexLookup.tests]
  have hadded : ∀ d : Document, d ∈ (tx.pendingInsertsForCollection order c).filter
      (Transaction.allFieldsMatch · fieldValues) ↔ d ∈ tx.pendingInsertsForCollection order c ∧
        (IndexLookup.compoundEq fieldValues).MatchesPending d := by
    intro d
    simp [IndexLookup.MatchesPending, IndexLookup.pendingTests, List.mem_filter]
  set docs := (db.getDocumentsByIds c r.docIds).filter (fun doc =>
      (tx.pendingWrites.lookup (encodeDocKey c doc.key)).isNone) ++
    (tx.pendingInsertsForCollection order c).filter (Transaction.allFieldsMatch · fieldValues)
    with hdocs
  have hlen : docs.length ≤ limit := by
    have hle : ((db.getDocumentsByIds c r.docIds).filter (fun doc =>
        (tx.pendingWrites.lookup (encodeDocKey c doc.key)).isNone)).length ≤ r.docIds.length :=
      (List.length_filter_le _ _).trans (List.length_filterMap_le _ _)
    have hrlen := congrArg List.length hids
    rw [hdocs, List.length_append]
    omega
  refine ⟨docs, ⟨decide (limit < docs.length), ?_⟩, ?_, fun d => ?_⟩
  · simp only [Transaction.scanCompoundIndexEqDocs, Database.scanCompoundIndexEqDocs, hr, Except.map]
    rw [← hdocs, List.take_of_length_le hlen]
  · refine List.nodup_append'.mpr ⟨?_, (tx.pendingInserts_nodup order c).filter _, ?_⟩
    · refine (getDocumentsByIds_nodup ?_).filter _
      rw [hids]
      exact Database.entriesWhere_nodup hdb hindex hbtree _
    · -- a pending document has been written
      intro d hd hd'
      have hnone := ((huntouched d).mp hd).2.2
      rw [(pending_overlay hbuf hsep ((hadded d).mp hd').1).1] at hnone
      cases hnone
  · rw [hdocs, List.mem_append, huntouched, hadded]

omit [External] in
/-- A document of the overlay is a pending insert, or it is stored and was not written. -/
theorem overlay_cases (order : IterOrder) (hbuf : TxOp.Buffered ops tx)
    (hsep : SeparateKeys db ops c) {d : Document}
    (hd : overlay db ops c d.key = some d) :
    d ∈ tx.pendingInsertsForCollection order c ∨
      (db.Stored c d ∧ tx.pendingWrites.lookup (encodeDocKey c d.key) = none) := by
  have hcase := lookup_overlay hbuf hsep d.key
  split at hcase
  · next d' hl =>
    rw [hcase.2, Option.some_inj] at hd
    subst hd
    exact Or.inl (Transaction.mem_pendingInserts.mpr ⟨_, hl⟩)
  · rw [hcase] at hd
    cases hd
  · next hl =>
    rw [overlay_eq, hcase] at hd
    exact Or.inr ⟨hd, hl⟩

/-- What a lookup of the transaction obtains is, as a list without repetitions, what the index
holds for the overlay, exactly if each pending insert is found once. -/
theorem obtains_overlay_iff (order : IterOrder) {l : TxLookup} (hdb : db.IndexExact)
    (h : Database.btreeLeadBy (db.indexes c) l.lookup.fields = some index)
    (hplain : PlainNames order db ops tx c index l.lookup) (hrun : TxOp.run ops = .ok tx)
    (hroom : entriesFound db c index l.lookup + pendingFound order tx c l.lookup ≤ limit) :
    ∃ docs, tx.Obtains order db c l limit docs ∧
      ((docs.Nodup ∧ ∀ d, d ∈ docs ↔ overlay db ops c d.key = some d ∧ l.lookup.Matches index d) ↔
        ∀ p ∈ tx.pendingInsertsForCollection order c, FoundOnce db c index l p) := by
  obtain ⟨tx', hrun', hbuf⟩ := TxOp.run_ok ops
  obtain rfl : tx' = tx := Except.ok.inj (hrun'.symm.trans hrun)
  have hsep := hplain.separate
  -- a pending document is the only one under its key
  have hsame : ∀ {p d : Document}, p ∈ tx'.pendingInsertsForCollection order c →
      overlay db ops c d.key = some d → p.key = d.key → p = d := by
    intro p d hp hd hkey
    have hov := (pending_overlay hbuf hsep hp).2
    rw [hkey, hd, Option.some_inj] at hov
    exact hov.symm
  cases l with
  | ids lookup =>
    obtain ⟨docs, hobt, hnodup, hdocs⟩ := obtains_ids order hdb h hplain hrun hbuf hroom
    refine ⟨docs, hobt, ?_⟩
    rw [hnodup]
    refine ⟨?_, ?_⟩
    · rintro ⟨hnot, hmem⟩ p hp
      have hov := (pending_overlay hbuf hsep hp).2
      refine ⟨⟨fun hm => ?_, fun hor => ?_⟩, hnot p hp⟩
      · rcases ((hdocs p).mp ((hmem p).mpr ⟨hov, hm⟩)).2 with hst | ⟨p', hp', hkey, hm'⟩
        · exact Or.inl hst
        · exact Or.inr (hsame hp' hov hkey ▸ hm')
      · refine ((hmem p).mp ((hdocs p).mpr ⟨hov, ?_⟩)).2
        exact hor.imp id fun hm => ⟨p, hp, rfl, hm⟩
    · intro hall
      refine ⟨fun p hp => (hall p hp).2, fun d => (hdocs d).trans (and_congr_right fun hd => ?_)⟩
      rcases overlay_cases order hbuf hsep hd with hp | ⟨hst, hnone⟩
      · refine Iff.trans (or_congr_right ⟨?_, fun hm => ⟨d, hp, rfl, hm⟩⟩) (hall d hp).1.symm
        rintro ⟨p, hp', hkey, hm⟩
        exact hsame hp' hd hkey ▸ hm
      · -- not written: the stored version is the document itself
        refine ⟨?_, fun hm => Or.inl ⟨d, hst, hm⟩⟩
        rintro (⟨s, hs, hm⟩ | ⟨p, hp, hkey, -⟩)
        · have hs' : db.getDocument c d.keyBytes = some d := hst
          rw [hs', Option.some_inj] at hs
          exact hs ▸ hm
        · have hl := (pending_overlay hbuf hsep hp).1
          rw [hkey, hnone] at hl
          cases hl
  | compoundDocs fieldValues =>
    obtain ⟨docs, hobt, hnodup, hdocs⟩ := obtains_docs order hdb h hbuf hsep hroom
    refine ⟨docs, hobt, ?_⟩
    refine ⟨?_, ?_⟩
    · rintro ⟨-, hmem⟩ p hp
      obtain ⟨hl, hov⟩ := pending_overlay hbuf hsep hp
      refine ⟨fun hm => ?_, fun hm => ?_⟩
      · rcases (hdocs p).mp ((hmem p).mpr ⟨hov, hm⟩) with ⟨-, -, hnone⟩ | ⟨-, hm'⟩
        · rw [hl] at hnone
          cases hnone
        · exact hm'
      · exact ((hmem p).mp ((hdocs p).mpr (Or.inr ⟨hp, hm⟩))).2
    · intro hall
      refine ⟨hnodup, fun d => (hdocs d).trans ⟨?_, ?_⟩⟩
      · rintro (⟨hst, hm, hnone⟩ | ⟨hp, hm⟩)
        · have hcase := lookup_overlay hbuf hsep d.key
          rw [hnone] at hcase
          refine ⟨?_, hm⟩
          rw [overlay_eq, hcase]
          exact hst
        · exact ⟨(pending_overlay hbuf hsep hp).2, (hall d hp).mpr hm⟩
      · rintro ⟨hd, hm⟩
        rcases overlay_cases order hbuf hsep hd with hp | ⟨hst, hnone⟩
        · exact Or.inr ⟨hp, (hall d hp).mp hm⟩
        · exact Or.inl ⟨hst, hm, hnone⟩

section Commit

variable {order : IterOrder} {db' : Database} {l : TxLookup} (hdb : db.IndexExact)
  (hcommitted : Committed db ops db')
  (h : Database.btreeLeadBy (db.indexes c) l.lookup.fields = some index)
  (hplain : PlainNames order db ops tx c index l.lookup) (hrun : TxOp.run ops = .ok tx)

include hdb hcommitted h hplain hrun

/-- The documents obtained before and after the commit, each set without repetitions. -/
theorem obtains_committed
    (hroom : entriesFound db c index l.lookup + pendingFound order tx c l.lookup ≤ limit)
    (hroom' : entriesFound db' c index l.lookup ≤ limit) :
    ∃ docs docs', tx.Obtains order db c l limit docs ∧ db'.Obtains c l limit docs' ∧
      (docs.Perm docs' ↔
        ∀ p ∈ tx.pendingInsertsForCollection order c, FoundOnce db c index l p) := by
  obtain ⟨docs, hobt, hiff⟩ := obtains_overlay_iff order hdb h hplain hrun hroom
  obtain ⟨docs', hobt', hnodup', hdocs'⟩ := Database.obtains hcommitted.indexExact
    (hcommitted.indexes ▸ h) hroom'
  have hstored : ∀ d : Document, db'.Stored c d ↔ overlay db ops c d.key = some d := by
    intro d
    rw [← hcommitted.docs c d.key]
    rfl
  simp only [hstored] at hdocs'
  refine ⟨docs, docs', hobt, hobt', ?_⟩
  rw [← hiff]
  refine ⟨fun hperm => ?_, fun ⟨hnodup, hdocs⟩ => ?_⟩
  · exact ⟨hperm.nodup_iff.mpr hnodup', fun d => hperm.mem_iff.trans (hdocs' d)⟩
  · refine (List.perm_ext_iff_of_nodup hnodup hnodup').mpr fun d => ?_
    rw [hdocs, hdocs']

end Commit

end Obtained

end Lookup

/-! ## Lookups on a shelf -/

namespace Basket

open StellarDb.Shelf

local instance : External := .standIn

theorem item_collection (i : Nat) : (item i).collection = "items" := by
  unfold Document.collection
  simp [item, String.toList_append]

theorem plain_item_key (i : Nat) : ':' ∉ (item i).key.toList := by
  rw [item_key]
  simp [StellarDb.Star.name]

theorem sep_item_id (i : Nat) : ':' ∈ (item i).id.toList := by
  simp [item, String.toList_append]

theorem getDocument_stocked (n : Nat) (c k : String) (d : Document) :
    (stocked n).getDocument c (utf8 k) = some d ↔
      c = "items" ∧ ∃ i < n, (item i).key = k ∧ item i = d := by
  unfold Database.getDocument stocked
  by_cases hc : c = "items"
  · simp only [hc, if_true, Option.bind_some, getElem?_shelf, true_and, Document.keyBytes, utf8_inj]
  · simp [hc]

/-- Writing an item to the first `n` items gives the first `m` items. -/
theorem committed {n m i : Nat} (hm : ∀ j, j < m ↔ j < n ∨ j = i) (op : TxOp)
    (hop : op.result = some (item i)) : Committed (stocked n) [op] (stocked m) where
  indexes := rfl
  indexExact := stocked_indexExact m
  docs := by
    intro c k
    obtain ⟨hopc, hopk⟩ := collection_key_of_result hop
    rw [item_collection] at hopc
    show _ = if op.isOf c k then op.result else (stocked n).getDocument c (utf8 k)
    refine Option.ext fun d => ?_
    rw [getDocument_stocked]
    by_cases hof : op.isOf c k = true
    · obtain ⟨hc, hk⟩ := isOf_iff.mp hof
      rw [if_pos hof, hop, Option.some_inj]
      refine ⟨?_, ?_⟩
      · rintro ⟨-, j, -, hj, rfl⟩
        have hkey : (item j).key = (item i).key := by rw [hj, hopk, hk]
        rw [item_keyBytes_injective (congrArg utf8 hkey)]
      · rintro rfl
        exact ⟨hc.symm.trans hopc.symm, i, (hm i).mpr (Or.inr rfl), hopk.trans hk, rfl⟩
    · rw [if_neg hof, getDocument_stocked]
      refine and_congr_right fun hc => exists_congr fun j => ?_
      rw [hm j]
      refine ⟨?_, fun ⟨hj, h⟩ => ⟨Or.inl hj, h⟩⟩
      rintro ⟨hj | rfl, hkey, rfl⟩
      · exact ⟨hj, hkey, rfl⟩
      · exact absurd (isOf_iff.mpr ⟨hopc.symm.trans hc.symm, hopk.symm.trans hkey⟩) hof

/-- The transaction after one write of an item. -/
def written (i : Nat) : Transaction :=
  Transaction.new.pend _ _ (TxOp.insert (item i)).pending_namedBy ∅

theorem pending_written {i : Nat} {p : Document}
    (hp : p ∈ (written i).pendingInsertsForCollection .asKept "items") : p = item i := by
  obtain ⟨k, hk⟩ := Transaction.mem_pendingInserts.mp hp
  unfold written at hk
  rw [TxOp.lookup_pend] at hk
  split at hk
  · cases hk
    rfl
  · cases hk

/-- One item is stored, and a transaction writes an item. -/
theorem plainNames (i : Nat) (op : TxOp) (hop : op.result = some (item i)) :
    PlainNames .asKept (stocked 1) [op] (written i) "items" Stock.single aIsOne where
  separate := by
    intro k op' hlast hc
    rw [List.mem_singleton.mp (lastUnder_mem hlast).1, ← (collection_key_of_result hop).1,
      item_collection] at hc
    exact absurd rfl hc
  stored := by
    intro d hd _
    obtain ⟨j, -, rfl⟩ := (stored_stocked 1 d).mp hd
    exact plain_item_key j
  pending := by
    intro p hp _
    rw [pending_written hp]
    exact ⟨sep_item_id i, plain_item_key i⟩

theorem item_matchesPending (i : Nat) : aIsOne.MatchesPending (item i) :=
  ⟨_, List.mem_cons_self, rfl⟩

end Basket

end StellarDb
