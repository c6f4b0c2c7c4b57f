import StellarDb.Lib.Paging
import StellarDb.Indexes.Threshold
import StellarDb.Transaction

/-!
# StellarDb — a transaction reads its own document writes

What a transaction should show is the stored documents with its calls applied in order
(`overlay`). It shows them under two conditions (`readsOwnWrites_iff`):

* the buffer is keyed by the text `doc:{collection}:{key}`, so a call for a collection with a
  `:` in its name may hit the entry of another one;
* a listing reads the first 10000 stored documents, so what lies behind them is seen only if
  the transaction has written it.
-/

namespace StellarDb

open Keyspaces Paging

/-! ## Calls and the overlay -/

/-- A document call of a transaction. -/
inductive TxOp where
  | insert (doc : Document)
  | update (doc : Document)
  | delete (collection key : String)

namespace TxOp

def collection : TxOp → String
  | .insert doc => doc.collection
  | .update doc => doc.collection
  | .delete c _ => c

def key : TxOp → String
  | .insert doc => doc.key
  | .update doc => doc.key
  | .delete _ k => k

/-- The version the call leaves. -/
def result : TxOp → Option Document
  | .insert doc => some doc
  | .update doc => some doc
  | .delete _ _ => none

/-- The call is about this document. -/
def isOf (c k : String) (op : TxOp) : Bool := op.collection = c && op.key = k

/-- The key under which the call is buffered. -/
def bufferKey (op : TxOp) : Bytes := encodeDocKey op.collection op.key

def exec (tx : Transaction) : TxOp → Except TransactionError Transaction
  | .insert doc => tx.insert doc
  | .update doc => tx.update doc
  | .delete c k => tx.delete c k

/-- The calls of one transaction, from its beginning. -/
def run (ops : List TxOp) : Except TransactionError Transaction := ops.foldlM exec .new

/-- The last call about a document. -/
def lastOf (ops : List TxOp) (c k : String) : Option TxOp := ops.reverse.find? (isOf c k)

/-- The last call buffered under a key. -/
def lastUnder (ops : List TxOp) (key : Bytes) : Option TxOp :=
  ops.reverse.find? (·.bufferKey = key)

end TxOp

/-- The documents of a collection, in key order. -/
def Database.storedDocuments (db : Database) (c : String) : List Document :=
  (db.docs c).toList.map (·.2)

/-- The stored documents with the calls applied in order. -/
def overlay (db : Database) (ops : List TxOp) : String → String → Option Document :=
  ops.foldl (fun V op c k => if op.isOf c k then op.result else V c k)
    fun c k => db.getDocument c (utf8 k)

/-! ## Buffer keys -/

theorem encodeDocKey_inj {c k k' : String} : encodeDocKey c k = encodeDocKey c k' ↔ k = k' := by
  simp [encodeDocKey, String.append_assoc]

theorem collection_ne_of_key_ne {c k c' k' : String} (h : encodeDocKey c k = encodeDocKey c' k')
    (hc : c' ≠ c) : k' ≠ k := by
  rintro rfl
  have htext : "doc:" ++ c ++ ":" ++ k' = "doc:" ++ c' ++ ":" ++ k' := utf8_injective h
  have hlists := congrArg String.toList htext
  simp only [String.toList_append, List.append_cancel_right_eq,
    List.append_cancel_left_eq] at hlists
  exact hc (String.toList_inj.mp hlists).symm

/-- A buffered text starts with the collection if it is the text of some key of it. -/
theorem startsWith_encodeDocKey {c c' k' : String} :
    startsWith (fromUtf8Lossy (encodeDocKey c' k')) ("doc:" ++ c ++ ":") = true ↔
      ∃ k, encodeDocKey c' k' = encodeDocKey c k := by
  unfold startsWith encodeDocKey
  rw [fromUtf8Lossy_utf8, List.isPrefixOf_iff_prefix]
  refine ⟨?_, ?_⟩
  · rintro ⟨rest, hrest⟩
    refine ⟨String.ofList rest, congrArg utf8 (String.toList_inj.mp ?_)⟩
    rw [← hrest, String.toList_append (t := String.ofList rest), String.toList_ofList]
  · rintro ⟨k, hk⟩
    rw [utf8_injective hk, String.toList_append (t := k)]
    exact List.prefix_append _ _

/-! ## The buffer after a run -/

namespace TxOp

/-- The write that a call buffers. -/
def pending (op : TxOp) : PendingWrite Document :=
  match op.result with
  | some doc => .insert doc
  | none => .delete

theorem pending_namedBy (op : TxOp) : op.pending.NamedBy op.bufferKey := by
  cases op with
  | insert doc => exact rfl
  | update doc => exact rfl
  | delete c k => exact ⟨c, k, rfl⟩

/-- The deleted ids after the call. -/
def deletesAfter (deletes : Finset String) : TxOp → Finset String
  | .insert doc => deletes.erase doc.id
  | .update doc => deletes.erase doc.id
  | .delete c k => Insert.insert (c ++ ":" ++ k) deletes

theorem exec_active {tx : Transaction} (htx : tx.state = .active) (op : TxOp) :
    op.exec tx = .ok (tx.pend op.bufferKey op.pending op.pending_namedBy
      (op.deletesAfter tx.pendingDeletes)) := by
  have hensure : tx.ensureActive = .ok () := by
    unfold Transaction.ensureActive
    rw [htx]
    rfl
  cases op with
  | insert doc =>
    rw [exec, Transaction.insert, hensure]
    rfl
  | update doc =>
    rw [exec, Transaction.update, Transaction.insert, hensure]
    rfl
  | delete c k =>
    rw [exec, Transaction.delete, hensure]
    rfl

theorem lookup_pend (tx : Transaction) {key : Bytes} {w : PendingWrite Document}
    (hw : w.NamedBy key) (deletes : Finset String) (k : Bytes) :
    (tx.pend key w hw deletes).pendingWrites.lookup k =
      if key = k then some w else tx.pendingWrites.lookup k := by
  show (tx.pendingWrites.insert key w).lookup k = _
  split
  · next hk => rw [← hk, AList.lookup_insert]
  · next hk => exact AList.lookup_insert_ne (Ne.symm hk)

theorem run_snoc {ops : List TxOp} {tx : Transaction} (hrun : run ops = .ok tx) (op : TxOp) :
    run (ops ++ [op]) = op.exec tx := by
  unfold run at hrun ⊢
  rw [List.foldlM_append, hrun]
  show (exec tx op >>= pure) = op.exec tx
  rw [bind_pure]

/-- An active transaction whose buffer holds the last call under each key. -/
structure Buffered (ops : List TxOp) (tx : Transaction) : Prop where
  active : tx.state = .active
  lookup : ∀ key, tx.pendingWrites.lookup key = (lastUnder ops key).map pending

theorem run_ok (ops : List TxOp) : ∃ tx, run ops = .ok tx ∧ Buffered ops tx := by
  -- over the calls from the first to the last
  induction ops using List.reverseRecOn with
  | nil => exact ⟨.new, rfl, rfl, fun key => AList.lookup_empty key⟩
  | append_singleton ops op ih =>
    obtain ⟨tx, hrun, hbuf⟩ := ih
    refine ⟨_, (run_snoc hrun op).trans (exec_active hbuf.active op), hbuf.active, ?_⟩
    intro key
    rw [lookup_pend, hbuf.lookup, lastUnder, lastUnder, List.reverse_append, List.reverse_singleton,
      List.singleton_append, List.find?_cons]
    by_cases hk : op.bufferKey = key
    · simp [hk]
    · simp [hk]

end TxOp

/-! ## The overlay by last calls -/

section Overlay

variable {db : Database} {ops : List TxOp} {c k : String}

theorem overlay_eq (db : Database) (ops : List TxOp) (c k : String) :
    overlay db ops c k =
      match TxOp.lastOf ops c k with
      | some op => op.result
      | none => db.getDocument c (utf8 k) := by
  induction ops using List.reverseRecOn with
  | nil => rfl
  | append_singleton ops op ih =>
    unfold overlay TxOp.lastOf at ih ⊢
    rw [List.foldl_append, List.reverse_append, List.reverse_singleton, List.singleton_append,
      List.find?_cons]
    show (if op.isOf c k = true then op.result else _) = _
    by_cases hop : op.isOf c k = true
    · simp [hop]
    · rw [if_neg hop, ih]
      simp [hop]

theorem isOf_iff {op : TxOp} : op.isOf c k = true ↔ op.collection = c ∧ op.key = k := by
  simp [TxOp.isOf]

theorem bufferKey_of_isOf {op : TxOp} (h : op.isOf c k = true) :
    op.bufferKey = encodeDocKey c k := by
  obtain ⟨rfl, rfl⟩ := isOf_iff.mp h
  rfl

/-- A call that is the last under its text and about the collection is the last about its
document. -/
theorem lastOf_of_lastUnder {op : TxOp}
    (h : TxOp.lastUnder ops (encodeDocKey c k) = some op) (hc : op.collection = c) :
    op.key = k ∧ TxOp.lastOf ops c k = some op := by
  obtain ⟨htext, before, after, hops, hbefore⟩ := List.find?_eq_some_iff_append.mp h
  have hkey : op.key = k := by
    rw [decide_eq_true_eq, TxOp.bufferKey, hc] at htext
    exact encodeDocKey_inj.mp htext
  refine ⟨hkey, List.find?_eq_some_iff_append.mpr
    ⟨isOf_iff.mpr ⟨hc, hkey⟩, before, after, hops, ?_⟩⟩
  intro op' hop'
  have hne := hbefore op' hop'
  simp only [Bool.not_eq_true', decide_eq_false_iff_not] at hne
  rw [Bool.not_eq_true', ← Bool.not_eq_true]
  exact fun hof => hne (bufferKey_of_isOf hof)

theorem lastOf_eq_none_of_lastUnder (h : TxOp.lastUnder ops (encodeDocKey c k) = none) :
    TxOp.lastOf ops c k = none := by
  unfold TxOp.lastUnder at h
  refine List.find?_eq_none.mpr fun op hop hof => ?_
  have hne := List.find?_eq_none.mp h op hop
  rw [decide_eq_true_eq] at hne
  exact hne (bufferKey_of_isOf hof)

theorem lastOf_mem {op : TxOp} (h : TxOp.lastOf ops c k = some op) :
    op ∈ ops ∧ op.collection = c ∧ op.key = k :=
  ⟨List.mem_reverse.mp (List.mem_of_find?_eq_some h), isOf_iff.mp (List.find?_some h)⟩

theorem lastUnder_mem {op : TxOp} {key : Bytes} (h : TxOp.lastUnder ops key = some op) :
    op ∈ ops ∧ op.bufferKey = key := by
  refine ⟨List.mem_reverse.mp (List.mem_of_find?_eq_some h), ?_⟩
  have htext := List.find?_some h
  rwa [decide_eq_true_eq] at htext

theorem collection_key_of_result {op : TxOp} {d : Document} (h : op.result = some d) :
    d.collection = op.collection ∧ d.key = op.key := by
  cases op with
  | insert doc =>
    obtain rfl := Option.some.inj h
    exact ⟨rfl, rfl⟩
  | update doc =>
    obtain rfl := Option.some.inj h
    exact ⟨rfl, rfl⟩
  | delete c k => cases h

/-- A document of the overlay is under its own key. -/
theorem overlay_key {d : Document} (h : overlay db ops c k = some d) : d.key = k := by
  rw [overlay_eq] at h
  cases hlast : TxOp.lastOf ops c k with
  | some op =>
    rw [hlast] at h
    rw [(collection_key_of_result h).2, (lastOf_mem hlast).2.2]
  | none =>
    rw [hlast] at h
    have hstored : (db.docs c)[utf8 k]? = some d := (db.getDocument_eq c (utf8 k)).symm.trans h
    exact utf8_injective (db.keyed hstored)

end Overlay

/-! ## The stored documents of a listing -/

namespace Database

theorem listDocuments_first (db : Database) (c : String) (limit : Nat) :
    (db.listDocuments c none limit).1 = (db.storedDocuments c).take limit := by
  unfold listDocuments storedDocuments docs
  cases hks : db.keyspaces c with
  | none => simp
  | some ks =>
    simp only [← List.map_take]
    split
    · next hmore =>
      have hlen : (ks.docs.toList.take (limit + 1)).length = limit + 1 := by
        rw [List.length_map] at hmore
        have hle := List.length_take_le (limit + 1) ks.docs.toList
        omega
      rw [← List.map_dropLast, List.dropLast_eq_take, hlen, List.take_take]
      simp
    · next hall =>
      rw [List.length_map, List.length_take, not_lt] at hall
      rw [List.take_of_length_le (by omega), List.take_of_length_le (by omega)]

/-- One page of a list of entries, and the key of its last document if more follow. -/
def entriesPage (items : List (Bytes × Document)) (limit : Nat) : List Document × Option String :=
  if limit < items.length then
    (((items.take limit).map (·.2)), (items.take limit).getLast?.map (·.2.key))
  else (items.map (·.2), none)

theorem cutPage_eq (items : List (Bytes × Document)) (limit : Nat) :
    (if limit < ((items.take (limit + 1)).map (·.2)).length then
      (((items.take (limit + 1)).map (·.2)).dropLast,
        ((items.take (limit + 1)).map (·.2)).dropLast.getLast?.map (·.key))
    else ((items.take (limit + 1)).map (·.2), none)) = entriesPage items limit := by
  unfold entriesPage
  rw [List.length_map, List.length_take]
  by_cases hmore : limit < items.length
  · rw [if_pos (by omega), if_pos hmore, ← List.map_dropLast, List.dropLast_eq_take,
      List.length_take, List.take_take]
    rw [show min (min (limit + 1) items.length - 1) (limit + 1) = limit by omega, List.getLast?_map,
      Option.map_map]
    rfl
  · rw [if_neg (by omega), if_neg hmore, List.take_of_length_le (by omega)]

/-- Reading on from the key of a document goes on behind it. -/
theorem listDocuments_after {db : Database} {c : String} {front rest : List (Bytes × Document)}
    {e : Bytes × Document} (h : (db.docs c).toList = front ++ e :: rest) (limit : Nat) :
    db.listDocuments c (some e.2.key) limit = entriesPage rest limit := by
  have hmem : e ∈ (db.docs c).toList := by
    rw [h]
    exact List.mem_append_right _ List.mem_cons_self
  have hkey : utf8 e.2.key = e.1 :=
    db.keyed (Std.ExtTreeMap.mem_toList_iff_getElem?_eq_some.mp hmem)
  have hsorted := Std.ExtTreeMap.ordered_keys_toList (t := db.docs c)
  rw [h, List.pairwise_append, List.pairwise_cons] at hsorted
  have hfrom : ((db.docs c).toList.filter fun a => (compare (utf8 e.2.key) a.1).isLE) = e :: rest := by
    rw [h, hkey, List.filter_append]
    have hfront : front.filter (fun a => (compare e.1 a.1).isLE) = [] := by
      rw [List.filter_eq_nil_iff]
      intro a ha hle
      have hlt := hsorted.2.2 a ha e List.mem_cons_self
      have hgt : compare e.1 a.1 = .gt := Std.OrientedCmp.gt_iff_lt.mpr hlt
      rw [hgt] at hle
      cases hle
    have hrest : (e :: rest).filter (fun a => (compare e.1 a.1).isLE) = e :: rest := by
      rw [List.filter_eq_self]
      intro a ha
      rcases List.mem_cons.mp ha with rfl | ha
      · have hself : compare a.1 a.1 = .eq := Std.ReflCmp.compare_self
        rw [hself]
        rfl
      · rw [hsorted.2.1.1 a ha]
        rfl
    rw [hfront, hrest, List.nil_append]
  unfold listDocuments
  cases hks : db.keyspaces c with
  | none =>
    have hstored := Std.ExtTreeMap.mem_toList_iff_getElem?_eq_some.mp hmem
    simp [docs, hks] at hstored
  | some ks =>
    rw [docs, hks] at hfrom
    dsimp only at hfrom ⊢
    rw [hfrom, List.drop_one, List.tail_cons]
    exact cutPage_eq rest limit

theorem listDocuments_none (db : Database) (c : String) (limit : Nat) :
    db.listDocuments c none limit = entriesPage (db.docs c).toList limit := by
  unfold listDocuments docs
  cases db.keyspaces c with
  | none => simp [entriesPage]
  | some ks => exact cutPage_eq ks.docs.toList limit

theorem mem_storedDocuments {db : Database} {c : String} {d : Document} :
    d ∈ db.storedDocuments c ↔ db.getDocument c d.keyBytes = some d := by
  rw [getDocument_eq, storedDocuments, List.mem_map]
  refine ⟨?_, ?_⟩
  · rintro ⟨⟨k, d'⟩, hmem, rfl⟩
    rw [Std.ExtTreeMap.mem_toList_iff_getElem?_eq_some] at hmem
    show (db.docs c)[d'.keyBytes]? = some d'
    rw [db.keyed hmem]
    exact hmem
  · intro h
    exact ⟨(d.keyBytes, d), Std.ExtTreeMap.mem_toList_iff_getElem?_eq_some.mpr h, rfl⟩

theorem storedDocuments_keys_nodup (db : Database) (c : String) :
    ((db.storedDocuments c).map (·.key)).Nodup := by
  have hpw : (db.docs c).toList.Pairwise fun a b => a.1 ≠ b.1 := by
    refine (Std.ExtTreeMap.distinct_keys_toList (t := db.docs c)).imp ?_
    intro a b hab heq
    exact hab (by rw [heq]; exact Std.ReflCmp.compare_self)
  rw [storedDocuments, List.map_map]
  refine List.pairwise_map.mpr (hpw.imp_of_mem ?_)
  intro a b ha hb hne hkey
  have hka := db.keyed (Std.ExtTreeMap.mem_toList_iff_getElem?_eq_some.mp ha)
  have hkb := db.keyed (Std.ExtTreeMap.mem_toList_iff_getElem?_eq_some.mp hb)
  exact hne (by rw [← hka, ← hkb]; exact congrArg utf8 hkey)

end Database

/-! ## Pending inserts -/

namespace Transaction

variable {tx : Transaction} {c : String}

theorem mem_pendingInserts {order : IterOrder} {d : Document} :
    d ∈ tx.pendingInsertsForCollection order c ↔
      ∃ k, tx.pendingWrites.lookup (encodeDocKey c k) = some (.insert d) := by
  unfold pendingInsertsForCollection
  rw [List.mem_filterMap]
  refine ⟨?_, ?_⟩
  · rintro ⟨⟨key, w⟩, hmem, hd⟩
    have hlookup : tx.pendingWrites.lookup key = some w :=
      AList.mem_lookup_iff.mpr ((order.perm _).mem_iff.mp hmem)
    split at hd
    · next hstarts =>
      cases w with
      | delete => cases hd
      | insert doc =>
        obtain rfl := Option.some.inj hd
        have hnamed : key = encodeDocKey doc.collection doc.key := tx.named key _ hlookup
        subst hnamed
        obtain ⟨k, hk⟩ := startsWith_encodeDocKey.mp hstarts
        exact ⟨k, hk ▸ hlookup⟩
    · cases hd
  · rintro ⟨k, hlookup⟩
    refine ⟨⟨encodeDocKey c k, .insert d⟩,
      (order.perm _).mem_iff.mpr (AList.mem_lookup_iff.mp hlookup), ?_⟩
    rw [if_pos (startsWith_encodeDocKey.mpr ⟨k, rfl⟩)]

/-- A document is pending once. -/
theorem pendingInserts_nodup (order : IterOrder) (tx : Transaction) (c : String) :
    (tx.pendingInsertsForCollection order c).Nodup := by
  have hkeys : (order.iter tx.pendingWrites.entries).Nodup :=
    (order.perm _).nodup_iff.mpr (List.NodupKeys.nodup tx.pendingWrites.nodupKeys)
  refine List.pairwise_filterMap.mpr (hkeys.imp_of_mem ?_)
  rintro ⟨key, w⟩ ⟨key', w'⟩ hmem hmem' hne d hd d' hd' rfl
  have hlookup := AList.mem_lookup_iff.mpr ((order.perm _).mem_iff.mp hmem)
  have hlookup' := AList.mem_lookup_iff.mpr ((order.perm _).mem_iff.mp hmem')
  -- both entries are inserts of the document, hence under its key
  have hw : w = .insert d := by
    split at hd
    · cases w with
      | insert doc => rw [Option.some.inj hd]
      | delete => cases hd
    · cases hd
  have hw' : w' = .insert d := by
    split at hd'
    · cases w' with
      | insert doc => rw [Option.some.inj hd']
      | delete => cases hd'
    · cases hd'
  subst hw hw'
  have hk : key = key' := (tx.named key _ hlookup).trans (tx.named key' _ hlookup').symm
  exact hne (by rw [hk])

end Transaction

/-! ## When a transaction reads its own writes -/

/-- The reads of a transaction after the calls are those of the overlay. -/
structure ReadsOwnWrites (order : IterOrder) (db : Database) (ops : List TxOp) (c : String) :
    Prop where
  get : ∀ k, (TxOp.run ops >>= fun tx => tx.get db c k) = .ok (overlay db ops c k)
  list : ∀ limit, 1 ≤ limit → ∃ docs,
    Drains (fun after => TxOp.run ops >>= fun tx => tx.listDocumentsPaged order db c after limit)
      none docs ∧
    docs.Pairwise (fun a b => compare a.keyBytes b.keyBytes = .lt) ∧
    ∀ d, d ∈ docs ↔ ∃ k, overlay db ops c k = some d

/-- Where the last call under the text of a key of the collection is about another collection,
it deletes, and the overlay has no document there. -/
def SeparateKeys (db : Database) (ops : List TxOp) (c : String) : Prop :=
  ∀ k op, TxOp.lastUnder ops (encodeDocKey c k) = some op → op.collection ≠ c →
    op.result = none ∧ overlay db ops c k = none

/-- The stored documents behind those a listing reads are all written by the calls. -/
def WrittenBehind (db : Database) (ops : List TxOp) (c : String) : Prop :=
  ∀ d ∈ (db.storedDocuments c).drop Transaction.listedFromStorage,
    ∃ op ∈ ops, op.collection = c ∧ op.key = d.key

section Reads

variable {order : IterOrder} {db : Database} {ops : List TxOp} {c : String} {tx : Transaction}

/-- What the buffer says about a document of the collection. -/
theorem lookup_overlay (hbuf : TxOp.Buffered ops tx) (hsep : SeparateKeys db ops c) (k : String) :
    match tx.pendingWrites.lookup (encodeDocKey c k) with
    | some (.insert d) => d.collection = c ∧ overlay db ops c k = some d
    | some .delete => overlay db ops c k = none
    | none => TxOp.lastOf ops c k = none := by
  rw [hbuf.lookup]
  cases hlast : TxOp.lastUnder ops (encodeDocKey c k) with
  | none => exact lastOf_eq_none_of_lastUnder hlast
  | some op =>
    show match some op.pending with
      | some (.insert d) => d.collection = c ∧ overlay db ops c k = some d
      | some .delete => overlay db ops c k = none
      | none => TxOp.lastOf ops c k = none
    by_cases hc : op.collection = c
    · have hov : overlay db ops c k = op.result := by
        rw [overlay_eq, (lastOf_of_lastUnder hlast hc).2]
      cases hres : op.result with
      | none => simp only [TxOp.pending, hres, hov]
      | some d =>
        simp only [TxOp.pending, hres, hov, and_true]
        rw [(collection_key_of_result hres).1, hc]
    · obtain ⟨hres, hov⟩ := hsep k op hlast hc
      simp only [TxOp.pending, hres, hov]

theorem get_overlay (hbuf : TxOp.Buffered ops tx) (hsep : SeparateKeys db ops c) (k : String) :
    tx.get db c k = .ok (overlay db ops c k) := by
  have hcase := lookup_overlay hbuf hsep k
  unfold Transaction.get Transaction.ensureActive
  rw [if_neg (not_not.mpr hbuf.active)]
  show (match tx.pendingWrites.lookup (encodeDocKey c k) with
    | some (.insert doc) => Except.ok (some doc)
    | some .delete => Except.ok none
    | none => Except.ok (db.getDocument c (utf8 k))) = _
  split at hcase
  · rw [hcase.2]
  · rw [hcase]
  · rw [overlay_eq, hcase]

/-- A pending insert is under its own key. -/
theorem pending_overlay (hbuf : TxOp.Buffered ops tx) (hsep : SeparateKeys db ops c)
    {d : Document} (hd : d ∈ tx.pendingInsertsForCollection order c) :
    tx.pendingWrites.lookup (encodeDocKey c d.key) = some (.insert d) ∧
      overlay db ops c d.key = some d := by
  obtain ⟨k, hk⟩ := Transaction.mem_pendingInserts.mp hd
  have hcase := lookup_overlay hbuf hsep k
  rw [hk] at hcase
  obtain rfl : d.key = k := overlay_key hcase.2
  exact ⟨hk, hcase.2⟩

/-- The documents a listing takes from storage. -/
def untouched (tx : Transaction) (db : Database) (c : String) : List Document :=
  ((db.storedDocuments c).take Transaction.listedFromStorage).filter fun doc =>
    (tx.pendingWrites.lookup (encodeDocKey c doc.key)).isNone

theorem mergedDocuments_perm (order : IterOrder) (tx : Transaction) (db : Database) (c : String) :
    (tx.mergedDocuments order db c).Perm
      (untouched tx db c ++ tx.pendingInsertsForCollection order c) := by
  unfold Transaction.mergedDocuments
  rw [Database.listDocuments_first]
  exact List.mergeSort_perm _ _

theorem merged_keys_nodup (order : IterOrder) (hbuf : TxOp.Buffered ops tx)
    (hsep : SeparateKeys db ops c) :
    ((tx.mergedDocuments order db c).map (·.key)).Nodup := by
  rw [((mergedDocuments_perm order tx db c).map _).nodup_iff, List.map_append]
  refine List.nodup_append'.mpr ⟨?_, ?_, ?_⟩
  · exact (db.storedDocuments_keys_nodup c).sublist
      (((List.filter_sublist).trans (List.take_sublist _ _)).map _)
  · refine (tx.pendingInserts_nodup order c).map_on ?_
    intro d hd d' hd' hkey
    have hl := (pending_overlay hbuf hsep hd).1
    have hl' := (pending_overlay hbuf hsep hd').1
    rw [hkey, hl'] at hl
    cases hl
    rfl
  · intro key hmem hmem'
    obtain ⟨d, hd, rfl⟩ := List.mem_map.mp hmem
    obtain ⟨d', hd', hkey⟩ := List.mem_map.mp hmem'
    have hnone := (List.mem_filter.mp hd).2
    rw [← hkey, (pending_overlay hbuf hsep hd').1] at hnone
    cases hnone

theorem merged_sorted (order : IterOrder) (hbuf : TxOp.Buffered ops tx)
    (hsep : SeparateKeys db ops c) :
    (tx.mergedDocuments order db c).Pairwise
      fun a b => compare a.keyBytes b.keyBytes = .lt := by
  have hle : (tx.mergedDocuments order db c).Pairwise
      fun a b => (compare a.keyBytes b.keyBytes).isLE = true :=
    pairwise_mergeSort_by Document.keyBytes _
  have hne := List.pairwise_map.mp (merged_keys_nodup order hbuf hsep)
  refine (hle.and hne).imp ?_
  rintro a b ⟨hab, hkey⟩
  cases hcmp : compare a.keyBytes b.keyBytes with
  | lt => rfl
  | eq => exact absurd (utf8_injective (Std.LawfulEqCmp.eq_of_compare hcmp)) hkey
  | gt =>
    rw [hcmp] at hab
    cases hab

/-- The merged list is the overlay, if the calls have written what lies behind the stored part
of it. -/
theorem mem_merged (hbuf : TxOp.Buffered ops tx) (hsep : SeparateKeys db ops c)
    (hbehind : WrittenBehind db ops c) {d : Document} :
    d ∈ tx.mergedDocuments order db c ↔ ∃ k, overlay db ops c k = some d := by
  rw [(mergedDocuments_perm order tx db c).mem_iff, List.mem_append]
  refine ⟨?_, ?_⟩
  · rintro (hd | hd)
    · obtain ⟨htake, hnone⟩ := List.mem_filter.mp hd
      have hcase := lookup_overlay hbuf hsep d.key
      rw [Option.isNone_iff_eq_none.mp hnone] at hcase
      refine ⟨d.key, ?_⟩
      rw [overlay_eq, hcase]
      exact Database.mem_storedDocuments.mp (List.mem_of_mem_take htake)
    · exact ⟨d.key, (pending_overlay hbuf hsep hd).2⟩
  · rintro ⟨k, hk⟩
    obtain rfl := overlay_key hk
    have hcase := lookup_overlay hbuf hsep d.key
    split at hcase
    · next d' hl =>
      rw [hcase.2, Option.some_inj] at hk
      subst hk
      exact Or.inr (Transaction.mem_pendingInserts.mpr ⟨_, hl⟩)
    · rw [hcase] at hk
      cases hk
    · next hl =>
      left
      rw [overlay_eq, hcase] at hk
      refine List.mem_filter.mpr ⟨?_, by rw [hl]; rfl⟩
      have hmem : d ∈ db.storedDocuments c := Database.mem_storedDocuments.mpr hk
      rw [← List.take_append_drop Transaction.listedFromStorage (db.storedDocuments c),
        List.mem_append] at hmem
      refine hmem.resolve_right fun hdrop => ?_
      obtain ⟨op, hop, hopc, hopk⟩ := hbehind d hdrop
      have hno := List.find?_eq_none.mp hcase op (List.mem_reverse.mpr hop)
      exact hno (isOf_iff.mpr ⟨hopc, hopk⟩)

theorem run_page {limit : Nat} (hrun : TxOp.run ops = .ok tx) (hbuf : TxOp.Buffered ops tx)
    (after : Option String) :
    (TxOp.run ops >>= fun tx => tx.listDocumentsPaged order db c after limit) =
      .ok (pageAfter (·.key) (tx.mergedDocuments order db c) limit after) := by
  rw [hrun]
  show tx.listDocumentsPaged order db c after limit = _
  unfold Transaction.listDocumentsPaged Transaction.ensureActive
  rw [if_neg (not_not.mpr hbuf.active)]
  cases after <;> rfl

/-- A client that reads all pages reads the merged list. -/
theorem drains_merged {limit : Nat} (hlimit : 1 ≤ limit) (hrun : TxOp.run ops = .ok tx)
    (hbuf : TxOp.Buffered ops tx) (hsep : SeparateKeys db ops c) :
    Drains (fun after => TxOp.run ops >>= fun tx => tx.listDocumentsPaged order db c after limit)
      none (tx.mergedDocuments order db c) :=
  drains_pageAfter hlimit (merged_keys_nodup order hbuf hsep) (run_page hrun hbuf)

theorem separateKeys_of_get
    (hget : ∀ k, (TxOp.run ops >>= fun tx => tx.get db c k) = .ok (overlay db ops c k)) :
    SeparateKeys db ops c := by
  intro k op hlast hc
  obtain ⟨tx, hrun, hbuf⟩ := TxOp.run_ok ops
  have hread : tx.get db c k = .ok op.result := by
    unfold Transaction.get Transaction.ensureActive
    rw [if_neg (not_not.mpr hbuf.active), hbuf.lookup, hlast]
    show (match some op.pending with
      | some (.insert doc) => Except.ok (some doc)
      | some .delete => Except.ok none
      | none => Except.ok (db.getDocument c (utf8 k))) = _
    unfold TxOp.pending
    cases op.result <;> rfl
  have hov : op.result = overlay db ops c k := by
    have h := hget k
    rw [hrun] at h
    exact Except.ok.inj (hread.symm.trans h)
  cases hres : op.result with
  | none => exact ⟨rfl, by rw [← hov, hres]⟩
  | some d =>
    -- a document of another collection has another key under the same text
    exfalso
    have hkey : d.key = k := overlay_key (hov.symm.trans hres)
    have htext : encodeDocKey c k = encodeDocKey op.collection op.key :=
      (lastUnder_mem hlast).2.symm
    refine collection_ne_of_key_ne htext hc ?_
    rw [← (collection_key_of_result hres).2, hkey]

theorem writtenBehind_of_list (hsep : SeparateKeys db ops c)
    (hlist : ∃ docs, Drains
      (fun after => TxOp.run ops >>= fun tx => tx.listDocumentsPaged order db c after 1) none docs ∧
      ∀ d k, overlay db ops c k = some d → d ∈ docs) : WrittenBehind db ops c := by
  intro d hd
  obtain ⟨tx, hrun, hbuf⟩ := TxOp.run_ok ops
  obtain ⟨docs, hdrains, hdocs⟩ := hlist
  obtain rfl := hdrains.unique (drains_merged le_rfl hrun hbuf hsep)
  have hstored := Database.mem_storedDocuments.mp (List.mem_of_mem_drop hd)
  cases hlast : TxOp.lastOf ops c d.key with
  | some op => exact ⟨op, lastOf_mem hlast⟩
  | none =>
    have hov : overlay db ops c d.key = some d := by
      rw [overlay_eq, hlast]
      exact hstored
    have hmem := (mergedDocuments_perm order tx db c).mem_iff.mp (hdocs d _ hov)
    rcases List.mem_append.mp hmem with hun | hpend
    · -- it would have to be among the first and behind them
      exfalso
      have hnodup := (db.storedDocuments_keys_nodup c).of_map
      rw [← List.take_append_drop Transaction.listedFromStorage (db.storedDocuments c)] at hnodup
      exact (List.nodup_append'.mp hnodup).2.2 (List.mem_filter.mp hun).1 hd
    · have hl := (pending_overlay hbuf hsep hpend).1
      rw [hbuf.lookup] at hl
      obtain ⟨op, hop, hpending⟩ := Option.map_eq_some_iff.mp hl
      have hc : op.collection = c := by
        by_contra hc
        have hres := (hsep _ _ hop hc).1
        unfold TxOp.pending at hpending
        rw [hres] at hpending
        cases hpending
      exact ⟨op, (lastUnder_mem hop).1, hc, (lastOf_of_lastUnder hop hc).1⟩

end Reads

/-- A transaction reads its own document writes if its buffer keeps the collection apart from
others and the calls have written what a listing does not reach, and only then. -/
theorem readsOwnWrites_iff (order : IterOrder) (db : Database) (ops : List TxOp) (c : String) :
    ReadsOwnWrites order db ops c ↔ SeparateKeys db ops c ∧ WrittenBehind db ops c := by
  refine ⟨?_, ?_⟩
  · intro h
    have hsep := separateKeys_of_get h.get
    obtain ⟨docs, hdrains, -, hdocs⟩ := h.list 1 le_rfl
    exact ⟨hsep, writtenBehind_of_list hsep ⟨docs, hdrains, fun d k hk => (hdocs d).mpr ⟨k, hk⟩⟩⟩
  · rintro ⟨hsep, hbehind⟩
    obtain ⟨tx, hrun, hbuf⟩ := TxOp.run_ok ops
    refine ⟨?_, ?_⟩
    · intro k
      rw [hrun]
      exact get_overlay hbuf hsep k
    · intro limit hlimit
      exact ⟨_, drains_merged hlimit hrun hbuf hsep, merged_sorted order hbuf hsep,
        fun d => mem_merged hbuf hsep hbehind⟩

theorem Shelf.storedDocuments_length (n : Nat) :
    n ≤ ((Shelf.stocked n).storedDocuments "items").length := by
  have hnames : ((List.range n).map StellarDb.Star.name).Nodup :=
    List.nodup_range.map StellarDb.Star.name_injective
  have hsub : (List.range n).map StellarDb.Star.name ⊆
      ((Shelf.stocked n).storedDocuments "items").map (·.key) := by
    intro k hk
    obtain ⟨i, hi, rfl⟩ := List.mem_map.mp hk
    have hstored := (Shelf.stored_stocked n _).mpr ⟨i, List.mem_range.mp hi, rfl⟩
    exact List.mem_map.mpr ⟨Shelf.item i, Database.mem_storedDocuments.mpr hstored,
      Shelf.item_key i⟩
  have hle := hnames.length_le_of_subset hsub
  rwa [List.length_map, List.length_range, List.length_map] at hle

/-- Of 10001 stored documents a transaction that has written nothing lists 10000. -/
theorem Shelf.list_10001_incomplete :
    ¬ ReadsOwnWrites .asKept (Shelf.stocked 10001) [] "items" := by
  intro h
  obtain ⟨docs, hdrains, -, hdocs⟩ := h.list 1 le_rfl
  have hbehind := writtenBehind_of_list (separateKeys_of_get h.get)
    ⟨docs, hdrains, fun d k hk => (hdocs d).mpr ⟨k, hk⟩⟩
  have hlen := Shelf.storedDocuments_length 10001
  have hpos : 0 < (((Shelf.stocked 10001).storedDocuments "items").drop
      Transaction.listedFromStorage).length := by
    rw [List.length_drop, Transaction.listedFromStorage]
    omega
  obtain ⟨d, hd⟩ := List.exists_mem_of_length_pos hpos
  obtain ⟨op, hop, -⟩ := hbehind d hd
  cases hop

end StellarDb
