import StellarDb.Schema
import StellarDb.Lib.Ownership

/-!
# StellarDb — unique constraints (`storage/constraints/unique.rs`)

The lock keyspace of a collection maps `xxh3_128(field names, 0x00, encoded value)` to the
key of the document that holds the value. `validateAndUpdate` walks the unique indexes: where
the value changes it claims the new lock and then releases the old one, each an atomic
`fetch_update`; a refused claim ends the walk with an error and undoes nothing.

The walk is a run of the hand-over list `changes` on the lock table
(`validateAndUpdate_eq_run`), so the exact effects of `Lib/Ownership` apply to it. Deleting a
document's locks is the same walk towards no document (`removeForDocument_eq`), and the
rollback walks the reversed list (`changes_swap`).
-/

namespace StellarDb

open Keyspaces Ownership

/-! ## The manager -/

/-- `OptimisticTxKeyspace::fetch_update`: one atomic read-modify-write of a key. -/
def fetchUpdate {V : Type} (ks : Keyspace V) (k : Bytes) (f : Option V → Option V) :
    Keyspace V :=
  match f ks[k]? with
  | some v => ks.insert k v
  | none => ks.erase k

/-- `{:?}` of a list of strings. -/
def debugStrings (ss : List String) : String :=
  let quote (s : String) : String :=
    let escape (c : Char) : List Char :=
      if c = '"' then ['\\', '"'] else if c = '\\' then ['\\', '\\'] else [c]
    String.ofList (['"'] ++ s.toList.flatMap escape ++ ['"'])
  "[" ++ String.intercalate ", " (ss.map quote) ++ "]"

section Manager

variable [External]

/-- `xxh3_128(field_names + "\0" + encoded_value)` -/
def computeUniqueLockKey (fields : String) (value : Value) : Bytes :=
  External.xxh3_128 (utf8 fields ++ 0x00 :: encodeValueForHash value)

/-- A path against the fields map; `id` is not in it. -/
def resolveUniqueFieldValue (fields : List (String × Value)) (path : String) : Option Value :=
  if path = "id" then none else resolveFieldValue fields path

/-- Combined field value for an index; a compound index combines into an array. -/
def getFieldValueForIndex (doc : Document) (fields : List String) : Option Value :=
  match fields with
  | [field] => resolveUniqueFieldValue doc.fields field
  | fields =>
    let values := fields.filterMap (resolveUniqueFieldValue doc.fields)
    if values.length = fields.length then some (.array values) else none

def joinFields (fields : List String) : String := String.intercalate "," fields

/-- Atomically claim a lock key: free or already ours succeeds. -/
def claimLockKey (locks : Keyspace Bytes) (fields : List String) (value : Value)
    (docKey : Bytes) : Keyspace Bytes × Except StorageError Unit :=
  let lockKey := computeUniqueLockKey (joinFields fields) value
  let claimed := match locks[lockKey]? with
    | none => true
    | some v => v = docKey
  (fetchUpdate locks lockKey fun existing =>
      match existing with
      | none => some docKey
      | some v => if v = docKey then some docKey else some v,
    if claimed then .ok ()
    else .error (.conflict ("Unique constraint violation on " ++ debugStrings fields)))

/-- Atomically release a lock key, if it is ours. -/
def releaseLockKey (locks : Keyspace Bytes) (fields : List String) (value : Value)
    (docKey : Bytes) : Keyspace Bytes :=
  fetchUpdate locks (computeUniqueLockKey (joinFields fields) value) fun existing =>
    match existing with
    | none => none
    | some v => if v = docKey then none else some v

/-- `==` on `Option<Value>` -/
def optionBeq : Option Value → Option Value → Bool
  | none, none => true
  | some v, some w => v.beq w
  | _, _ => false

/-- Claim the new lock key, if the new document has a value for the index. -/
def claimNew (locks : Keyspace Bytes) (newDoc : Option Document) (index : IndexDef) :
    Keyspace Bytes × Except StorageError Unit :=
  match newDoc with
  | none => (locks, .ok ())
  | some d =>
    match getFieldValueForIndex d index.fields with
    | some newVal => claimLockKey locks index.fields newVal d.keyBytes
    | none => (locks, .ok ())

/-- Release the old lock key, if the old document has a value for the index. -/
def releaseOld (locks : Keyspace Bytes) (oldDoc : Option Document) (index : IndexDef) :
    Keyspace Bytes :=
  match oldDoc with
  | none => locks
  | some d =>
    match getFieldValueForIndex d index.fields with
    | some oldVal => releaseLockKey locks index.fields oldVal d.keyBytes
    | none => locks

/-- The loop of `validate_and_update` over the unique indexes: claim the new key first, then
release the old one. -/
def validateLoop (locks : Keyspace Bytes) (oldDoc newDoc : Option Document) :
    List IndexDef → Keyspace Bytes × Except StorageError Unit
  | [] => (locks, .ok ())
  | index :: rest =>
    let newValue := newDoc.bind fun d => getFieldValueForIndex d index.fields
    let oldValue := oldDoc.bind fun d => getFieldValueForIndex d index.fields
    if optionBeq newValue oldValue then validateLoop locks oldDoc newDoc rest
    else
      match claimNew locks newDoc index with
      | (locks, .error e) => (locks, .error e)
      | (locks, .ok ()) => validateLoop (releaseOld locks oldDoc index) oldDoc newDoc rest

/-- Validate and update unique constraints. -/
def validateAndUpdate (locks : Keyspace Bytes) (indexes : List IndexDef)
    (oldDoc newDoc : Option Document) : Keyspace Bytes × Except StorageError Unit :=
  validateLoop locks oldDoc newDoc (indexes.filter (·.unique))

/-- Reverse a `validateAndUpdate`; errors are ignored. -/
def rollbackValidateAndUpdate (locks : Keyspace Bytes) (indexes : List IndexDef)
    (oldDoc newDoc : Option Document) : Keyspace Bytes :=
  (validateAndUpdate locks indexes newDoc oldDoc).1

/-- Release every lock of a document being deleted. -/
def removeForDocument (locks : Keyspace Bytes) (indexes : List IndexDef) (doc : Document) :
    Keyspace Bytes :=
  (indexes.filter (·.unique)).foldl (fun locks index => releaseOld locks (some doc) index) locks

/-! ## The walk as a run on the lock table -/

/-- Who holds which lock. -/
def lockTable (locks : Keyspace Bytes) : Table Bytes Bytes := fun l => locks[l]?

/-- The lock a document needs for an index, if it has the indexed fields. -/
def lockOf (i : IndexDef) (d : Document) : Option Bytes :=
  (getFieldValueForIndex d i.fields).map (computeUniqueLockKey (joinFields i.fields))

/-- The document, if there is one, needs the lock for some unique index. -/
def Holds (indexes : List IndexDef) (d : Option Document) (l : Bytes) : Prop :=
  ∃ i ∈ indexes, i.unique = true ∧ d.bind (lockOf i) = some l

/-- `validate_and_update` finds that the value of the index differs. -/
def valueChanges (oldDoc newDoc : Option Document) (i : IndexDef) : Bool :=
  !optionBeq (newDoc.bind fun d => getFieldValueForIndex d i.fields)
    (oldDoc.bind fun d => getFieldValueForIndex d i.fields)

/-- What the document gives up and takes for one index. -/
def handoverOf (oldDoc newDoc : Option Document) (i : IndexDef) : Handover Bytes :=
  (oldDoc.bind (lockOf i), newDoc.bind (lockOf i))

/-- The hand-overs of the unique indexes whose value changes, in index order. -/
def changes (indexes : List IndexDef) (oldDoc newDoc : Option Document) :
    List (Handover Bytes) :=
  ((indexes.filter (·.unique)).filter (valueChanges oldDoc newDoc)).map
    (handoverOf oldDoc newDoc)

omit [External] in
theorem lockTable_injective : Function.Injective lockTable := by
  intro ks ks' h
  exact Std.ExtTreeMap.ext_getElem? fun l => congrFun h l

omit [External] in
theorem lockTable_fetchUpdate (locks : Keyspace Bytes) (k : Bytes)
    (f : Option Bytes → Option Bytes) :
    lockTable (fetchUpdate locks k f) =
      Function.update (lockTable locks) k (f (lockTable locks k)) := by
  funext l
  unfold fetchUpdate lockTable
  by_cases hl : l = k
  · subst hl
    rw [Function.update_self]
    cases f locks[l]? with
    | none => simp
    | some v => simp
  · rw [Function.update_of_ne hl]
    cases f locks[k]? with
    | none => simp [getElem?_erase_eq, Ne.symm hl]
    | some v => simp [getElem?_insert_eq, Ne.symm hl]

omit [External] in
/-- A claim or a release is one `fetch_update`: foreign locks stay, others get `op`'s value. -/
theorem lockTable_fetchUpdate_op (locks : Keyspace Bytes) (owner : Bytes) (op : Op Bytes)
    (f : Option Bytes → Option Bytes) (hnone : f none = op.value owner)
    (hown : f (some owner) = op.value owner) (hother : ∀ v, v ≠ owner → f (some v) = some v) :
    lockTable (fetchUpdate locks op.key f) = op.apply owner (lockTable locks) := by
  rw [lockTable_fetchUpdate]
  by_cases hf : Foreign (lockTable locks) owner op.key
  · obtain ⟨v, hv, hne⟩ := hf
    rw [apply_of_foreign_key op ⟨v, hv, hne⟩, hv, hother v hne, ← hv, Function.update_eq_self]
  · rw [apply_of_not_foreign op hf]
    cases hv : lockTable locks op.key with
    | none => rw [hnone]
    | some v =>
      have hvo : v = owner := by
        by_contra hne
        exact hf ⟨v, hv, hne⟩
      rw [hvo, hown]

theorem lockTable_claimLockKey (locks : Keyspace Bytes) (fields : List String) (value : Value)
    (owner : Bytes) :
    lockTable (claimLockKey locks fields value owner).1 =
      (Op.claim (computeUniqueLockKey (joinFields fields) value)).apply owner
        (lockTable locks) := by
  refine lockTable_fetchUpdate_op locks owner (Op.claim _) _ rfl ?_ ?_
  · exact if_pos rfl
  · intro v hv
    exact if_neg hv

theorem claimLockKey_ok_iff (locks : Keyspace Bytes) (fields : List String) (value : Value)
    (owner : Bytes) :
    (claimLockKey locks fields value owner).2 = .ok () ↔
      ¬ Foreign (lockTable locks) owner (computeUniqueLockKey (joinFields fields) value) := by
  unfold claimLockKey Foreign lockTable
  cases hl : locks[computeUniqueLockKey (joinFields fields) value]? with
  | none => simp [hl]
  | some v => by_cases hv : v = owner <;> simp [hl, hv]

theorem lockTable_releaseLockKey (locks : Keyspace Bytes) (fields : List String) (value : Value)
    (owner : Bytes) :
    lockTable (releaseLockKey locks fields value owner) =
      (Op.release (computeUniqueLockKey (joinFields fields) value)).apply owner
        (lockTable locks) := by
  refine lockTable_fetchUpdate_op locks owner (Op.release _) _ rfl ?_ ?_
  · exact if_pos rfl
  · intro v hv
    exact if_neg hv

/-- The claim of one index is a run of at most one operation. -/
theorem claimNew_eq_run {owner : Bytes} {newDoc : Option Document}
    (hnew : ∀ d, newDoc = some d → d.keyBytes = owner) (locks : Keyspace Bytes)
    (i : IndexDef) :
    let ops := ((newDoc.bind (lockOf i)).map Op.claim).toList
    lockTable (claimNew locks newDoc i).1 = (run owner (lockTable locks) ops).1 ∧
      ((claimNew locks newDoc i).2 = .ok () ↔ (run owner (lockTable locks) ops).2 = true) := by
  intro ops
  cases newDoc with
  | none => simp [claimNew, ops, run]
  | some d =>
    cases hv : getFieldValueForIndex d i.fields with
    | none => simp [claimNew, ops, hv, lockOf, run]
    | some v =>
      have hclaim : claimNew locks (some d) i = claimLockKey locks i.fields v owner := by
        simp [claimNew, hv, hnew d rfl]
      have hops : ops = [Op.claim (computeUniqueLockKey (joinFields i.fields) v)] := by
        simp [ops, hv, lockOf]
      rw [hclaim, hops, lockTable_claimLockKey, claimLockKey_ok_iff]
      generalize computeUniqueLockKey (joinFields i.fields) v = l
      by_cases hf : Foreign (lockTable locks) owner l
      · rw [run_cons_of_refused (Op.claim l) hf, apply_of_foreign_key (Op.claim l) hf]
        simp [hf]
      · rw [run_cons_of_not_refused (Op.claim l) hf]
        simp [run, hf]

/-- The release of one index is a run of at most one operation. -/
theorem releaseOld_eq_run {owner : Bytes} {oldDoc : Option Document}
    (hold : ∀ d, oldDoc = some d → d.keyBytes = owner) (locks : Keyspace Bytes)
    (i : IndexDef) :
    run owner (lockTable locks) ((oldDoc.bind (lockOf i)).map Op.release).toList =
      (lockTable (releaseOld locks oldDoc i), true) := by
  cases oldDoc with
  | none => simp [releaseOld, run]
  | some d =>
    cases hv : getFieldValueForIndex d i.fields with
    | none => simp [releaseOld, hv, lockOf, run]
    | some v =>
      have hrel : releaseOld locks (some d) i = releaseLockKey locks i.fields v owner := by
        simp [releaseOld, hv, hold d rfl]
      have hops : (((some d).bind (lockOf i)).map Op.release).toList =
          [Op.release (computeUniqueLockKey (joinFields i.fields) v)] := by
        simp [hv, lockOf]
      rw [hrel, hops, lockTable_releaseLockKey]
      rfl

/-- The walk over the indexes is the run of their hand-overs. -/
theorem validateLoop_eq_run {owner : Bytes} {oldDoc newDoc : Option Document}
    (hold : ∀ d, oldDoc = some d → d.keyBytes = owner)
    (hnew : ∀ d, newDoc = some d → d.keyBytes = owner) (locks : Keyspace Bytes)
    (idxs : List IndexDef) :
    let ops := opsOf ((idxs.filter (valueChanges oldDoc newDoc)).map (handoverOf oldDoc newDoc))
    lockTable (validateLoop locks oldDoc newDoc idxs).1 =
        (run owner (lockTable locks) ops).1 ∧
      ((validateLoop locks oldDoc newDoc idxs).2 = .ok () ↔
        (run owner (lockTable locks) ops).2 = true) := by
  induction idxs generalizing locks with
  | nil => simp [validateLoop, opsOf, run]
  | cons i idxs ih =>
    intro ops
    by_cases hch : valueChanges oldDoc newDoc i = true
    · have hb : ¬ optionBeq (newDoc.bind fun d => getFieldValueForIndex d i.fields)
          (oldDoc.bind fun d => getFieldValueForIndex d i.fields) = true := by
        simpa [valueChanges] using hch
      have hops : ops = ((newDoc.bind (lockOf i)).map Op.claim).toList ++
          (((oldDoc.bind (lockOf i)).map Op.release).toList ++
            opsOf ((idxs.filter (valueChanges oldDoc newDoc)).map
              (handoverOf oldDoc newDoc))) := by
        simp [ops, opsOf, hch, handoverOf]
      obtain ⟨hlocks, hok⟩ := claimNew_eq_run hnew locks i
      rw [validateLoop, if_neg hb, hops, run_append]
      cases hclaim : claimNew locks newDoc i with
      | mk locks' res =>
        rw [hclaim] at hlocks hok
        cases res with
        | error e =>
          -- the walk stops at the refused claim, and so does the run
          have hno := mt hok.mpr (by simp)
          rw [if_neg hno]
          exact ⟨hlocks, iff_of_false (by simp) hno⟩
        | ok u =>
          rw [if_pos (hok.mp rfl), ← hlocks, run_append, releaseOld_eq_run hold]
          exact ih _
    · have hb : optionBeq (newDoc.bind fun d => getFieldValueForIndex d i.fields)
          (oldDoc.bind fun d => getFieldValueForIndex d i.fields) = true := by
        simpa [valueChanges] using hch
      have hops : ops = opsOf ((idxs.filter (valueChanges oldDoc newDoc)).map
          (handoverOf oldDoc newDoc)) := by
        simp [ops, hch]
      rw [validateLoop, if_pos hb, hops]
      exact ih locks

/-- The manager's walk is the run of the document's hand-over list. -/
theorem validateAndUpdate_eq_run {owner : Bytes} {oldDoc newDoc : Option Document}
    (hold : ∀ d, oldDoc = some d → d.keyBytes = owner)
    (hnew : ∀ d, newDoc = some d → d.keyBytes = owner) (locks : Keyspace Bytes)
    (indexes : List IndexDef) :
    lockTable (validateAndUpdate locks indexes oldDoc newDoc).1 =
        (run owner (lockTable locks) (opsOf (changes indexes oldDoc newDoc))).1 ∧
      ((validateAndUpdate locks indexes oldDoc newDoc).2 = .ok () ↔
        (run owner (lockTable locks) (opsOf (changes indexes oldDoc newDoc))).2 = true) :=
  validateLoop_eq_run hold hnew locks _

/-! ## Values that compare equal have the same lock -/

omit [External] in
theorem wf_getFieldValueForIndex {d : Document} {fields : List String} {v : Value}
    (h : getFieldValueForIndex d fields = some v) : v.wf = true := by
  have hresolve : ∀ {path w}, resolveUniqueFieldValue d.fields path = some w → w.wf = true := by
    intro path w hw
    unfold resolveUniqueFieldValue at hw
    split at hw
    · cases hw
    · exact wf_resolveFieldValue d hw
  have hcompound : ∀ paths : List String,
      (Value.array (paths.filterMap (resolveUniqueFieldValue d.fields))).wf = true := by
    intro paths
    rw [Value.wf, Value.wfElems_iff]
    intro w hw
    obtain ⟨path, -, hpath⟩ := List.mem_filterMap.mp hw
    exact hresolve hpath
  unfold getFieldValueForIndex at h
  split at h
  · exact hresolve h
  · simp only at h
    split at h
    · rw [← Option.some.inj h]
      exact hcompound _
    · cases h

omit [External] in
theorem optionBeq_comm {v w : Option Value} (hv : ∀ x, v = some x → x.wf = true)
    (hw : ∀ x, w = some x → x.wf = true) : optionBeq v w = optionBeq w v := by
  cases v with
  | none => cases w <;> rfl
  | some x =>
    cases w with
    | none => rfl
    | some y => exact Value.beq_symm (hv x rfl) (hw y rfl)

omit [External] in
theorem wf_bind_getFieldValueForIndex (d : Option Document) (fields : List String) :
    ∀ v, (d.bind fun d => getFieldValueForIndex d fields) = some v → v.wf = true := by
  intro v hv
  obtain ⟨d, -, hd⟩ := Option.bind_eq_some_iff.mp hv
  exact wf_getFieldValueForIndex hd

omit [External] in
theorem valueChanges_comm (oldDoc newDoc : Option Document) (i : IndexDef) :
    valueChanges newDoc oldDoc i = valueChanges oldDoc newDoc i := by
  unfold valueChanges
  rw [optionBeq_comm (wf_bind_getFieldValueForIndex _ _) (wf_bind_getFieldValueForIndex _ _)]

/-- The rollback's hand-overs are the original ones, each reversed, in the same order. -/
theorem changes_swap (indexes : List IndexDef) (oldDoc newDoc : Option Document) :
    changes indexes newDoc oldDoc = (changes indexes oldDoc newDoc).map Prod.swap := by
  have hch : valueChanges newDoc oldDoc = valueChanges oldDoc newDoc :=
    funext (valueChanges_comm oldDoc newDoc)
  unfold changes
  rw [hch, List.map_map]
  rfl

/-- An index whose value compares equal has the same lock before and after. -/
theorem lockOf_eq_of_unchanged {oldDoc newDoc : Option Document} {i : IndexDef}
    (h : valueChanges oldDoc newDoc i = false) :
    newDoc.bind (lockOf i) = oldDoc.bind (lockOf i) := by
  have hlock : ∀ d : Option Document, d.bind (lockOf i) =
      (d.bind fun d => getFieldValueForIndex d i.fields).map
        (computeUniqueLockKey (joinFields i.fields)) := by
    intro d
    cases d <;> rfl
  have hbeq : optionBeq (newDoc.bind fun d => getFieldValueForIndex d i.fields)
      (oldDoc.bind fun d => getFieldValueForIndex d i.fields) = true := by
    simpa [valueChanges] using h
  have hwfn := wf_bind_getFieldValueForIndex newDoc i.fields
  have hwfo := wf_bind_getFieldValueForIndex oldDoc i.fields
  rw [hlock, hlock]
  revert hbeq hwfn hwfo
  generalize (newDoc.bind fun d => getFieldValueForIndex d i.fields) = v
  generalize (oldDoc.bind fun d => getFieldValueForIndex d i.fields) = w
  intro hbeq hv hw
  cases v with
  | none =>
    cases w with
    | none => rfl
    | some y => cases hbeq
  | some x =>
    cases w with
    | none => cases hbeq
    | some y =>
      have henc := encodeValueForHash_congr x y (hv x rfl) (hw y rfl) hbeq
      simp only [Option.map_some, computeUniqueLockKey, henc]

/-- The lock is needed before and after, for an index whose value does not change. -/
def Keeps (indexes : List IndexDef) (oldDoc newDoc : Option Document) (l : Bytes) : Prop :=
  ∃ i ∈ indexes, i.unique = true ∧ valueChanges oldDoc newDoc i = false ∧
    oldDoc.bind (lockOf i) = some l

theorem mem_changes_iff {indexes : List IndexDef} {oldDoc newDoc : Option Document}
    {c : Handover Bytes} :
    c ∈ changes indexes oldDoc newDoc ↔ ∃ i ∈ indexes, i.unique = true ∧
      valueChanges oldDoc newDoc i = true ∧ handoverOf oldDoc newDoc i = c := by
  simp only [changes, List.mem_map, List.mem_filter, and_assoc]

theorem holds_old_iff (indexes : List IndexDef) (oldDoc newDoc : Option Document) (l : Bytes) :
    Holds indexes oldDoc l ↔
      Keeps indexes oldDoc newDoc l ∨ ∃ c ∈ changes indexes oldDoc newDoc, c.1 = some l := by
  constructor
  · rintro ⟨i, hi, hu, hl⟩
    cases hch : valueChanges oldDoc newDoc i with
    | false => exact Or.inl ⟨i, hi, hu, hch, hl⟩
    | true => exact Or.inr ⟨_, mem_changes_iff.mpr ⟨i, hi, hu, hch, rfl⟩, hl⟩
  · rintro (⟨i, hi, hu, -, hl⟩ | ⟨c, hc, hl⟩)
    · exact ⟨i, hi, hu, hl⟩
    · obtain ⟨i, hi, hu, -, rfl⟩ := mem_changes_iff.mp hc
      exact ⟨i, hi, hu, hl⟩

theorem holds_new_iff (indexes : List IndexDef) (oldDoc newDoc : Option Document) (l : Bytes) :
    Holds indexes newDoc l ↔
      Keeps indexes oldDoc newDoc l ∨ ∃ c ∈ changes indexes oldDoc newDoc, c.2 = some l := by
  constructor
  · rintro ⟨i, hi, hu, hl⟩
    cases hch : valueChanges oldDoc newDoc i with
    | false => exact Or.inl ⟨i, hi, hu, hch, by rw [← lockOf_eq_of_unchanged hch]; exact hl⟩
    | true => exact Or.inr ⟨_, mem_changes_iff.mpr ⟨i, hi, hu, hch, rfl⟩, hl⟩
  · rintro (⟨i, hi, hu, hch, hl⟩ | ⟨c, hc, hl⟩)
    · exact ⟨i, hi, hu, by rw [lockOf_eq_of_unchanged hch]; exact hl⟩
    · obtain ⟨i, hi, hu, -, rfl⟩ := mem_changes_iff.mp hc
      exact ⟨i, hi, hu, hl⟩

/-! ## Removal -/

/-- Deleting a document's locks is the walk towards no document, and cannot be refused. -/
theorem removeForDocument_eq (locks : Keyspace Bytes) (indexes : List IndexDef)
    (doc : Document) :
    validateAndUpdate locks indexes (some doc) none =
      (removeForDocument locks indexes doc, .ok ()) := by
  unfold validateAndUpdate removeForDocument
  induction indexes.filter (·.unique) generalizing locks with
  | nil => rfl
  | cons i idxs ih =>
    rw [validateLoop, List.foldl_cons]
    cases hv : getFieldValueForIndex doc i.fields with
    | none =>
      have hrel : releaseOld locks (some doc) i = locks := by simp [releaseOld, hv]
      rw [if_pos (by simp [hv, optionBeq]), hrel]
      exact ih locks
    | some v =>
      rw [if_neg (by simp [hv, optionBeq])]
      exact ih _

end Manager

end StellarDb
