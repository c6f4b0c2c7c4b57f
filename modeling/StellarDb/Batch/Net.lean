import StellarDb.Batch.Outcome

/-!
# StellarDb — the net effect of a batch on documents

What collapsing computes, said without the loop: the documents touched, in the order of their
first operation (`touched`), each with the version its last operation leaves (`lastDoc`), and the
edge operations in order (`collapse_net`). Without storage errors collapsing goes through exactly
for the admitted batches: collection names are valid, and each `CreateDoc` finds no document
(`collapse_ok_iff`).
-/

namespace StellarDb

open Keyspaces

namespace WriteOp

/-- The document the operation writes. -/
def target : WriteOp → Option (String × String)
  | .insertDoc doc => some (doc.collection, doc.key)
  | .createDoc doc => some (doc.collection, doc.key)
  | .deleteDoc c key => some (c, key)
  | _ => none

/-- The version it leaves. -/
def written : WriteOp → Option Document
  | .insertDoc doc => some doc
  | .createDoc doc => some doc
  | _ => none

def edgeInsert : WriteOp → Option Edge
  | .insertEdge edge => some edge
  | _ => none

def edgeDelete : WriteOp → Option (String × String × String)
  | .deleteEdge src label dst => some (src, label, dst)
  | _ => none

end WriteOp

/-- The version of a document after some operations. -/
def docAfter (ops : List WriteOp) (c key : String) (doc : Option Document) : Option Document :=
  ops.foldl (fun doc op => if op.target = some (c, key) then op.written else doc) doc

/-- The stored document after some operations. -/
def lastDoc (db : Database) (ops : List WriteOp) (c key : String) : Option Document :=
  docAfter ops c key (db.getDocument c (utf8 key))

/-- Add a document at its first operation. -/
def touch (ts : List (String × String)) (op : WriteOp) : List (String × String) :=
  match op.target with
  | some t => if t ∈ ts then ts else ts ++ [t]
  | none => ts

/-- The documents some operations write, in the order of the first one. -/
def touched (ops : List WriteOp) : List (String × String) := ops.foldl touch []

theorem lastDoc_snoc (db : Database) (ops : List WriteOp) (op : WriteOp) (c key : String) :
    lastDoc db (ops ++ [op]) c key =
      if op.target = some (c, key) then op.written else lastDoc db ops c key := by
  simp [lastDoc, docAfter]

theorem touched_snoc (ops : List WriteOp) (op : WriteOp) :
    touched (ops ++ [op]) = touch (touched ops) op := by
  simp [touched]

theorem docAfter_of_not_touched {ops : List WriteOp} {c key : String}
    (h : ∀ op ∈ ops, op.target ≠ some (c, key)) (doc : Option Document) :
    docAfter ops c key doc = doc := by
  induction ops with
  | nil => rfl
  | cons op ops ih =>
    rw [List.forall_mem_cons] at h
    unfold docAfter
    rw [List.foldl_cons, if_neg h.1]
    exact ih h.2

theorem mem_touched {ops : List WriteOp} {t : String × String} :
    t ∈ touched ops ↔ ∃ op ∈ ops, op.target = some t := by
  induction ops using List.reverseRecOn with
  | nil => simp [touched]
  | append_singleton ops op ih =>
    rw [touched_snoc]
    simp only [List.mem_append, List.mem_singleton, or_and_right, exists_or, exists_eq_left, ← ih]
    unfold touch
    cases ht : op.target with
    | none => simp
    | some s =>
      simp only [Option.some.injEq]
      split
      · next hs =>
        refine ⟨Or.inl, ?_⟩
        rintro (h | rfl)
        · exact h
        · exact hs
      · simp [eq_comm]

/-- The collapsed form of some operations. -/
structure NetOf (db : Database) (ops : List WriteOp) (st : Collapsed) : Prop where
  targets : st.mutations.map (fun m => (m.collection, m.key)) = touched ops
  current : ∀ m ∈ st.mutations, m.currentDoc = lastDoc db ops m.collection m.key
  edgeInserts : st.edgeInserts = ops.filterMap WriteOp.edgeInsert
  edgeDeletes : st.edgeDeletes = ops.filterMap WriteOp.edgeDelete

theorem NetOf.nil (db : Database) : NetOf db [] ⟨[], [], []⟩ := ⟨rfl, by simp, rfl, rfl⟩

theorem NetOf.of_target_none {db : Database} {pre : List WriteOp} {st st' : Collapsed}
    {op : WriteOp} (h : NetOf db pre st) (ht : op.target = none)
    (hms : st'.mutations = st.mutations)
    (hins : st'.edgeInserts = st.edgeInserts ++ [op].filterMap WriteOp.edgeInsert)
    (hdel : st'.edgeDeletes = st.edgeDeletes ++ [op].filterMap WriteOp.edgeDelete) : NetOf db (pre ++ [op]) st' where
  targets := by rw [hms, h.targets, touched_snoc, touch, ht]
  current m hm := by
    rw [hms] at hm
    rw [lastDoc_snoc, ht, h.current m hm]
    rfl
  edgeInserts := by rw [hins, h.edgeInserts, List.filterMap_append]
  edgeDeletes := by rw [hdel, h.edgeDeletes, List.filterMap_append]

namespace Database

variable {db db' : Database} {pre : List WriteOp} {st : Collapsed}

/-- Touching a document. -/
theorem pend_net {f : Faults} (hopen : db.Opens db') (h : NetOf db pre st) {c key : String}
    {ms : List PendingDocMutation} (hp : db'.pend f st.mutations c key = .ok ms) :
    ms.map (fun m => (m.collection, m.key)) =
        (if (c, key) ∈ touched pre then touched pre else touched pre ++ [(c, key)]) ∧
      ∀ m ∈ ms, m.currentDoc = lastDoc db pre m.collection m.key := by
  have hany : st.mutations.any (·.isOf c key) = true ↔ (c, key) ∈ touched pre := by
    rw [← h.targets, List.any_eq_true]
    simp only [List.mem_map, Prod.mk.injEq, ValidMutations.isOf_iff]
  unfold pend at hp
  by_cases hin : (c, key) ∈ touched pre
  · rw [if_pos (hany.mpr hin)] at hp
    rw [if_pos hin, ← Except.ok.inj hp]
    exact ⟨h.targets, h.current⟩
  · rw [if_neg (mt hany.mp hin)] at hp
    rw [if_neg hin]
    split at hp
    · cases hp
    · rw [← Except.ok.inj hp, List.map_append, h.targets]
      refine ⟨rfl, List.forall_mem_append.mpr ⟨h.current, List.forall_mem_singleton.mpr ?_⟩⟩
      show db'.getDocument c (utf8 key) = lastDoc db pre c key
      rw [hopen.getDocument, lastDoc, docAfter_of_not_touched]
      exact fun op hop ht => hin (mem_touched.mpr ⟨op, hop, ht⟩)

/-- Touching and writing a document. -/
theorem modify_net {f : Faults} (hopen : db.Opens db') (h : NetOf db pre st) {op : WriteOp}
    {c key : String} {ms : List PendingDocMutation}
    {g : PendingDocMutation → PendingDocMutation} (hp : db'.pend f st.mutations c key = .ok ms)
    (htarget : op.target = some (c, key))
    (hg : ∀ m, (g m).collection = m.collection ∧ (g m).key = m.key ∧
      (g m).currentDoc = op.written) :
    (modifyMutation ms c key g).map (fun m => (m.collection, m.key)) = touched (pre ++ [op]) ∧
      ∀ m ∈ modifyMutation ms c key g,
        m.currentDoc = lastDoc db (pre ++ [op]) m.collection m.key := by
  obtain ⟨htargets, hcurrent⟩ := pend_net hopen h hp
  constructor
  · rw [touched_snoc, touch, htarget]
    simp only
    rw [← htargets, modifyMutation, List.map_map]
    refine List.map_congr_left fun m _ => ?_
    show ((if m.isOf c key = true then g m else m).collection,
      (if m.isOf c key = true then g m else m).key) = _
    split
    · rw [(hg m).1, (hg m).2.1]
    · rfl
  · intro n hn
    obtain ⟨m, hm, rfl⟩ := List.mem_map.mp hn
    rw [lastDoc_snoc, htarget]
    split
    · next hof =>
      obtain ⟨hc, hk⟩ := ValidMutations.isOf_iff.mp hof
      rw [(hg m).1, (hg m).2.1, (hg m).2.2, hc, hk, if_pos rfl]
    · next hof =>
      rw [if_neg, hcurrent m hm]
      intro heq
      obtain ⟨hc, hk⟩ := Prod.mk.inj (Option.some.inj heq)
      exact hof (ValidMutations.isOf_iff.mpr ⟨hc.symm, hk.symm⟩)

theorem collapsePut_net {f : Faults} (hopen : db.Opens db') (h : NetOf db pre st) {op : WriteOp}
    {doc : Document} {createOnly : Bool} (htarget : op.target = some (doc.collection, doc.key))
    (hwritten : op.written = some doc) (hins : op.edgeInsert = none) (hdel : op.edgeDelete = none)
    {st' : Collapsed} (hst : (db'.collapsePut f st doc createOnly).2 = .ok st') :
    NetOf db (pre ++ [op]) st' := by
  have hopen' := (getOrCreateCollection_opened f db' doc.collection).opens
  unfold collapsePut at hst
  rcases hc : db'.getOrCreateCollection f doc.collection with ⟨db1, res⟩
  rw [hc] at hst hopen'
  cases res with
  | error e => cases hst
  | ok u =>
    simp only at hst
    cases hp : db1.pend f st.mutations doc.collection doc.key with
    | error e =>
      rw [hp] at hst
      cases hst
    | ok ms =>
      rw [hp] at hst
      simp only at hst
      split at hst
      · cases hst
      · rw [← Except.ok.inj hst]
        obtain ⟨htargets, hcurrent⟩ := modify_net (g := (·.put doc createOnly))
          (hopen.trans hopen') h hp htarget fun m => ⟨rfl, rfl, hwritten.symm⟩
        refine ⟨htargets, hcurrent, ?_, ?_⟩
        · simp [List.filterMap_append, hins, h.edgeInserts]
        · simp [List.filterMap_append, hdel, h.edgeDeletes]

theorem collapseOp_net {f : Faults} (hopen : db.Opens db') (h : NetOf db pre st) {op : WriteOp}
    {st' : Collapsed} (hst : (db'.collapseOp f st op).2 = .ok st') : NetOf db (pre ++ [op]) st' := by
  cases op with
  | insertDoc doc => exact collapsePut_net hopen h rfl rfl rfl rfl hst
  | createDoc doc => exact collapsePut_net hopen h rfl rfl rfl rfl hst
  | deleteDoc c key =>
    simp only [collapseOp] at hst
    cases hp : db'.pend f st.mutations c key with
    | error e =>
      rw [hp] at hst
      cases hst
    | ok ms =>
      rw [hp] at hst
      rw [← Except.ok.inj hst]
      obtain ⟨htargets, hcurrent⟩ := modify_net
        (g := fun m => { m with currentDoc := none }) hopen h hp
        (show (WriteOp.deleteDoc c key).target = _ from rfl) fun m => ⟨rfl, rfl, rfl⟩
      refine ⟨htargets, hcurrent, ?_, ?_⟩
      · simp [List.filterMap_append, WriteOp.edgeInsert, h.edgeInserts]
      · simp [List.filterMap_append, WriteOp.edgeDelete, h.edgeDeletes]
  | insertEdge edge =>
    rw [← Except.ok.inj hst]
    exact h.of_target_none rfl rfl (by simp [WriteOp.edgeInsert]) (by simp [WriteOp.edgeDelete])
  | deleteEdge src label dst =>
    rw [← Except.ok.inj hst]
    exact h.of_target_none rfl rfl (by simp [WriteOp.edgeInsert]) (by simp [WriteOp.edgeDelete])

/-- Collapsing computes the net effect. -/
theorem collapse_net_from {f : Nat → Faults} {ops : List WriteOp} (hopen : db.Opens db')
    (h : NetOf db pre st) {st' : Collapsed} (hst : (db'.collapse f st ops).2 = .ok st') :
    NetOf db (pre ++ ops) st' := by
  induction ops generalizing f db' pre st with
  | nil =>
    rw [← Except.ok.inj hst, List.append_nil]
    exact h
  | cons op ops ih =>
    have hop := collapseOp_spec (f 0) db' st op
    unfold collapse at hst
    rcases hc : db'.collapseOp (f 0) st op with ⟨db1, res⟩
    rw [hc] at hst hop
    cases res with
    | error e => cases hst
    | ok st1 =>
      rw [List.append_cons]
      exact ih (hopen.trans hop.1) (collapseOp_net hopen h (by rw [hc])) hst

theorem collapse_net {f : Nat → Faults} {ops : List WriteOp} {st' : Collapsed}
    (hst : (db.collapse f ⟨[], [], []⟩ ops).2 = .ok st') : NetOf db ops st' :=
  collapse_net_from (Opens.refl db) (.nil db) hst

/-! ## Admitted batches -/

/-- The collection is there or can be created. -/
def Available (db : Database) (c : String) : Prop :=
  (db.keyspaces c).isSome ∨ validateName "collection" c = .ok ()

/-- After the operations `pre` the operation is not turned down. -/
def Admits (db : Database) (pre : List WriteOp) : WriteOp → Prop
  | .insertDoc doc => db.Available doc.collection
  | .createDoc doc => db.Available doc.collection ∧ lastDoc db pre doc.collection doc.key = none
  | _ => True

/-- No operation is turned down. -/
def Admitted (db : Database) (ops : List WriteOp) : Prop :=
  ∀ pre op, pre ++ [op] <+: ops → db.Admits pre op

/-- Without storage errors a collection can be opened iff it is available. -/
theorem getOrCreateCollection_none_ok_iff (db : Database) (c : String) :
    (db.getOrCreateCollection .none c).2 = .ok () ↔ db.Available c := by
  unfold getOrCreateCollection Available
  by_cases hsome : (db.keyspaces c).isSome
  · simp [hsome]
  · simp only [hsome, if_false, Bool.false_eq_true, false_or]
    cases validateName "collection" c with
    | error e => simp
    | ok u => simp [Faults.none]

theorem available_of_getOrCreateCollection {f : Faults} {c : String}
    (h : (db.getOrCreateCollection f c).2 = .ok ()) : db.Available c := by
  unfold getOrCreateCollection at h
  unfold Available
  split at h
  · next hsome => exact Or.inl hsome
  · cases hv : validateName "collection" c with
    | error e =>
      rw [hv] at h
      cases h
    | ok u => exact Or.inr rfl

/-- `db'` has the collections of `db`, and perhaps some that could be created. -/
structure Extends (db db' : Database) : Prop where
  opens : db.Opens db'
  available : ∀ c, (db'.keyspaces c).isSome → db.Available c

theorem Extends.refl (db : Database) : db.Extends db := ⟨Opens.refl db, fun _ => Or.inl⟩

theorem Extends.available_iff (h : db.Extends db') (c : String) :
    db'.Available c ↔ db.Available c := by
  constructor
  · exact fun hav => hav.elim (h.available c) Or.inr
  · exact fun hav => hav.imp_left (h.opens.isSome c)

/-- Opening a collection. -/
theorem Extends.open {f : Faults} {c : String} (h : db.Extends db')
    (hok : (db'.getOrCreateCollection f c).2 = .ok ()) :
    db.Extends (db'.getOrCreateCollection f c).1 := by
  have hopened := getOrCreateCollection_opened f db' c
  refine ⟨h.opens.trans hopened.opens, ?_⟩
  intro c' hc'
  have hav := (h.available_iff c).mp (available_of_getOrCreateCollection hok)
  rcases hopened with heq | ⟨-, heq⟩
  · rw [heq] at hc'
    exact h.available c' hc'
  · rw [heq] at hc'
    by_cases hc : c' = c
    · rw [hc]
      exact hav
    · simp only [openCollection, Function.update_of_ne hc] at hc'
      exact h.available c' hc'

theorem pend_none (db : Database) (ms : List PendingDocMutation) (c key : String) :
    ∃ ms', db.pend .none ms c key = .ok ms' := by
  unfold pend
  split
  · exact ⟨_, rfl⟩
  · exact ⟨_, rfl⟩

/-- One operation without storage errors. -/
theorem collapseOp_ok_iff (h : db.Extends db') (hnet : NetOf db pre st) (op : WriteOp) :
    (∃ st', (db'.collapseOp .none st op).2 = .ok st') ↔ db.Admits pre op := by
  have hput : ∀ (doc : Document) (createOnly : Bool),
      (∃ st', (db'.collapsePut .none st doc createOnly).2 = .ok st') ↔
        db.Available doc.collection ∧
          (createOnly = true → lastDoc db pre doc.collection doc.key = none) := by
    intro doc createOnly
    have hiff := (getOrCreateCollection_none_ok_iff db' doc.collection).trans
      (h.available_iff doc.collection)
    rw [← hiff]
    unfold collapsePut
    have hextends := h.open (f := .none) (c := doc.collection)
    rcases hg : db'.getOrCreateCollection .none doc.collection with ⟨db1, res⟩
    rw [hg] at hextends
    cases res with
    | error e => simp
    | ok u =>
      obtain ⟨ms, hp⟩ := pend_none db1 st.mutations doc.collection doc.key
      obtain ⟨htargets, hcurrent⟩ := pend_net (hextends rfl).opens hnet hp
      -- the batch so far leaves a document iff the mutation of this document has one
      have hany : ms.any (fun m => m.isOf doc.collection doc.key && m.currentDoc.isSome) = true ↔
          lastDoc db pre doc.collection doc.key ≠ none := by
        rw [List.any_eq_true]
        constructor
        · rintro ⟨m, hm, hof⟩
          rw [Bool.and_eq_true, ValidMutations.isOf_iff] at hof
          obtain ⟨⟨hc, hk⟩, hsome⟩ := hof
          rw [hcurrent m hm, hc, hk] at hsome
          exact Option.isSome_iff_ne_none.mp hsome
        · intro hne
          have hin : (doc.collection, doc.key) ∈ ms.map (fun m => (m.collection, m.key)) := by
            rw [htargets]
            split
            · next hin => exact hin
            · simp
          obtain ⟨m, hm, heq⟩ := List.mem_map.mp hin
          obtain ⟨hc, hk⟩ := Prod.mk.inj heq
          refine ⟨m, hm, ?_⟩
          rw [Bool.and_eq_true, ValidMutations.isOf_iff, hcurrent m hm, hc, hk]
          exact ⟨⟨rfl, rfl⟩, Option.isSome_iff_ne_none.mpr hne⟩
      simp only [hp, true_and]
      split
      · next hif =>
        rw [Bool.and_eq_true, hany] at hif
        simp [hif.1, hif.2]
      · next hif =>
        rw [Bool.and_eq_true, hany, not_and, not_not] at hif
        exact iff_of_true ⟨_, rfl⟩ hif
  cases op with
  | insertDoc doc => simpa [collapseOp, Admits] using hput doc false
  | createDoc doc => simpa [collapseOp, Admits] using hput doc true
  | deleteDoc c key =>
    obtain ⟨ms, hp⟩ := pend_none db' st.mutations c key
    simp [collapseOp, Admits, hp]
  | insertEdge edge => simp [collapseOp, Admits]
  | deleteEdge src label dst => simp [collapseOp, Admits]

theorem collapseOp_extends {f : Faults} (h : db.Extends db') {op : WriteOp} {st' : Collapsed}
    (hst : (db'.collapseOp f st op).2 = .ok st') : db.Extends (db'.collapseOp f st op).1 := by
  have hput : ∀ (doc : Document) (createOnly : Bool),
      (db'.collapsePut f st doc createOnly).2 = .ok st' →
        db.Extends (db'.collapsePut f st doc createOnly).1 := by
    intro doc createOnly hst
    have hextends := h.open (f := f) (c := doc.collection)
    unfold collapsePut at hst ⊢
    rcases hg : db'.getOrCreateCollection f doc.collection with ⟨db1, res⟩
    rw [hg] at hextends hst
    cases res with
    | error e => cases hst
    | ok u =>
      simp only
      split
      · exact hextends rfl
      · split
        · exact hextends rfl
        · exact hextends rfl
  cases op with
  | insertDoc doc => exact hput doc false hst
  | createDoc doc => exact hput doc true hst
  | deleteDoc c key =>
    simp only [collapseOp]
    split
    · exact h
    · exact h
  | insertEdge edge => exact h
  | deleteEdge src label dst => exact h

/-- Without storage errors collapsing goes through iff the batch is admitted. -/
theorem collapse_ok_iff_from (h : db.Extends db') (hnet : NetOf db pre st) (ops : List WriteOp) :
    (∃ st', (db'.collapse (fun _ => .none) st ops).2 = .ok st') ↔
      ∀ done op, done ++ [op] <+: ops → db.Admits (pre ++ done) op := by
  induction ops generalizing db' pre st with
  | nil => simp [collapse]
  | cons op ops ih =>
    have hop := collapseOp_ok_iff h hnet op
    have hext : ∀ st', (db'.collapseOp .none st op).2 = .ok st' → _ :=
      fun st' => collapseOp_extends (f := .none) h
    have hnet' : ∀ st', (db'.collapseOp .none st op).2 = .ok st' → _ :=
      fun st' => collapseOp_net (f := .none) h.opens hnet
    unfold collapse
    rcases hc : db'.collapseOp .none st op with ⟨db1, res⟩
    rw [hc] at hop hext hnet'
    cases res with
    | error e =>
      refine iff_of_false (by simp) ?_
      intro hall
      obtain ⟨st', hst'⟩ := hop.mpr (by simpa using hall [] op (by simp))
      cases hst'
    | ok st1 =>
      have hadm := hop.mp ⟨st1, rfl⟩
      refine (ih (hext st1 rfl) (hnet' st1 rfl)).trans ?_
      constructor
      · intro hall done op' hpre
        cases done with
        | nil =>
          obtain ⟨rfl, -⟩ := List.cons_prefix_cons.mp hpre
          rwa [List.append_nil]
        | cons d done =>
          obtain ⟨rfl, hrest⟩ := List.cons_prefix_cons.mp hpre
          rw [List.append_cons]
          exact hall done op' hrest
      · intro hall done op' hpre
        rw [← List.append_cons]
        exact hall (op :: done) op' (List.cons_prefix_cons.mpr ⟨rfl, hpre⟩)

/-! ## Storage errors only turn operations down -/

theorem getOrCreateCollection_none {f : Faults} {c : String}
    (h : (db.getOrCreateCollection f c).2 = .ok ()) :
    db.getOrCreateCollection .none c = db.getOrCreateCollection f c := by
  unfold getOrCreateCollection at h ⊢
  split
  · rfl
  · next hnone =>
    rw [if_neg hnone] at h
    cases hv : validateName "collection" c with
    | error e => rfl
    | ok u =>
      rw [hv] at h
      simp only at h ⊢
      cases he : f.ensureExists with
      | some e => simp [he] at h
      | none =>
        cases hs : f.saveMeta with
        | some e => simp [he, hs] at h
        | none => rfl

theorem pend_eq_none {f : Faults} {ms ms' : List PendingDocMutation} {c key : String}
    (h : db.pend f ms c key = .ok ms') : db.pend .none ms c key = .ok ms' := by
  unfold pend at h ⊢
  split
  · next hany =>
    rw [if_pos hany] at h
    exact h
  · next hany =>
    rw [if_neg hany] at h
    cases hr : f.read with
    | some e => simp [hr] at h
    | none =>
      rw [hr] at h
      exact h

theorem collapseOp_none {f : Faults} {op : WriteOp} {st' : Collapsed}
    (h : (db.collapseOp f st op).2 = .ok st') :
    db.collapseOp .none st op = db.collapseOp f st op := by
  have hput : ∀ (doc : Document) (createOnly : Bool),
      (db.collapsePut f st doc createOnly).2 = .ok st' →
        db.collapsePut .none st doc createOnly = db.collapsePut f st doc createOnly := by
    intro doc createOnly hst
    unfold collapsePut at hst ⊢
    have hnone : (db.getOrCreateCollection f doc.collection).2 = .ok () → _ :=
      getOrCreateCollection_none
    rcases hg : db.getOrCreateCollection f doc.collection with ⟨db1, res⟩
    rw [hg] at hnone hst
    cases res with
    | error e => cases hst
    | ok u =>
      rw [hnone rfl]
      simp only at hst ⊢
      cases hp : db1.pend f st.mutations doc.collection doc.key with
      | error e =>
        rw [hp] at hst
        cases hst
      | ok ms => rw [pend_eq_none hp]
  cases op with
  | insertDoc doc => exact hput doc false h
  | createDoc doc => exact hput doc true h
  | deleteDoc c key =>
    simp only [collapseOp] at h ⊢
    cases hp : db.pend f st.mutations c key with
    | error e =>
      rw [hp] at h
      cases h
    | ok ms => rw [pend_eq_none hp]
  | insertEdge edge => rfl
  | deleteEdge src label dst => rfl

theorem collapse_none {f : Nat → Faults} {ops : List WriteOp} {st' : Collapsed}
    (h : (db.collapse f st ops).2 = .ok st') :
    db.collapse (fun _ => .none) st ops = db.collapse f st ops := by
  induction ops generalizing f db st with
  | nil => rfl
  | cons op ops ih =>
    unfold collapse at h ⊢
    have hnone : ∀ st', (db.collapseOp (f 0) st op).2 = .ok st' → _ := fun st' => collapseOp_none
    rcases hc : db.collapseOp (f 0) st op with ⟨db1, res⟩
    rw [hc] at h hnone
    cases res with
    | error e => cases h
    | ok st1 =>
      rw [hnone st1 rfl]
      exact ih h

theorem collapse_ok_iff (db : Database) (ops : List WriteOp) :
    (∃ st', (db.collapse (fun _ => .none) ⟨[], [], []⟩ ops).2 = .ok st') ↔ db.Admitted ops :=
  collapse_ok_iff_from (Extends.refl db) (.nil db) ops

end Database

end StellarDb
