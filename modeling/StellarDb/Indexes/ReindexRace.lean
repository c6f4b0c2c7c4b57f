import StellarDb.Lib.Run
import StellarDb.Indexes.ReindexSteps

/-!
# StellarDb — what a REINDEX makes of concurrent writes

After the swap the index has one entry for each document, of its last version
(`RaceState.reindex_exact`), unless

* a write clears its document in the shadow while the REINDEX is between its look at that
  document and the insertion, with no later write of the document waiting; or
* a write passes the gate behind a later write of its document.

The invariant speaks of each document by itself: as long as its last write waits nothing is known,
while that write runs its own steps say what is in the shadow, and otherwise the shadow has the
last version, or none if the REINDEX has still to insert it.
-/

namespace StellarDb

open Runs

/-! ## What holds in every state -/

namespace UpdateOp

/-- The order of the steps. -/
def rank : UpdateOp → Nat
  | track => 0
  | deleteActive => 1
  | deleteShadow => 2
  | indexActive => 3
  | indexShadow => 4

end UpdateOp

/-- The steps that are left are in order, and those of a new version belong together. -/
structure RunningWrite.Shape (r : RunningWrite) : Prop where
  sorted : r.ops.Pairwise (·.rank < ·.rank)
  active : r.write.newDoc.isSome → .deleteActive ∈ r.ops → .indexActive ∈ r.ops
  shadow : r.write.newDoc.isSome → .deleteShadow ∈ r.ops → .indexShadow ∈ r.ops
  new : .indexActive ∈ r.ops ∨ .indexShadow ∈ r.ops → r.write.newDoc.isSome

namespace RaceState

/-- The entries that the index should have for a document. -/
def expected [External] [Formats] (fields : List String) (s : RaceState) (docId : String) :
    List FtsEntry :=
  (s.stored.get docId).toList.map (ftsEntry fields fields)

/-- A last write brings what is stored. -/
def Sound (s : RaceState) (w : IndexWrite) : Prop :=
  w.version ≤ s.version w.docId ∧
    (w.version = s.version w.docId → w.newDoc = s.stored.get w.docId)

/-- No write of the document is running, and the last is not waiting. -/
def Quiet (s : RaceState) (docId : String) : Prop :=
  ¬ s.LastWaiting docId ∧ ∀ r, s.current = some r → r.write.docId ≠ docId

section Invariant

variable [External] [Formats] (fields : List String)

/-- The entries that a running last write leaves for its document, before and after it has
removed and added them. -/
def Applied (s : RaceState) (delete add : UpdateOp) (r : RunningWrite) (inst : FtsInstance) : Prop :=
  delete ∈ r.ops ∨ inst.entries r.write.docId =
    if add ∈ r.ops then [] else s.expected fields r.write.docId

/-- The REINDEX does not insert the document without another look. -/
def NotInserting (s : RaceState) (docId : String) : Prop :=
  s.stage.inserting.map Document.id ≠ some docId

/-- The shadow while it is being filled. -/
structure Filled (s : RaceState) (shadow : FtsInstance) (modified : List String) : Prop where
  contentFields : shadow.contentFields = fields
  skip : ∀ r, s.current = some r → r.shouldSkipShadow = false
  running : ∀ r, s.current = some r → ¬ s.LastWaiting r.write.docId →
    r.write.version = s.version r.write.docId ∧
    (.track ∈ r.ops ∨ r.write.docId ∈ modified) ∧
    (.deleteShadow ∈ r.ops ∨ r.write.docId ∈ modified ∧ s.NotInserting r.write.docId) ∧
    s.Applied fields .deleteShadow .indexShadow r shadow
  noted : ∀ docId, s.Quiet docId → docId ∈ modified →
    s.NotInserting docId ∧ shadow.entries docId = s.expected fields docId
  unnoted : ∀ docId, s.Quiet docId → docId ∉ modified →
    (s.stage = .started → shadow.entries docId = []) ∧
    (∀ doc ∈ s.stage.pending, doc.id = docId →
      s.stored.get docId = some doc ∧ shadow.entries docId = []) ∧
    (s.stage ≠ .started → (∀ doc ∈ s.stage.pending, doc.id ≠ docId) →
      shadow.entries docId = s.expected fields docId)

/-- The index after the swap. -/
structure Swapped (s : RaceState) (inst : FtsInstance) : Prop where
  contentFields : inst.contentFields = fields
  running : ∀ r, s.current = some r → ¬ s.LastWaiting r.write.docId →
    r.write.version = s.version r.write.docId ∧
    s.Applied fields .deleteActive .indexActive r inst
  quiet : ∀ docId, s.Quiet docId → inst.entries docId = s.expected fields docId

/-- The invariant of a run. -/
structure Inv (s : RaceState) : Prop where
  waiting : ∀ w ∈ s.waiting, s.Sound w
  current : ∀ r, s.current = some r → s.Sound r.write ∧ r.Shape
  nodup : (s.stage.pending.map Document.id).Nodup
  filling : s.stage.filling → ∃ active shadow modified overflow,
    s.index = .rebuilding active shadow modified overflow ∧
      (overflow = false → s.Filled fields shadow modified)
  finished : s.stage = .finished → ∃ inst, s.index = .active inst ∧ s.Swapped fields inst

end Invariant

end RaceState

/-! ## Lemmas about single steps -/

theorem RunningWrite.shape_enter (w : IndexWrite) (index : FtsIndexState) :
    (RunningWrite.mk w (w.ops index) false).Shape := by
  have hcases : w.ops index = .deleteActive :: (if w.newDoc.isSome then [.indexActive] else []) ∨
      w.ops index = .track :: .deleteActive :: .deleteShadow ::
        (if w.newDoc.isSome then [.indexActive, .indexShadow] else []) := by
    unfold IndexWrite.ops
    split
    · exact Or.inr rfl
    · exact Or.inl rfl
  cases hnew : w.newDoc.isSome with
  | _ =>
    rw [hnew] at hcases
    rcases hcases with hops | hops
    · rw [hops]
      constructor <;> simp [UpdateOp.rank, hnew]
    · rw [hops]
      constructor <;> simp [UpdateOp.rank, hnew]

theorem RunningWrite.Shape.tail {w : IndexWrite} {op : UpdateOp} {ops : List UpdateOp}
    {skip skip' : Bool} (h : (RunningWrite.mk w (op :: ops) skip).Shape) :
    (RunningWrite.mk w ops skip').Shape := by
  have hsorted := List.pairwise_cons.mp h.sorted
  refine ⟨hsorted.2, fun hnew hmem => ?_, fun hnew hmem => ?_, fun hmem => h.new ?_⟩
  · rcases List.mem_cons.mp (h.active hnew (List.mem_cons_of_mem _ hmem)) with rfl | hin
    · exact absurd (hsorted.1 _ hmem) (by decide)
    · exact hin
  · rcases List.mem_cons.mp (h.shadow hnew (List.mem_cons_of_mem _ hmem)) with rfl | hin
    · exact absurd (hsorted.1 _ hmem) (by decide)
    · exact hin
  · exact hmem.imp (List.mem_cons_of_mem _) (List.mem_cons_of_mem _)

/-- No step comes twice, nor one that goes before. -/
theorem RunningWrite.Shape.notMem {w : IndexWrite} {op op' : UpdateOp} {ops : List UpdateOp}
    {skip : Bool} (h : (RunningWrite.mk w (op :: ops) skip).Shape) (hrank : op'.rank ≤ op.rank) :
    op' ∉ ops := fun hmem =>
  absurd ((List.pairwise_cons.mp h.sorted).1 op' hmem) (Nat.not_lt.mpr hrank)

theorem IndexWrite.deleteFor_eq (w : IndexWrite) (inst : FtsInstance) :
    inst.deleteFor w.oldDoc w.newDoc = inst.deleteDoc w.docId :=
  inst.deleteFor_eq w.old_id w.new_id w.present

theorem IndexWrite.track_spec (w : IndexWrite) (modified : List String) :
    (track modified w.oldDoc w.newDoc).shouldSkipShadow =
      (track modified w.oldDoc w.newDoc).overflow ∧
    ((track modified w.oldDoc w.newDoc).overflow = false → ∀ docId,
      docId ∈ (track modified w.oldDoc w.newDoc).concurrentModified ↔
        docId = w.docId ∨ docId ∈ modified) := by
  have hnote : ∀ (t : Tracking) (doc : Option Document), (∀ d, doc = some d → d.id = w.docId) →
      t.shouldSkipShadow = t.overflow → (t.note doc).shouldSkipShadow = (t.note doc).overflow ∧
      ((t.note doc).overflow = false → t.overflow = false ∧ ∀ docId,
        docId ∈ (t.note doc).concurrentModified ↔
          doc.isSome ∧ docId = w.docId ∨ docId ∈ t.concurrentModified) := by
    intro t doc hid hskip
    cases doc with
    | none => exact ⟨hskip, fun h => ⟨h, fun docId => by simp [Tracking.note]⟩⟩
    | some d =>
      unfold Tracking.note
      dsimp only
      split
      · exact ⟨rfl, nofun⟩
      · refine ⟨hskip, fun h => ⟨h, fun docId => ?_⟩⟩
        rw [List.mem_insert_iff, hid d rfl]
        simp
  obtain ⟨hskip, hmem⟩ := hnote ⟨modified, false, false⟩ w.oldDoc w.old_id rfl
  obtain ⟨hskip', hmem'⟩ := hnote _ w.newDoc w.new_id hskip
  refine ⟨hskip', fun h docId => ?_⟩
  obtain ⟨hover, hiff'⟩ := hmem' h
  have hiff := (hmem hover).2 docId
  show docId ∈ (Tracking.note _ w.newDoc).concurrentModified ↔ _
  rw [hiff', hiff]
  have hpresent := w.present
  tauto

namespace RaceState

variable {s : RaceState}

theorem Quiet.of_current {current : Option RunningWrite} {docId : String}
    (h : Quiet { s with current := current } docId)
    (hnot : ∀ r, s.current = some r → r.write.docId ≠ docId) : s.Quiet docId := ⟨h.1, hnot⟩

/-! ## Steps of the writes -/

section Writes

variable [External] [Formats] {fields : List String}

/-- A step of the running write that touches the entries of its own document only. -/
theorem Filled.advance {shadow shadow' : FtsInstance} {modified modified' : List String}
    {r r' : RunningWrite} {index : FtsIndexState} (h : s.Filled fields shadow modified)
    (hr : s.current = some r) (hw : r'.write = r.write)
    (hcontent : shadow'.contentFields = shadow.contentFields)
    (hother : ∀ docId, docId ≠ r.write.docId → shadow'.entries docId = shadow.entries docId)
    (hmodified : ∀ docId, docId ≠ r.write.docId → (docId ∈ modified' ↔ docId ∈ modified))
    (hskip : r'.shouldSkipShadow = false)
    (hrunning : ¬ s.LastWaiting r.write.docId →
      (.track ∈ r'.ops ∨ r.write.docId ∈ modified') ∧
      (.deleteShadow ∈ r'.ops ∨ r.write.docId ∈ modified' ∧ s.NotInserting r.write.docId) ∧
      s.Applied fields .deleteShadow .indexShadow r' shadow') :
    Filled fields { s with index := index, current := some r' } shadow' modified' := by
  have hquiet : ∀ docId, Quiet { s with index := index, current := some r' } docId →
      s.Quiet docId ∧ docId ≠ r.write.docId := by
    intro docId hq
    have hne : r.write.docId ≠ docId := hw ▸ hq.2 r' rfl
    refine ⟨⟨hq.1, fun r'' hr'' => ?_⟩, hne.symm⟩
    obtain rfl : r = r'' := Option.some.inj (hr.symm.trans hr'')
    exact hne
  refine ⟨hcontent.trans h.contentFields, ?_, ?_, fun docId hq hmem => ?_, fun docId hq hmem => ?_⟩
  · intro r'' hr''
    cases hr''
    exact hskip
  · intro r'' hr'' hlast
    cases hr''
    have hlast' : ¬ s.LastWaiting r.write.docId := hw ▸ hlast
    obtain ⟨htrack, hclear, happlied⟩ := hrunning hlast'
    rw [← hw] at htrack hclear
    refine ⟨?_, htrack, hclear, happlied⟩
    show r'.write.version = s.version r'.write.docId
    rw [hw]
    exact (h.running r hr hlast').1
  · obtain ⟨hq', hne⟩ := hquiet docId hq
    rw [hother docId hne]
    exact h.noted docId hq' ((hmodified docId hne).mp hmem)
  · obtain ⟨hq', hne⟩ := hquiet docId hq
    rw [hother docId hne]
    exact h.unnoted docId hq' (mt (hmodified docId hne).mpr hmem)

theorem Swapped.advance {inst inst' : FtsInstance} {r r' : RunningWrite} {index : FtsIndexState}
    (h : s.Swapped fields inst) (hr : s.current = some r) (hw : r'.write = r.write)
    (hcontent : inst'.contentFields = inst.contentFields)
    (hother : ∀ docId, docId ≠ r.write.docId → inst'.entries docId = inst.entries docId)
    (hrunning : ¬ s.LastWaiting r.write.docId →
      s.Applied fields .deleteActive .indexActive r' inst') :
    Swapped fields { s with index := index, current := some r' } inst' := by
  refine ⟨hcontent.trans h.contentFields, ?_, fun docId hq => ?_⟩
  · intro r'' hr'' hlast
    cases hr''
    have hlast' : ¬ s.LastWaiting r.write.docId := hw ▸ hlast
    refine ⟨?_, hrunning hlast'⟩
    show r'.write.version = s.version r'.write.docId
    rw [hw]
    exact (h.running r hr hlast').1
  · have hne : r.write.docId ≠ docId := hw ▸ hq.2 r' rfl
    rw [hother docId hne.symm]
    refine h.quiet docId ⟨hq.1, fun r'' hr'' => ?_⟩
    obtain rfl : r = r'' := Option.some.inj (hr.symm.trans hr'')
    exact hne

/-- Removing and then adding brings the entries of the document from any to the expected ones. -/
theorem Applied.delete {delete add : UpdateOp} {w : IndexWrite} {ops : List UpdateOp}
    {skip : Bool} (hsound : s.Sound w) (hlast : w.version = s.version w.docId)
    (hadd : w.newDoc.isSome → add ∈ ops) (inst : FtsInstance) :
    s.Applied fields delete add ⟨w, ops, skip⟩ (inst.deleteFor w.oldDoc w.newDoc) := by
  refine Or.inr ?_
  rw [w.deleteFor_eq]
  show Function.update inst.entries w.docId [] w.docId = _
  rw [Function.update_self]
  split
  · rfl
  · next hnot =>
    have hnone : w.newDoc = none := Option.not_isSome_iff_eq_none.mp (mt hadd hnot)
    unfold expected
    rw [← hsound.2 hlast, hnone]
    rfl

theorem Applied.add {delete add : UpdateOp} {w : IndexWrite} {ops : List UpdateOp}
    {skip skip' : Bool} {inst : FtsInstance}
    (h : s.Applied fields delete add ⟨w, add :: ops, skip⟩ inst) (hne : delete ≠ add)
    (hdelete : delete ∉ ops) (hadd : add ∉ ops) (hsound : s.Sound w)
    (hlast : w.version = s.version w.docId) (hnew : w.newDoc.isSome)
    (hcontent : inst.contentFields = fields) :
    s.Applied fields delete add ⟨w, ops, skip'⟩ (inst.indexFor fields w.newDoc) := by
  obtain ⟨new, hnew⟩ := Option.isSome_iff_exists.mp hnew
  have hempty : inst.entries w.docId = [] := by
    rcases h with hmem | heq
    · exact absurd hmem (by simp [hne, hdelete])
    · exact heq.trans (if_pos List.mem_cons_self)
  refine Or.inr ?_
  rw [if_neg hadd, hnew]
  unfold expected
  show Function.update inst.entries new.id _ w.docId = _
  rw [← hsound.2 hlast, hnew, w.new_id new hnew, Function.update_self, hempty, hcontent]
  rfl

/-- A step that is no removal or addition of the instance. -/
theorem Applied.skip {delete add op : UpdateOp} {w : IndexWrite} {ops : List UpdateOp}
    {skip skip' : Bool} {inst : FtsInstance}
    (h : s.Applied fields delete add ⟨w, op :: ops, skip⟩ inst) (hdelete : delete ≠ op)
    (hadd : add ≠ op) : s.Applied fields delete add ⟨w, ops, skip'⟩ inst := by
  unfold Applied at h ⊢
  simpa [hdelete, hadd] using h

theorem indexFor_spec (fields : List String) (w : IndexWrite) (inst : FtsInstance) :
    (inst.indexFor fields w.newDoc).contentFields = inst.contentFields ∧
    ∀ docId, docId ≠ w.docId →
      (inst.indexFor fields w.newDoc).entries docId = inst.entries docId := by
  cases hnew : w.newDoc with
  | none => exact ⟨rfl, fun _ _ => rfl⟩
  | some new =>
    refine ⟨rfl, fun docId hne => ?_⟩
    rw [← w.new_id new hnew] at hne
    exact Function.update_of_ne hne ..

omit [External] [Formats] in
theorem deleteFor_spec (w : IndexWrite) (inst : FtsInstance) :
    (inst.deleteFor w.oldDoc w.newDoc).contentFields = inst.contentFields ∧
    ∀ docId, docId ≠ w.docId →
      (inst.deleteFor w.oldDoc w.newDoc).entries docId = inst.entries docId := by
  rw [w.deleteFor_eq]
  exact ⟨rfl, fun docId hne => Function.update_of_ne hne ..⟩

theorem Filled.run {active shadow : FtsInstance} {modified : List String} {w : IndexWrite}
    {op : UpdateOp} {ops : List UpdateOp} {skip : Bool} (h : s.Filled fields shadow modified)
    (hr : s.current = some ⟨w, op :: ops, skip⟩)
    (hindex : s.index = .rebuilding active shadow modified false) (hsound : s.Sound w)
    (hshape : (RunningWrite.mk w (op :: ops) skip).Shape) (horderly : s.Orderly .advance) :
    ∃ active' shadow' modified' overflow',
      (w.run fields (s.index, skip) op).1 = .rebuilding active' shadow' modified' overflow' ∧
      (overflow' = false →
        Filled fields
          { s with
              index := (w.run fields (s.index, skip) op).1
              current := some ⟨w, ops, (w.run fields (s.index, skip) op).2⟩ }
          shadow' modified') := by
  obtain rfl : skip = false := h.skip _ hr
  rw [hindex]
  have hsame : ∀ docId, docId ≠ w.docId → (docId ∈ modified ↔ docId ∈ modified) :=
    fun _ _ => Iff.rfl
  cases op with
  | track =>
    obtain ⟨hskip, hmem⟩ := w.track_spec modified
    refine ⟨active, shadow, _, _, rfl, fun hover => ?_⟩
    have hover : (track modified w.oldDoc w.newDoc).overflow = false := hover
    refine h.advance hr rfl rfl (fun _ _ => rfl) (fun docId hne => ?_) (hskip.trans hover)
      fun hlast => ?_
    · rw [hmem hover, or_iff_right hne]
    · obtain ⟨-, -, hclear, happlied⟩ := h.running _ hr hlast
      refine ⟨Or.inr ((hmem hover _).mpr (Or.inl rfl)), hclear.imp (fun hin => ?_) (And.imp_left
        fun hin => (hmem hover _).mpr (Or.inr hin)), happlied.skip nofun nofun⟩
      exact (List.mem_cons.mp hin).resolve_left nofun
  | deleteActive =>
    refine ⟨_, shadow, modified, false, rfl, fun _ => ?_⟩
    refine h.advance hr rfl rfl (fun _ _ => rfl) hsame rfl fun hlast => ?_
    obtain ⟨-, htrack, hclear, happlied⟩ := h.running _ hr hlast
    refine ⟨htrack.imp_left fun hin => ?_, hclear.imp_left fun hin => ?_, happlied.skip nofun nofun⟩
    · exact (List.mem_cons.mp hin).resolve_left nofun
    · exact (List.mem_cons.mp hin).resolve_left nofun
  | deleteShadow =>
    obtain ⟨hcontent, hother⟩ := deleteFor_spec w shadow
    refine ⟨active, _, modified, false, rfl, fun _ => ?_⟩
    refine h.advance hr rfl hcontent hother hsame rfl fun hlast => ?_
    obtain ⟨hversion, htrack, -, -⟩ := h.running _ hr hlast
    have hnoted : w.docId ∈ modified := htrack.resolve_left fun hin =>
      hshape.notMem (Nat.zero_le _) ((List.mem_cons.mp hin).resolve_left nofun)
    refine ⟨Or.inr hnoted, Or.inr ⟨hnoted, fun hins => ?_⟩, ?_⟩
    · exact hlast (horderly _ hr rfl hins)
    · refine Applied.delete hsound hversion (fun hnew => ?_) shadow
      exact (List.mem_cons.mp (hshape.shadow hnew List.mem_cons_self)).resolve_left nofun
  | indexActive =>
    refine ⟨_, shadow, modified, false, rfl, fun _ => ?_⟩
    refine h.advance hr rfl rfl (fun _ _ => rfl) hsame rfl fun hlast => ?_
    obtain ⟨-, htrack, hclear, happlied⟩ := h.running _ hr hlast
    refine ⟨htrack.imp_left fun hin => ?_, hclear.imp_left fun hin => ?_, happlied.skip nofun nofun⟩
    · exact (List.mem_cons.mp hin).resolve_left nofun
    · exact (List.mem_cons.mp hin).resolve_left nofun
  | indexShadow =>
    obtain ⟨hcontent, hother⟩ := indexFor_spec fields w shadow
    refine ⟨active, _, modified, false, rfl, fun _ => ?_⟩
    refine h.advance hr rfl hcontent hother hsame rfl fun hlast => ?_
    obtain ⟨hversion, htrack, hclear, happlied⟩ := h.running _ hr hlast
    refine ⟨htrack.imp_left fun hin => ?_, hclear.imp_left fun hin => ?_, ?_⟩
    · exact (List.mem_cons.mp hin).resolve_left nofun
    · exact (List.mem_cons.mp hin).resolve_left nofun
    · exact happlied.add nofun (hshape.notMem (by decide)) (hshape.notMem le_rfl) hsound hversion
        (hshape.new (Or.inr List.mem_cons_self)) h.contentFields

theorem Swapped.run {inst : FtsInstance} {w : IndexWrite} {op : UpdateOp} {ops : List UpdateOp}
    {skip : Bool} (h : s.Swapped fields inst) (hr : s.current = some ⟨w, op :: ops, skip⟩)
    (hindex : s.index = .active inst) (hsound : s.Sound w)
    (hshape : (RunningWrite.mk w (op :: ops) skip).Shape) :
    ∃ inst', (w.run fields (s.index, skip) op).1 = .active inst' ∧
      Swapped fields
        { s with
            index := (w.run fields (s.index, skip) op).1
            current := some ⟨w, ops, (w.run fields (s.index, skip) op).2⟩ } inst' := by
  rw [hindex]
  have hskip : .deleteActive ≠ op → .indexActive ≠ op → ∀ skip', ¬ s.LastWaiting w.docId →
      s.Applied fields .deleteActive .indexActive ⟨w, ops, skip'⟩ inst :=
    fun hdelete hadd skip' hlast => (h.running _ hr hlast).2.skip hdelete hadd
  cases op with
  | track =>
    exact ⟨inst, rfl, h.advance hr rfl rfl (fun _ _ => rfl) (hskip nofun nofun _)⟩
  | deleteActive =>
    obtain ⟨hcontent, hother⟩ := deleteFor_spec w inst
    refine ⟨_, rfl, h.advance hr rfl hcontent hother fun hlast => ?_⟩
    refine Applied.delete hsound (h.running _ hr hlast).1 (fun hnew => ?_) inst
    exact (List.mem_cons.mp (hshape.active hnew List.mem_cons_self)).resolve_left nofun
  | deleteShadow =>
    have hsame : (w.run fields (.active inst, skip) .deleteShadow).1 = .active inst := by
      show (if skip then _ else _) = _
      cases skip with
      | _ => rfl
    refine ⟨inst, hsame, ?_⟩
    exact h.advance hr rfl rfl (fun _ _ => rfl) (hskip nofun nofun _)
  | indexActive =>
    obtain ⟨hcontent, hother⟩ := indexFor_spec fields w inst
    refine ⟨_, rfl, h.advance hr rfl hcontent hother fun hlast => ?_⟩
    obtain ⟨hversion, happlied⟩ := h.running _ hr hlast
    exact happlied.add nofun (hshape.notMem (by decide)) (hshape.notMem le_rfl) hsound hversion
      (hshape.new (Or.inl List.mem_cons_self)) h.contentFields
  | indexShadow =>
    have hsame : (w.run fields (.active inst, skip) .indexShadow).1 = .active inst := by
      show (if skip then _ else _) = _
      cases skip with
      | _ => rfl
    refine ⟨inst, hsame, ?_⟩
    exact h.advance hr rfl rfl (fun _ _ => rfl) (hskip nofun nofun _)

theorem Inv.advance {analyzer : String} (h : s.Inv fields) (horderly : s.Orderly .advance) :
    (s.step fields analyzer .advance).Inv fields := by
  unfold step
  dsimp only
  split
  · exact h
  · next w skip hr =>
    -- the write lets go; its document is as it should be, or a later write of it waits
    have hquiet : ∀ docId, Quiet { s with current := none } docId →
        docId ≠ w.docId → s.Quiet docId := by
      refine fun docId hq hne => hq.of_current fun r hr' => ?_
      obtain rfl : ⟨w, [], skip⟩ = r := Option.some.inj (hr.symm.trans hr')
      exact hne.symm
    refine ⟨h.waiting, nofun, h.nodup, fun hfill => ?_, fun hfin => ?_⟩
    · obtain ⟨active, shadow, modified, overflow, hindex, hfilled⟩ := h.filling hfill
      refine ⟨active, shadow, modified, overflow, hindex, fun hover => ?_⟩
      have hf := hfilled hover
      refine ⟨hf.contentFields, nofun, nofun, fun docId hq hmem => ?_, fun docId hq hmem => ?_⟩
      · by_cases heq : docId = w.docId
        · subst heq
          obtain ⟨-, -, hclear, happlied⟩ := hf.running _ hr hq.1
          exact ⟨(hclear.resolve_left List.not_mem_nil).2, happlied.resolve_left List.not_mem_nil⟩
        · exact hf.noted docId (hquiet docId hq heq) hmem
      · refine hf.unnoted docId (hquiet docId hq ?_) hmem
        rintro rfl
        obtain ⟨-, htrack, -, -⟩ := hf.running _ hr hq.1
        exact hmem (htrack.resolve_left List.not_mem_nil)
    · obtain ⟨inst, hindex, hswapped⟩ := h.finished hfin
      refine ⟨inst, hindex, hswapped.contentFields, nofun, fun docId hq => ?_⟩
      by_cases heq : docId = w.docId
      · subst heq
        exact (hswapped.running _ hr hq.1).2.resolve_left List.not_mem_nil
      · exact hswapped.quiet docId (hquiet docId hq heq)
  · next w op ops skip hr =>
    obtain ⟨hsound, hshape⟩ := h.current _ hr
    refine ⟨h.waiting, ?_, h.nodup, fun hfill => ?_, fun hfin => ?_⟩
    · intro r' hr'
      cases hr'
      exact ⟨hsound, hshape.tail⟩
    · obtain ⟨active, shadow, modified, overflow, hindex, hfilled⟩ := h.filling hfill
      cases overflow with
      | false => exact (hfilled rfl).run hr hindex hsound hshape horderly
      | true =>
        -- the shadow is given up for good
        have hover : ∃ active' shadow' modified',
            (w.run fields (s.index, skip) op).1 = .rebuilding active' shadow' modified' true := by
          rw [hindex]
          cases op with
          | track => exact ⟨_, _, _, rfl⟩
          | deleteActive => exact ⟨_, _, _, rfl⟩
          | indexActive => exact ⟨_, _, _, rfl⟩
          | deleteShadow =>
            show ∃ _ _ _, (if skip then _ else _) = _
            cases skip with
            | _ => exact ⟨_, _, _, rfl⟩
          | indexShadow =>
            show ∃ _ _ _, (if skip then _ else _) = _
            cases skip with
            | _ => exact ⟨_, _, _, rfl⟩
        obtain ⟨active', shadow', modified', heq⟩ := hover
        exact ⟨active', shadow', modified', true, heq, nofun⟩
    · obtain ⟨inst, hindex, hswapped⟩ := h.finished hfin
      exact hswapped.run hr hindex hsound hshape

/-- After a commit the last write of its document is waiting. -/
theorem Inv.commit (h : s.Inv fields) {w : IndexWrite} {stored : DocStore}
    (hversion : w.version = s.version w.docId + 1) (hnew : w.newDoc = stored.get w.docId)
    (hother : ∀ docId, docId ≠ w.docId → stored.get docId = s.stored.get docId) :
    Inv fields
      { s with
          stored := stored
          version := Function.update s.version w.docId (s.version w.docId + 1)
          waiting := s.waiting ++ [w] } := by
  set s' : RaceState :=
    { s with
        stored := stored
        version := Function.update s.version w.docId (s.version w.docId + 1)
        waiting := s.waiting ++ [w] } with hs'
  have hself : s'.version w.docId = s.version w.docId + 1 := Function.update_self ..
  have hversions : ∀ docId, docId ≠ w.docId → s'.version docId = s.version docId :=
    fun docId hne => Function.update_of_ne hne ..
  have hlast : ∀ docId, ¬ s'.LastWaiting docId → docId ≠ w.docId ∧ ¬ s.LastWaiting docId := by
    intro docId hnot
    have hne : docId ≠ w.docId := by
      rintro rfl
      exact hnot ⟨w, List.mem_append_right _ List.mem_cons_self, rfl, hversion.trans hself.symm⟩
    refine ⟨hne, fun ⟨w', hmem, hid, hv⟩ => hnot ⟨w', List.mem_append_left _ hmem, hid, ?_⟩⟩
    rw [hv, hversions docId hne]
  have hexpected : ∀ docId, docId ≠ w.docId → s'.expected fields docId = s.expected fields docId := by
    intro docId hne
    unfold expected
    rw [hother docId hne]
  have hsound : ∀ w', s.Sound w' → s'.Sound w' := by
    intro w' ⟨hle, hget⟩
    by_cases hid : w'.docId = w.docId
    · have hlt : w'.version < s'.version w'.docId := by
        rw [hid, hself, ← hid]
        exact Nat.lt_succ_of_le hle
      exact ⟨hlt.le, fun heq => absurd heq hlt.ne⟩
    · refine ⟨hle.trans_eq (hversions _ hid).symm, fun heq => ?_⟩
      exact (hget (heq.trans (hversions _ hid))).trans (hother _ hid).symm
  have hquiet : ∀ docId, s'.Quiet docId → docId ≠ w.docId ∧ s.Quiet docId :=
    fun docId hq => ⟨(hlast docId hq.1).1, (hlast docId hq.1).2, hq.2⟩
  refine ⟨fun w' hmem => ?_, fun r hr => ?_, h.nodup, fun hfill => ?_, fun hfin => ?_⟩
  · rcases List.mem_append.mp hmem with hmem | hmem
    · exact hsound w' (h.waiting w' hmem)
    · obtain rfl := List.mem_singleton.mp hmem
      exact ⟨(hversion.trans hself.symm).le, fun _ => hnew⟩
  · exact ⟨hsound _ (h.current r hr).1, (h.current r hr).2⟩
  · obtain ⟨active, shadow, modified, overflow, hindex, hfilled⟩ := h.filling hfill
    refine ⟨active, shadow, modified, overflow, hindex, fun hover => ?_⟩
    have hf := hfilled hover
    refine ⟨hf.contentFields, hf.skip, fun r hr hnot => ?_, fun docId hq hmem => ?_,
      fun docId hq hmem => ?_⟩
    · obtain ⟨hne, hnot'⟩ := hlast _ hnot
      obtain ⟨hv, htrack, hclear, happlied⟩ := hf.running r hr hnot'
      refine ⟨hv.trans (hversions _ hne).symm, htrack, hclear, ?_⟩
      unfold Applied
      rw [hexpected _ hne]
      exact happlied
    · obtain ⟨hne, hq'⟩ := hquiet docId hq
      rw [hexpected _ hne]
      exact hf.noted docId hq' hmem
    · obtain ⟨hne, hq'⟩ := hquiet docId hq
      rw [hexpected _ hne]
      show _ ∧ (∀ doc ∈ s.stage.pending, doc.id = docId → stored.get docId = _ ∧ _) ∧ _
      rw [hother docId hne]
      exact hf.unnoted docId hq' hmem
  · obtain ⟨inst, hindex, hswapped⟩ := h.finished hfin
    refine ⟨inst, hindex, hswapped.contentFields, fun r hr hnot => ?_, fun docId hq => ?_⟩
    · obtain ⟨hne, hnot'⟩ := hlast _ hnot
      obtain ⟨hv, happlied⟩ := hswapped.running r hr hnot'
      refine ⟨hv.trans (hversions _ hne).symm, ?_⟩
      unfold Applied
      rw [hexpected _ hne]
      exact happlied
    · obtain ⟨hne, hq'⟩ := hquiet docId hq
      rw [hexpected _ hne]
      exact hswapped.quiet docId hq'

/-- A write comes to the index: it is the last of its document, or the last one still waits. -/
theorem Inv.enter (h : s.Inv fields) {i : Nat} {w : IndexWrite} (hidle : s.current = none)
    (hw : s.waiting[i]? = some w) (horderly : s.Orderly (.enter i)) :
    Inv fields
      { s with
          waiting := s.waiting.eraseIdx i
          current := some ⟨w, w.ops s.index, false⟩ } := by
  set s' : RaceState :=
    { s with
        waiting := s.waiting.eraseIdx i
        current := some ⟨w, w.ops s.index, false⟩ } with hs'
  have hmem : w ∈ s.waiting := List.mem_of_getElem? hw
  have hrest : ∀ w' ∈ s.waiting, w' ≠ w → w' ∈ s.waiting.eraseIdx i := by
    intro w' hmem' hne
    obtain ⟨j, hj⟩ := List.mem_iff_getElem?.mp hmem'
    refine List.mem_eraseIdx_iff_getElem?.mpr ⟨j, fun hji => hne ?_, hj⟩
    subst hji
    exact Option.some.inj (hj.symm.trans hw)
  have hlast : ∀ docId, ¬ s'.LastWaiting docId → docId ≠ w.docId → ¬ s.LastWaiting docId := by
    rintro docId hnot hne ⟨w', hmem', hid, hv⟩
    refine hnot ⟨w', hrest w' hmem' ?_, hid, hv⟩
    rintro rfl
    exact hne hid.symm
  have hquiet : ∀ docId, s'.Quiet docId → s.Quiet docId := by
    intro docId hq
    refine ⟨hlast docId hq.1 (hq.2 _ rfl).symm, fun r hr => ?_⟩
    rw [hidle] at hr
    cases hr
  -- with no later write waiting it is the last one itself
  have hversion : s.stage.followed → ¬ s'.LastWaiting w.docId → w.version = s.version w.docId := by
    intro hfollowed hnot
    rcases horderly hfollowed w hw with heq | ⟨w', hmem', hid, hv⟩
    · exact heq
    · by_cases hww : w' = w
      · rw [hww] at hv
        exact hv
      · exact absurd ⟨w', hrest w' hmem' hww, hid, hv⟩ hnot
  refine ⟨fun w' hmem' => h.waiting w' (List.mem_of_mem_eraseIdx hmem'), fun r hr => ?_, h.nodup,
    fun hfill => ?_, fun hfin => ?_⟩
  · cases hr
    exact ⟨h.waiting w hmem, RunningWrite.shape_enter w s.index⟩
  · obtain ⟨active, shadow, modified, overflow, hindex, hfilled⟩ := h.filling hfill
    refine ⟨active, shadow, modified, overflow, hindex, fun hover => ?_⟩
    subst hover
    have hf := hfilled rfl
    refine ⟨hf.contentFields, fun r hr => ?_, fun r hr hnot => ?_, fun docId hq => ?_,
      fun docId hq => ?_⟩
    · cases hr
      rfl
    · cases hr
      refine ⟨hversion (RebuildStage.followed_of_filling hfill) hnot, Or.inl ?_, Or.inl ?_,
        Or.inl ?_⟩
      · rw [hindex]
        exact List.mem_cons_self
      · rw [hindex]
        exact List.mem_cons_of_mem _ (List.mem_cons_of_mem _ List.mem_cons_self)
      · rw [hindex]
        exact List.mem_cons_of_mem _ (List.mem_cons_of_mem _ List.mem_cons_self)
    · exact hf.noted docId (hquiet docId hq)
    · exact hf.unnoted docId (hquiet docId hq)
  · obtain ⟨inst, hindex, hswapped⟩ := h.finished hfin
    refine ⟨inst, hindex, hswapped.contentFields, fun r hr hnot => ?_, fun docId hq => ?_⟩
    · cases hr
      have hfin' : s.stage = .finished := hfin
      refine ⟨hversion (by rw [hfin']; rfl) hnot, Or.inl ?_⟩
      rw [hindex]
      exact List.mem_cons_self
    · exact hswapped.quiet docId (hquiet docId hq)

end Writes

/-! ## Steps of the REINDEX -/

section Rebuild

variable [External] [Formats] {fields : List String}

/-- A step to a stage in which the shadow is not followed. -/
theorem Inv.quit (h : s.Inv fields) {stage : RebuildStage} (index : FtsIndexState)
    (hstage : stage.followed = false) (hpending : stage.pending = []) :
    Inv fields { s with index := index, stage := stage } := by
  refine ⟨h.waiting, h.current, ?_, fun hfill => ?_, fun hfin => ?_⟩
  · show (stage.pending.map Document.id).Nodup
    rw [hpending]
    exact List.nodup_nil
  · have hfollowed := RebuildStage.followed_of_filling hfill
    rw [show stage.followed = false from hstage] at hfollowed
    cases hfollowed
  · rw [show stage = .finished from hfin] at hstage
    cases hstage

/-- A step of the REINDEX that changes neither the shadow nor the documents it has still to see,
apart from one that a write has noted or that is gone. -/
theorem Filled.move {shadow : FtsInstance} {modified : List String} {stage : RebuildStage}
    (h : s.Filled fields shadow modified) (hstarted : stage ≠ .started)
    (hstarted' : s.stage ≠ .started)
    (hinserting : ∀ docId, s.NotInserting docId → docId ∈ modified →
      stage.inserting.map Document.id ≠ some docId)
    (hsub : ∀ doc ∈ stage.pending, doc ∈ s.stage.pending)
    (hdropped : ∀ doc ∈ s.stage.pending, doc.id ∉ modified → s.stored.get doc.id = some doc →
      doc ∈ stage.pending) :
    Filled fields { s with stage := stage } shadow modified := by
  refine ⟨h.contentFields, h.skip, fun r hr hnot => ?_, fun docId hq hmem => ?_,
    fun docId hq hmem => ?_⟩
  · obtain ⟨hv, htrack, hclear, happlied⟩ := h.running r hr hnot
    refine ⟨hv, htrack, hclear.imp_right fun hno => ⟨hno.1, ?_⟩, happlied⟩
    exact hinserting _ hno.2 hno.1
  · obtain ⟨hno, hentries⟩ := h.noted docId hq hmem
    exact ⟨hinserting docId hno hmem, hentries⟩
  · obtain ⟨-, hpending, hdone⟩ := h.unnoted docId hq hmem
    refine ⟨fun heq => absurd heq hstarted, fun doc hdoc => hpending doc (hsub doc hdoc),
      fun _ hall => hdone hstarted' fun doc hdoc hid => ?_⟩
    subst hid
    exact hall doc (hdropped doc hdoc hmem (hpending doc hdoc rfl).1) rfl

/-- Such a step as a step of the whole state. -/
theorem Inv.move (h : s.Inv fields) {stage : RebuildStage} (hfilling : s.stage.filling)
    (hfinished : stage ≠ .finished) (hstarted : stage ≠ .started) (hstarted' : s.stage ≠ .started)
    (hsub : stage.pending.Sublist s.stage.pending)
    (hmove : ∀ active shadow modified, s.index = .rebuilding active shadow modified false →
      s.Filled fields shadow modified →
      (∀ docId, s.NotInserting docId → docId ∈ modified →
        stage.inserting.map Document.id ≠ some docId) ∧
      ∀ doc ∈ s.stage.pending, doc.id ∉ modified → s.stored.get doc.id = some doc →
        doc ∈ stage.pending) :
    Inv fields { s with stage := stage } := by
  refine ⟨h.waiting, h.current, (hsub.map _).nodup h.nodup, fun _ => ?_,
    fun hfin => absurd hfin hfinished⟩
  obtain ⟨active, shadow, modified, overflow, hindex, hfilled⟩ := h.filling hfilling
  refine ⟨active, shadow, modified, overflow, hindex, fun hover => ?_⟩
  subst hover
  obtain ⟨hinserting, hdropped⟩ := hmove active shadow modified hindex (hfilled rfl)
  exact (hfilled rfl).move hstarted hstarted' hinserting (fun doc => hsub.mem) hdropped

theorem Inv.start (h : s.Inv fields) {analyzer : String} :
    (s.step fields analyzer .start).Inv fields := by
  unfold step
  dsimp only
  split
  · next inst hstage hidle hindex =>
    refine ⟨h.waiting, h.current, List.nodup_nil, fun _ => ?_, nofun⟩
    refine ⟨inst, _, [], false, rfl, fun _ => ⟨rfl, fun r hr => ?_, fun r hr => ?_, nofun,
      fun docId hq _ => ⟨fun _ => rfl, nofun, fun hne => absurd rfl hne⟩⟩⟩
    · rw [show s.current = some r from hr] at hidle
      cases hidle
    · rw [show s.current = some r from hr] at hidle
      cases hidle
  · exact h

/-- The snapshot has the documents that are stored, and the shadow still none. -/
theorem Inv.openIterator (h : s.Inv fields) {analyzer : String} :
    (s.step fields analyzer .openIterator).Inv fields := by
  unfold step
  dsimp only
  split
  · next hstage =>
    refine ⟨h.waiting, h.current, s.stored.nodup_all, fun _ => ?_, nofun⟩
    obtain ⟨active, shadow, modified, overflow, hindex, hfilled⟩ :=
      h.filling (by rw [hstage]; rfl)
    refine ⟨active, shadow, modified, overflow, hindex, fun hover => ?_⟩
    have hf := hfilled hover
    refine ⟨hf.contentFields, hf.skip, fun r hr hnot => ?_, fun docId hq hmem => ?_,
      fun docId hq hmem => ?_⟩
    · obtain ⟨hv, htrack, hclear, happlied⟩ := hf.running r hr hnot
      exact ⟨hv, htrack, hclear.imp_right fun hno => ⟨hno.1, nofun⟩, happlied⟩
    · exact ⟨nofun, (hf.noted docId hq hmem).2⟩
    · have hempty := (hf.unnoted docId hq hmem).1 hstage
      refine ⟨nofun, fun doc hdoc hid => ⟨?_, hempty⟩, fun _ hall => hempty.trans ?_⟩
      · rw [← hid]
        exact DocStore.mem_all.mp hdoc
      · have hnone : s.stored.get docId = none := by
          rw [← Option.not_isSome_iff_eq_none, Option.isSome_iff_exists]
          rintro ⟨doc, hget⟩
          have hid := DocStore.id_of_get hget
          exact hall doc (DocStore.mem_all.mpr (hid.symm ▸ hget)) hid
        show [] = (s.stored.get docId).toList.map _
        rw [hnone]
        rfl
  · exact h

theorem Inv.fetch (h : s.Inv fields) {analyzer : String} :
    (s.step fields analyzer .fetch).Inv fields := by
  unfold step
  dsimp only
  split
  · next doc rest hstage =>
    refine h.move (by rw [hstage]; rfl) nofun nofun (by rw [hstage]; nofun) ?_ fun _ _ _ _ _ =>
      ⟨fun _ _ _ => nofun, fun d hd _ _ => ?_⟩
    · rw [hstage]
      exact List.Sublist.refl _
    · rw [hstage] at hd
      exact hd
  · exact h

theorem Inv.checkStored (h : s.Inv fields) {analyzer : String} :
    (s.step fields analyzer .checkStored).Inv fields := by
  unfold step
  dsimp only
  split
  · next doc rest hstage =>
    split
    · refine h.move (by rw [hstage]; rfl) nofun nofun (by rw [hstage]; nofun) ?_ fun _ _ _ _ _ =>
        ⟨fun _ _ _ => nofun, fun d hd _ _ => ?_⟩
      · rw [hstage]
        exact List.Sublist.refl _
      · rw [hstage] at hd
        exact hd
    · next hgone =>
      refine h.move (by rw [hstage]; rfl) nofun nofun (by rw [hstage]; nofun) ?_ fun _ _ _ _ _ =>
        ⟨fun _ _ _ => nofun, fun d hd _ hget => ?_⟩
      · rw [hstage]
        exact List.sublist_cons_self ..
      · rw [hstage] at hd
        refine (List.mem_cons.mp hd).resolve_left fun heq => hgone ?_
        rw [← heq, hget]
        rfl
  · exact h

/-- A document is let through if no write has noted it. -/
theorem Inv.checkModified (h : s.Inv fields) {analyzer : String} :
    (s.step fields analyzer .checkModified).Inv fields := by
  unfold step
  dsimp only
  split
  · next doc rest _ _ modified overflow hstage hindex =>
    split
    · exact h.quit s.index rfl rfl
    · split
      · next hnoted =>
        refine h.move (by rw [hstage]; rfl) nofun nofun (by rw [hstage]; nofun) ?_
          fun _ _ _ hindex' _ => ⟨fun _ _ _ => nofun, fun d hd hmem _ => ?_⟩
        · rw [hstage]
          exact List.sublist_cons_self ..
        · rw [hstage] at hd
          refine (List.mem_cons.mp hd).resolve_left fun heq => hmem ?_
          rw [hindex] at hindex'
          cases hindex'
          rw [heq]
          exact hnoted
      · next hfree =>
        refine h.move (by rw [hstage]; rfl) nofun nofun (by rw [hstage]; nofun) ?_
          fun _ _ _ hindex' _ => ⟨fun docId _ hmem heq => ?_, fun d hd _ _ => ?_⟩
        · rw [hstage]
          exact List.Sublist.refl _
        · rw [hindex] at hindex'
          cases hindex'
          exact hfree (Option.some.inj heq ▸ hmem)
        · rw [hstage] at hd
          exact hd
  · exact h

/-- Neither a document that a write has noted nor the one of a running write is inserted. -/
theorem Filled.apart {shadow : FtsInstance} {modified : List String}
    (h : s.Filled fields shadow modified) {doc : Document}
    (hinserting : s.stage.inserting = some doc) :
    (s.Quiet doc.id → doc.id ∉ modified) ∧
    ∀ r, s.current = some r → ¬ s.LastWaiting r.write.docId → r.write.docId = doc.id →
      .deleteShadow ∈ r.ops := by
  refine ⟨fun hq hmem => (h.noted _ hq hmem).1 ?_, fun r hr hnot hid => ?_⟩
  · rw [hinserting]
    rfl
  · refine (h.running r hr hnot).2.2.1.resolve_right fun hno => hno.2 ?_
    rw [hinserting, hid]
    rfl

/-- A step of the REINDEX on the entries of the document that it inserts. -/
theorem Filled.insert {shadow shadow' : FtsInstance} {modified : List String}
    {stage : RebuildStage} {index : FtsIndexState} {doc : Document}
    (h : s.Filled fields shadow modified) (hinserting : s.stage.inserting = some doc)
    (hnext : stage.inserting = some doc ∨ stage.inserting = none)
    (hstarted : stage ≠ .started) (hstarted' : s.stage ≠ .started)
    (hcontent : shadow'.contentFields = shadow.contentFields)
    (hother : ∀ docId, docId ≠ doc.id → shadow'.entries docId = shadow.entries docId)
    (hpending : ∀ d, d.id ≠ doc.id → (d ∈ stage.pending ↔ d ∈ s.stage.pending))
    (hself : s.stored.get doc.id = some doc → shadow.entries doc.id = [] →
      (∀ d ∈ stage.pending, d.id = doc.id → d = doc ∧ shadow'.entries doc.id = []) ∧
      ((∀ d ∈ stage.pending, d.id ≠ doc.id) →
        shadow'.entries doc.id = s.expected fields doc.id)) (hmem : doc ∈ s.stage.pending) :
    Filled fields { s with index := index, stage := stage } shadow' modified := by
  obtain ⟨hapart, hrunning⟩ := h.apart hinserting
  have hno : ∀ docId, s.NotInserting docId →
      stage.inserting.map Document.id ≠ some docId := by
    intro docId hno heq
    rcases hnext with hsome | hnone
    · rw [hsome, ← hinserting] at heq
      exact hno heq
    · rw [hnone] at heq
      cases heq
  refine ⟨hcontent.trans h.contentFields, h.skip, fun r hr hnot => ?_, fun docId hq hm => ?_,
    fun docId hq hm => ?_⟩
  · obtain ⟨hv, htrack, hclear, happlied⟩ := h.running r hr hnot
    refine ⟨hv, htrack, hclear.imp_right fun hn => ⟨hn.1, hno _ hn.2⟩, ?_⟩
    by_cases hid : r.write.docId = doc.id
    · exact Or.inl (hrunning r hr hnot hid)
    · unfold Applied
      rw [hother _ hid]
      exact happlied
  · obtain ⟨hn, hentries⟩ := h.noted docId hq hm
    refine ⟨hno docId hn, ?_⟩
    rw [hother docId fun heq => hapart (heq ▸ hq) (heq ▸ hm)]
    exact hentries
  · obtain ⟨-, hpend, hdone⟩ := h.unnoted docId hq hm
    by_cases heq : docId = doc.id
    · subst heq
      obtain ⟨hget, hempty⟩ := hpend doc hmem rfl
      obtain ⟨hpend', hdone'⟩ := hself hget hempty
      refine ⟨fun heq => absurd heq hstarted, fun d hd hid => ?_, fun _ => hdone'⟩
      obtain ⟨rfl, hentries⟩ := hpend' d hd hid
      exact ⟨hget, hentries⟩
    · rw [hother docId heq]
      refine ⟨fun heq => absurd heq hstarted, fun d hd hid => ?_, fun _ hall => ?_⟩
      · exact hpend d ((hpending d (hid.symm ▸ heq)).mp hd) hid
      · refine hdone hstarted' fun d hd hid => ?_
        exact hall d ((hpending d (hid.symm ▸ heq)).mpr hd) hid

theorem Inv.clearShadow (h : s.Inv fields) {analyzer : String} :
    (s.step fields analyzer .clearShadow).Inv fields := by
  unfold step
  dsimp only
  split
  · next doc rest hstage =>
    have hnodup := h.nodup
    rw [hstage] at hnodup
    refine ⟨h.waiting, h.current, hnodup, fun _ => ?_, nofun⟩
    obtain ⟨active, shadow, modified, overflow, hindex, hfilled⟩ :=
      h.filling (by rw [hstage]; rfl)
    refine ⟨active, shadow.deleteDoc doc.id, modified, overflow, by rw [hindex]; rfl,
      fun hover => ?_⟩
    refine (hfilled hover).insert (by rw [hstage]; rfl) (Or.inl rfl) nofun (by rw [hstage]; nofun)
      rfl (fun docId hne => Function.update_of_ne hne ..) (fun d _ => by rw [hstage]; rfl)
      (fun _ _ => ⟨fun d hd hid => ⟨?_, Function.update_self ..⟩, fun hall => ?_⟩) ?_
    · exact List.inj_on_of_nodup_map hnodup hd List.mem_cons_self hid
    · exact absurd rfl (hall doc List.mem_cons_self)
    · rw [hstage]
      exact List.mem_cons_self
  · exact h

theorem Inv.insertShadow (h : s.Inv fields) {analyzer : String} :
    (s.step fields analyzer .insertShadow).Inv fields := by
  unfold step
  dsimp only
  split
  · next doc rest hstage =>
    have hnodup := h.nodup
    rw [hstage] at hnodup
    obtain ⟨hnot, hrest⟩ := List.nodup_cons.mp (show (doc.id :: rest.map Document.id).Nodup
      from hnodup)
    refine ⟨h.waiting, h.current, hrest, fun _ => ?_, nofun⟩
    obtain ⟨active, shadow, modified, overflow, hindex, hfilled⟩ :=
      h.filling (by rw [hstage]; rfl)
    refine ⟨active, shadow.indexDoc fields doc, modified, overflow, by rw [hindex]; rfl,
      fun hover => ?_⟩
    refine (hfilled hover).insert (by rw [hstage]; rfl) (Or.inr rfl) nofun (by rw [hstage]; nofun)
      rfl (fun docId hne => Function.update_of_ne hne ..) (fun d hne => ?_)
      (fun hget hempty => ⟨fun d hd hid => ?_, fun _ => ?_⟩) ?_
    · rw [hstage]
      exact ⟨List.mem_cons_of_mem _, fun hd => (List.mem_cons.mp hd).resolve_left fun heq =>
        hne (congrArg Document.id heq)⟩
    · exact absurd (List.mem_map.mpr ⟨d, hd, hid⟩) hnot
    · unfold expected
      rw [hget]
      show Function.update shadow.entries doc.id _ doc.id = _
      rw [Function.update_self, hempty, (hfilled hover).contentFields]
      rfl
    · rw [hstage]
      exact List.mem_cons_self
  · exact h

theorem Inv.finish (h : s.Inv fields) {analyzer : String} :
    (s.step fields analyzer .finish).Inv fields := by
  unfold step
  dsimp only
  split
  · next active shadow modified overflow hstage hidle hindex =>
    split
    · exact h.quit s.index rfl rfl
    · next hover =>
      refine ⟨h.waiting, h.current, List.nodup_nil, nofun, fun _ => ⟨shadow, rfl, ?_⟩⟩
      obtain ⟨_, shadow', _, overflow', hindex', hfilled⟩ := h.filling (by rw [hstage]; rfl)
      rw [hindex] at hindex'
      cases hindex'
      have hf := hfilled (by simpa using hover)
      refine ⟨hf.contentFields, fun r hr => ?_, fun docId hq => ?_⟩
      · rw [show s.current = some r from hr] at hidle
        cases hidle
      · have hq' : s.Quiet docId := hq
        by_cases hmem : docId ∈ modified
        · exact (hf.noted docId hq' hmem).2
        · refine (hf.unnoted docId hq' hmem).2.2 (by rw [hstage]; nofun) fun doc hdoc => ?_
          rw [hstage] at hdoc
          cases hdoc
  · exact h

end Rebuild

/-! ## Runs -/

variable [External] [Formats] {fields : List String}

theorem Initial.inv (h : s.Initial) : s.Inv fields := by
  refine ⟨fun w hw => ?_, fun r hr => ?_, ?_, fun hfill => ?_, fun hfin => ?_⟩
  · rw [h.waiting] at hw
    cases hw
  · rw [h.current] at hr
    cases hr
  · rw [h.stage]
    exact List.nodup_nil
  · rw [h.stage] at hfill
    cases hfill
  · rw [h.stage] at hfin
    cases hfin

theorem Inv.step (h : s.Inv fields) {analyzer : String} {a : RaceStep} (horderly : s.Orderly a) :
    (s.step fields analyzer a).Inv fields := by
  cases a with
  | put doc =>
    refine h.commit (w := s.putWrite doc) rfl ?_ fun docId hne => ?_
    · rw [DocStore.get_put]
      exact (if_pos rfl).symm
    · exact (DocStore.get_put ..).trans (if_neg (Ne.symm hne))
  | remove docId =>
    dsimp only [RaceState.step]
    split
    · exact h
    · next old hget =>
      refine h.commit (w := s.removeWrite old hget) rfl ?_ fun docId' hne => ?_
      · rw [DocStore.get_remove]
        exact (if_pos rfl).symm
      · exact (DocStore.get_remove ..).trans (if_neg (Ne.symm hne))
  | enter i =>
    rw [RaceState.step]
    split
    · next w hidle hw => exact h.enter hidle hw horderly
    · exact h
  | advance => exact h.advance horderly
  | start => exact h.start
  | openIterator => exact h.openIterator
  | fetch => exact h.fetch
  | checkStored => exact h.checkStored
  | checkModified => exact h.checkModified
  | clearShadow => exact h.clearShadow
  | insertShadow => exact h.insertShadow
  | fail =>
    rw [RaceState.step]
    split
    · exact h.quit s.index rfl rfl
    · exact h
  | cancel =>
    rw [RaceState.step]
    split
    · exact h.quit _ rfl rfl
    · exact h
  | finish => exact h.finish

/-- In every run of orderly steps: once the REINDEX has swapped and all writes have returned, the
index has exactly one entry for each document, of its last version. -/
theorem reindex_exact (analyzer : String) {s₀ : RaceState} (hinitial : s₀.Initial)
    {steps : List RaceStep} (horderly : Meets (RaceState.step fields analyzer) Orderly s₀ steps) :
    ∀ done, done <+: steps →
      let s := done.foldl (RaceState.step fields analyzer) s₀
      s.stage = .finished → s.waiting = [] → s.current = none →
        ∃ inst, s.index = .active inst ∧ ∀ docId, inst.entries docId = s.expected fields docId := by
  intro done hdone s hfinished hwaiting hidle
  have hinv : s.Inv fields := foldl_invariant (RaceState.Inv fields)
    (fun s a h horderly => h.step horderly) hinitial.inv horderly done hdone
  obtain ⟨inst, hindex, hswapped⟩ := hinv.finished hfinished
  refine ⟨inst, hindex, fun docId => hswapped.quiet docId ⟨?_, fun r hr => ?_⟩⟩
  · rintro ⟨w, hmem, -⟩
    rw [hwaiting] at hmem
    cases hmem
  · rw [hidle] at hr
    cases hr

end RaceState

/-! ## One document, rewritten while its collection is reindexed -/

namespace Verses

local instance : External := .standIn
local instance : Formats := .standIn

theorem verse_wf (text : String) : (Value.object [("text", .string text)]).wf = true := rfl

def verse (text : String) : Document where
  id := "verses:1"
  fields := [("text", .string text)]
  wf := verse_wf text

/-- No document, and an index with nothing in it. -/
def empty : RaceState where
  stored := ⟨∅, by simp⟩
  version := fun _ => 0
  waiting := []
  current := none
  index := .active ⟨["text"], "standard", fun _ => []⟩
  stage := .idle

theorem empty_initial : empty.Initial := ⟨rfl, rfl, rfl⟩

/-- The first version is stored and indexed, and the REINDEX lets the document through. -/
def looked : List RaceStep :=
  [.put (verse "draft"), .enter 0, .advance, .advance, .advance, .start, .openIterator, .fetch,
    .checkStored, .checkModified]

/-- A second version, whose write comes to the shadow after the REINDEX. -/
def behind : List RaceStep :=
  [.put (verse "final"), .enter 0, .advance, .advance, .clearShadow, .insertShadow, .advance,
    .advance, .advance, .advance, .finish]

/-- The same write, made between the look at the document and its insertion. -/
def between : List RaceStep :=
  [.put (verse "final"), .enter 0, .advance, .advance, .advance, .advance, .advance, .advance,
    .clearShadow, .insertShadow, .finish]

def orderly : List RaceStep := looked ++ behind

def crossed : List RaceStep := looked ++ between

/-- State after some steps. -/
def after (steps : List RaceStep) : RaceState :=
  steps.foldl (RaceState.step ["text"] "standard") empty

/-- The REINDEX has swapped and no write is left. -/
def settled (steps : List RaceStep) : Bool :=
  (after steps).stage.followed && !(after steps).stage.filling &&
    (after steps).waiting.isEmpty && (after steps).current.isNone

theorem of_settled {steps : List RaceStep} (h : settled steps) :
    (after steps).stage = .finished ∧ (after steps).waiting = [] ∧ (after steps).current = none := by
  unfold settled at h
  simp only [Bool.and_eq_true, Bool.not_eq_true', List.isEmpty_iff, Option.isNone_iff_eq_none] at h
  obtain ⟨⟨⟨hfollowed, hfilling⟩, hwaiting⟩, hidle⟩ := h
  exact ⟨RebuildStage.eq_finished hfollowed hfilling, hwaiting, hidle⟩

theorem orderly_exact : Meets (RaceState.step ["text"] "standard") RaceState.Orderly empty orderly ∧
    settled orderly ∧ ∃ inst, (after orderly).index = .active inst ∧
      ∀ docId, inst.entries docId = (after orderly).expected ["text"] docId := by
  have hmeets : Meets (RaceState.step ["text"] "standard") RaceState.Orderly empty orderly := by
    decide +kernel
  have hsettled : settled orderly := by decide +kernel
  obtain ⟨hfinished, hwaiting, hidle⟩ := of_settled hsettled
  unfold after at hfinished hwaiting hidle ⊢
  exact ⟨hmeets, hsettled, RaceState.reindex_exact "standard" empty_initial hmeets orderly
    (List.prefix_refl _) hfinished hwaiting hidle⟩

/-- After the other run the index has the first version. -/
theorem crossed_stale :
    ¬ ∀ (fields : List String) (analyzer : String) (s₀ : RaceState), s₀.Initial →
      ∀ steps : List RaceStep,
        let s := steps.foldl (RaceState.step fields analyzer) s₀
        s.stage = .finished → s.waiting = [] → s.current = none →
          ∃ inst, s.index = .active inst ∧
            ∀ docId, inst.entries docId = s.expected fields docId := by
  intro hall
  obtain ⟨hfinished, hwaiting, hidle⟩ := of_settled (show settled crossed by decide +kernel)
  unfold after at hfinished hwaiting hidle
  obtain ⟨inst, hindex, hentries⟩ :=
    hall ["text"] "standard" empty empty_initial crossed hfinished hwaiting hidle
  have hstale : (after crossed).index.searched.entries "verses:1" ≠
      (after crossed).expected ["text"] "verses:1" := by decide +kernel
  unfold after at hstale
  rw [hindex] at hstale
  exact hstale (hentries "verses:1")

end Verses

end StellarDb
