import StellarDb.Indexes.Scan
import StellarDb.Query.Aggregate

/-!
# StellarDb — planned index scans against the index definitions

The planner finds an index by one rule (any index type, first field or leading fields) and the
executor finds it again by another (BTree only). `EveryScanServed` is the condition on the
index definitions of a collection under which the two agree for every plan
(`plans_served_iff`): every index starts with a field that starts a BTree index, and the
fields of a compound index that the equalities of a predicate bind, gaps closed, are the
leading fields of some BTree index again.
-/

namespace StellarDb

open Keyspaces

/-! ## The index scans of a plan -/

section Plans

variable {Ω Φ : Type}

mutual

/-- The index scans of a plan: collection and lookup. -/
def PhysicalOp.indexScans : PhysicalOp Ω Φ → List (String × IndexLookup)
  | .indexScan collection _ lookup => [(collection, lookup)]
  | .union inputs _ => indexScansOf inputs
  | .filter _ input => input.indexScans
  | .project _ input => input.indexScans
  | .limit _ input => input.indexScans
  | .offset _ input => input.indexScans
  | .sort _ input => input.indexScans
  | .aggregate _ input => input.indexScans
  | .groupAggregate _ _ input => input.indexScans
  | .distinct input => input.indexScans
  | .value _ _ input => input.indexScans
  | .update _ _ input => input.indexScans
  | .delete _ input => input.indexScans
  | .tableScan _ _ | .keyLookup _ _ | .inMemoryScan _ | .ftsScan _ _ _ | .knnScan _ _
  | .write _ => []

def PhysicalOp.indexScansOf : List (PhysicalOp Ω Φ) → List (String × IndexLookup)
  | [] => []
  | input :: inputs => input.indexScans ++ indexScansOf inputs

end

@[simp] theorem indexScans_withFilter (op : PhysicalOp Ω Φ) (p : Option (Expr Ω)) :
    (withFilter op p).indexScans = op.indexScans := by
  cases p <;> rfl

@[simp] theorem indexScans_withOrder (op : PhysicalOp Ω Φ) (items : Option Φ) :
    (withOrder op items).indexScans = op.indexScans := by
  cases items <;> rfl

@[simp] theorem indexScans_withProjection (op : PhysicalOp Ω Φ) (fields : Option Φ) :
    (Optimizer.withProjection op fields).indexScans = op.indexScans := by
  cases fields <;> rfl

@[simp] theorem indexScans_applyDistinctValue (op : PhysicalOp Ω Φ) (d v : Bool)
    (e : Option (Expr Ω)) : (applyDistinctValue op d v e).indexScans = op.indexScans := by
  cases d <;> cases v <;> cases e <;> rfl

@[simp] theorem indexScans_applyProjectionAndOrder (op : PhysicalOp Ω Φ)
    (c : SelectClauses Ω Φ) : (applyProjectionAndOrder op c).indexScans = op.indexScans := by
  unfold applyProjectionAndOrder
  split <;> simp [PhysicalOp.indexScans]

@[simp] theorem indexScans_applyOffsetAndLimit (op : PhysicalOp Ω Φ)
    (c : SelectClauses Ω Φ) : (applyOffsetAndLimit op c).indexScans = op.indexScans := by
  unfold applyOffsetAndLimit
  cases c.offset <;> cases c.limit <;> rfl

theorem indexScansOf_map (collection : String) (branches : List (IndexRef × IndexLookup)) :
    PhysicalOp.indexScansOf
        (branches.map fun b => (.indexScan collection b.1 b.2 : PhysicalOp Ω Φ)) =
      branches.map fun b => (collection, b.2) := by
  induction branches with
  | nil => rfl
  | cons b branches ih => simp [PhysicalOp.indexScansOf, PhysicalOp.indexScans, ih]

/-- The lookups of an access method. -/
def AccessMethod.lookups : AccessMethod → List IndexLookup
  | .tableScan => []
  | .indexScan _ lookup => [lookup]
  | .union branches _ => branches.map (·.2)

theorem indexScans_toOp (collection : String) (m : AccessMethod) :
    (m.toOp collection : PhysicalOp Ω Φ).indexScans = m.lookups.map (Prod.mk collection) := by
  cases m with
  | tableScan => rfl
  | indexScan ref lookup => rfl
  | union branches needsDedup =>
    simp [AccessMethod.toOp, AccessMethod.lookups, PhysicalOp.indexScans, indexScansOf_map]

/-! ## The best path -/

theorem selectBest_spec (path : AccessPath Ω) (paths : List (AccessPath Ω)) :
    selectBest (path :: paths) ∈ path :: paths ∧
      ∀ q ∈ path :: paths, (selectBest (path :: paths)).score ≤ q.score := by
  induction paths generalizing path with
  | nil => simp [selectBest]
  | cons q paths ih =>
    have hstep : selectBest (path :: q :: paths) =
        selectBest ((if q.score < path.score then q else path) :: paths) := rfl
    rw [hstep]
    -- the better of the first two goes on
    by_cases hlt : q.score < path.score
    · rw [if_pos hlt]
      obtain ⟨hmem, hle⟩ := ih q
      refine ⟨List.mem_cons_of_mem path hmem, List.forall_mem_cons.mpr ⟨?_, hle⟩⟩
      exact (hle q List.mem_cons_self).trans hlt.le
    · rw [if_neg hlt]
      obtain ⟨hmem, hle⟩ := ih path
      refine ⟨?_, ?_⟩
      · rcases List.mem_cons.mp hmem with h | h
        · exact List.mem_cons.mpr (.inl h)
        · exact List.mem_cons_of_mem path (List.mem_cons_of_mem q h)
      · intro x hx
        rcases List.mem_cons.mp hx with rfl | hx
        · exact hle x List.mem_cons_self
        · rcases List.mem_cons.mp hx with rfl | hx
          · exact (hle path List.mem_cons_self).trans (not_lt.mp hlt)
          · exact hle x (List.mem_cons_of_mem path hx)

end Plans

/-! ## Lookups that find an index -/

/-- Some BTree index starts with the fields. -/
def Leads (indexes : List IndexDef) (fields : List String) : Prop :=
  ∃ idx ∈ indexes, idx.indexType = .btree ∧ fields <+: idx.fields

theorem btreeLeadBy_isSome {indexes : List IndexDef} {fields : List String} :
    (Database.btreeLeadBy indexes fields).isSome = true ↔ Leads indexes fields := by
  unfold Database.btreeLeadBy Leads
  rw [List.find?_isSome]
  simp [List.isPrefixOf_iff_prefix]

/-- The fields an index scan has to find leading a BTree index. -/
def IndexLookup.fields : IndexLookup → List String
  | .eq field _ => [field]
  | .range field _ _ => [field]
  | .rangeBetween field _ _ _ _ => [field]
  | .in field _ => [field]
  | .compoundEq fieldValues => fieldValues.map (·.1)

section Accepts

variable [External] {db : Database} {collection : String}

/-- The scan runs: it does not end in `IndexLookupFailed`. -/
def Database.Accepts (db : Database) (collection : String) (lookup : IndexLookup) : Prop :=
  ∃ r, indexScanOp db collection lookup = .ok r

theorem scanIndexInLoop_ok {field : String} (h : Leads (db.indexes collection) [field])
    (limit : Nat) (allIds : List String) (exceeded : Bool) (values : List Value) :
    ∃ r, db.scanIndexInLoop collection field limit allIds exceeded values = .ok r := by
  obtain ⟨idx, hidx⟩ := Option.isSome_iff_exists.mp (btreeLeadBy_isSome.mpr h)
  induction values generalizing allIds exceeded with
  | nil => exact ⟨_, rfl⟩
  | cons value values ih =>
    rw [Database.scanIndexInLoop]
    unfold Database.scanIndexEq Database.indexForField
    rw [hidx]
    simp only [Except.map]
    split
    · exact ⟨_, rfl⟩
    · exact ih _ _

theorem accepts_of_leads {lookup : IndexLookup}
    (h : Leads (db.indexes collection) lookup.fields) : db.Accepts collection lookup := by
  unfold Database.Accepts
  cases lookup with
  | «in» field values =>
    obtain ⟨r, hr⟩ := scanIndexInLoop_ok h indexResultThreshold [] false values
    simp only [indexScanOp, Database.scanIndexIn, hr]
    exact ⟨_, rfl⟩
  | _ =>
    obtain ⟨idx, hidx⟩ := Option.isSome_iff_exists.mp (btreeLeadBy_isSome.mpr h)
    simp only [IndexLookup.fields] at hidx
    simp only [indexScanOp, Database.scanIndexEq, Database.scanIndexRange,
      Database.scanIndexRangeBetween, Database.scanCompoundIndexEq, Database.indexForField,
      Database.indexForFields, hidx]
    exact ⟨_, rfl⟩

/-- Only an empty `IN` list runs without an index. -/
theorem leads_of_accepts {lookup : IndexLookup} (hin : ∀ field, lookup ≠ .in field [])
    (h : db.Accepts collection lookup) : Leads (db.indexes collection) lookup.fields := by
  obtain ⟨r, hr⟩ := h
  rw [← btreeLeadBy_isSome]
  cases hb : Database.btreeLeadBy (db.indexes collection) lookup.fields with
  | some idx => rfl
  | none =>
    cases lookup with
    | «in» field values =>
      cases values with
      | nil => exact absurd rfl (hin field)
      | cons v vs =>
        simp only [IndexLookup.fields] at hb
        simp only [indexScanOp, Database.scanIndexIn, Database.scanIndexInLoop,
          Database.scanIndexEq, Database.indexForField, hb] at hr
        cases hr
    | _ =>
      simp only [IndexLookup.fields] at hb
      simp only [indexScanOp, Database.scanIndexEq, Database.scanIndexRange,
        Database.scanIndexRangeBetween, Database.scanCompoundIndexEq, Database.indexForField,
        Database.indexForFields, hb] at hr
      cases hr

end Accepts

/-! ## Index definitions that serve every plan -/

/-- The planner's indexes, and the parts of them that equalities bind, lead BTree indexes. -/
structure EveryScanServed (indexes : List IndexDef) : Prop where
  /-- The first field of an index of any type starts a BTree index. -/
  heads : ∀ idx ∈ indexes, ∀ field, idx.fields.head? = some field → Leads indexes [field]
  /-- So do the fields bound in an index that is found by its two leading fields. -/
  pairs : ∀ a b found, findCompoundIndex indexes [a, b] = some found →
    ∀ bound : List String, a ∈ bound → b ∈ bound → Leads indexes (found.filter (· ∈ bound))
  /-- And those bound in the index found for the largest combination of equality fields. -/
  combinations : ∀ bound found, findCompoundFor indexes bound = some found →
    Leads indexes (found.filter (· ∈ bound))

section Served

variable {Ω Φ : Type} {indexes : List IndexDef}

theorem exists_of_findIndexForField {field : String} {found : List String}
    (h : findIndexForField indexes field = some found) :
    ∃ idx ∈ indexes, idx.fields.head? = some field := by
  obtain ⟨idx, hidx, -⟩ := Option.map_eq_some_iff.mp h
  exact ⟨idx, List.mem_of_find?_eq_some hidx, by simpa using List.find?_some hidx⟩

theorem EveryScanServed.leads_field (h : EveryScanServed indexes) {field : String}
    {found : List String} (hf : findIndexForField indexes field = some found) :
    Leads indexes [field] :=
  let ⟨idx, hidx, hhead⟩ := exists_of_findIndexForField hf
  h.heads idx hidx field hhead

/-- The bound fields are those of the index that have a condition. -/
theorem map_fst_fillFields {β : Type} (conditions : List (String × β))
    (indexFields : List String) :
    (fillFields conditions indexFields).map (·.1) =
      indexFields.filter (· ∈ conditions.map (·.1)) := by
  unfold fillFields
  induction indexFields with
  | nil => rfl
  | cons f fields ih =>
    cases hfind : conditions.find? (fun c => decide (c.1 = f)) with
    | none =>
      have hnot : f ∉ conditions.map (·.1) := by
        intro hmem
        obtain ⟨c, hc, hcf⟩ := List.mem_map.mp hmem
        have := List.find?_eq_none.mp hfind c hc
        simp [hcf] at this
      rw [List.filterMap_cons, hfind, List.filter_cons_of_neg (by simpa using hnot)]
      exact ih
    | some c =>
      have hcf : c.1 = f := by simpa using List.find?_some hfind
      have hmem : f ∈ conditions.map (·.1) :=
        List.mem_map.mpr ⟨c, List.mem_of_find?_eq_some hfind, hcf⟩
      rw [List.filterMap_cons, hfind, List.filter_cons_of_pos (by simpa using hmem), ← ih]
      exact congrArg (· :: _) hcf

/-- An indexable conjunct looks up a field that some index starts with. -/
theorem fields_of_branchLookup {c : Conjunct Ω} {collection : String}
    {b : IndexRef × IndexLookup}
    (h : (classifyConjunct indexes c).branchLookup collection = some b) :
    ∃ field found, b.2.fields = [field] ∧ findIndexForField indexes field = some found := by
  cases c with
  | disjunction branches => simp only [classifyConjunct] at h; cases h
  | atom e =>
    simp only [classifyConjunct] at h
    unfold classifyAtom at h
    split at h
    · next field op value =>
      split at h
      · next iop found _ hidx =>
        obtain ⟨l, hl, rfl⟩ := Option.map_eq_some_iff.mp h
        refine ⟨field, found, ?_, hidx⟩
        cases iop <;> cases hl <;> rfl
      · cases h
    · next field list =>
      split at h
      · next vals found _ hidx =>
        cases h
        exact ⟨field, found, rfl, hidx⟩
      · cases h
    · cases h

/-- Every lookup of every access path is served. -/
theorem EveryScanServed.accessPaths (h : EveryScanServed indexes) {collection : String}
    {cs : List (Conjunct Ω)} {path : AccessPath Ω}
    (hpath : path ∈ generateAccessPaths indexes collection (classifyAll indexes cs)) :
    ∀ lookup ∈ path.method.lookups, Leads indexes lookup.fields := by
  have hbranch : ∀ (c : Conjunct Ω) (b : IndexRef × IndexLookup),
      (classifyConjunct indexes c).branchLookup collection = some b →
      Leads indexes b.2.fields := by
    intro c b hb
    obtain ⟨field, found, hfields, hfound⟩ := fields_of_branchLookup hb
    rw [hfields]
    exact h.leads_field hfound
  have hclass : ∀ part ∈ classifyAll indexes cs, ∃ c, part = classifyConjunct indexes c := by
    rw [classifyAll_eq_map]
    exact List.forall_mem_map.mpr fun c _ => ⟨c, rfl⟩
  unfold generateAccessPaths at hpath
  rw [List.mem_append, List.mem_append, List.mem_append] at hpath
  rcases hpath with ((htable | hindex) | hcompound) | hunion
  · obtain rfl := List.mem_singleton.mp htable
    simp [AccessPath.tableScan, AccessMethod.lookups]
  · obtain ⟨⟨part, i⟩, hi, hpart⟩ := List.mem_filterMap.mp hindex
    obtain ⟨c, rfl⟩ := hclass part (List.fst_mem_of_mem_zipIdx hi)
    split at hpart
    · next field op value original hc =>
      obtain ⟨lookup, hlookup, rfl⟩ := Option.map_eq_some_iff.mp hpart
      have hb : (classifyConjunct indexes c).branchLookup collection =
          some (⟨collection, [field]⟩, lookup) := by
        rw [show classifyConjunct indexes c = _ from hc, PredicatePart.branchLookup, hlookup]
        rfl
      exact List.forall_mem_singleton.mpr (hbranch c _ hb)
    · cases hpart
  · unfold tryBuildCompoundIndex at hcompound
    simp only [Option.mem_toList] at hcompound
    split at hcompound
    · cases hcompound
    · obtain ⟨found, hfound, rfl⟩ := Option.map_eq_some_iff.mp hcompound
      refine List.forall_mem_singleton.mpr ?_
      have hfields : ((fillFields (eqConditions (classifyAll indexes cs)) found).map
          fun c => (c.1, c.2.1)).map (·.1) =
            found.filter (· ∈ (eqConditions (classifyAll indexes cs)).map (·.1)) := by
        rw [List.map_map, ← map_fst_fillFields]
        rfl
      show Leads indexes (List.map _ (List.map _ _))
      rw [hfields]
      exact h.combinations _ found hfound
  · obtain ⟨⟨part, i⟩, hi, hpart⟩ := List.mem_filterMap.mp hunion
    obtain ⟨c, rfl⟩ := hclass part (List.fst_mem_of_mem_zipIdx hi)
    split at hpart
    · next branches original hc =>
      obtain ⟨lookups, hlookups, rfl⟩ := Option.map_eq_some_iff.mp hpart
      obtain ⟨ds, rfl, rfl⟩ := disjunction_of_group hc
      show ∀ lookup ∈ lookups.map (·.2), _
      rw [classifyAll_eq_map, List.mapM_map] at hlookups
      refine List.forall_mem_map.mpr (forall_of_mapM hlookups fun d b hb => ?_).1
      exact hbranch d b hb
    · cases hpart

/-- Every lookup of the analysis behind aggregates is served. -/
theorem EveryScanServed.analyzeSingleField (h : EveryScanServed indexes) {collection : String}
    {p : Expr Ω} {ref : IndexRef} {lookup : IndexLookup} {rem : Option (Expr Ω)}
    (huse : analyzeSingleField indexes collection p = .use ref lookup rem) :
    Leads indexes lookup.fields := by
  fun_induction StellarDb.analyzeSingleField indexes collection p generalizing rem with
  | case1 field op value =>
    unfold analyzeSimple at huse
    split at huse
    · next found hidx =>
      split at huse
      · next l hl =>
        cases huse
        have hfields : lookup.fields = [field] := by
          unfold simpleLookup at hl
          split at hl <;> cases hl <;> rfl
        rw [hfields]
        exact h.leads_field hidx
      · cases huse
    · cases huse
  | case2 left right _ ref lookup rem hleft ih =>
    cases huse
    exact ih hleft
  | case3 left right _ reason hleft ref lookup rem hright ihl ihr =>
    cases huse
    exact ihr hright
  | case4 => cases huse
  | case5 => cases huse
  | case6 => cases huse

theorem EveryScanServed.analyzeForIndex (h : EveryScanServed indexes) {ord : HashOrder}
    {collection : String} {p : Expr Ω} {ref : IndexRef} {lookup : IndexLookup}
    {rem : Option (Expr Ω)}
    (huse : analyzeForIndex ord indexes collection p = .use ref lookup rem) :
    Leads indexes lookup.fields := by
  unfold StellarDb.analyzeForIndex at huse
  split at huse
  · split at huse
    · next choice hbetween =>
      subst huse
      unfold tryRangeBetween at hbetween
      obtain ⟨field, -, hf⟩ := List.exists_of_findSome?_eq_some hbetween
      split at hf
      · next lower upper found _ hidx =>
        cases hf
        exact h.leads_field hidx
      · cases hf
    · simp only at huse
      split at huse
      · next found hpair =>
        cases huse
        show Leads indexes (List.map _ _)
        rw [map_fst_fillFields]
        obtain ⟨⟨i, j⟩, hij, hfind⟩ := List.exists_of_findSome?_eq_some hpair
        have hij := (List.mem_filter.mp hij).1
        rw [List.mem_product, List.mem_range, List.mem_range] at hij
        refine h.pairs _ _ found hfind _ ?_ ?_
        · rw [List.getD_eq_getElem _ _ hij.1]; exact List.getElem_mem _
        · rw [List.getD_eq_getElem _ _ hij.2]; exact List.getElem_mem _
      · exact h.analyzeSingleField huse
  · exact h.analyzeSingleField huse

/-- Every index scan of every plan is served. -/
theorem EveryScanServed.optimize {opt : Optimizer}
    (h : ∀ c, EveryScanServed (opt.indexes c)) (plan : LogicalPlan Ω Φ) :
    ∀ s ∈ (opt.optimize plan).indexScans, Leads (opt.indexes s.1) s.2.fields := by
  have hscan : ∀ (collection : String) (p : Expr Ω) (limit : Option Nat),
      ∀ s ∈ (opt.scanAccess collection p limit : PhysicalOp Ω Φ).indexScans,
        Leads (opt.indexes s.1) s.2.fields := by
    intro collection p limit
    unfold Optimizer.scanAccess
    split
    · simp [PhysicalOp.indexScans]
    · simp [PhysicalOp.indexScans]
    · simp only [Optimizer.optimizePredicate, indexScans_withFilter, indexScans_toOp]
      refine List.forall_mem_map.mpr fun lookup hlookup => ?_
      exact (h collection).accessPaths (selectBest_spec _ _).1 lookup hlookup
  have hagg : ∀ (collection : String) (filter : Option (Expr Ω)),
      ∀ s ∈ (opt.aggregateInput collection filter : PhysicalOp Ω Φ).indexScans,
        Leads (opt.indexes s.1) s.2.fields := by
    intro collection filter
    cases filter with
    | none => simp [Optimizer.aggregateInput, PhysicalOp.indexScans]
    | some p =>
      unfold Optimizer.aggregateInput
      simp only
      split
      · next branches hunion =>
        rw [PhysicalOp.indexScans, indexScansOf_map]
        refine List.forall_mem_map.mpr ?_
        unfold analyzeOrForUnion at hunion
        split at hunion
        · refine (forall_of_mapM hunion fun b c hbc => ?_).1
          split at hbc
          · next ref lookup rem huse =>
            cases hbc
            exact (h collection).analyzeForIndex huse
          · cases hbc
        · cases hunion
      · split
        · next ref lookup rem huse =>
          rw [indexScans_withFilter]
          exact List.forall_mem_singleton.mpr ((h collection).analyzeForIndex huse)
        · simp [PhysicalOp.indexScans]
  cases plan with
  | scan collection key filter c =>
    cases key with
    | some key => simp [Optimizer.optimize, PhysicalOp.indexScans]
    | none =>
      cases filter with
      | none => simp [Optimizer.optimize, PhysicalOp.indexScans]
      | some p => simpa [Optimizer.optimize] using hscan collection p c.limit
  | aggregate collection filter aggregates post =>
    simpa [Optimizer.optimize, PhysicalOp.indexScans] using hagg collection filter
  | groupAggregate collection filter groupFields aggregates post order =>
    simpa [Optimizer.optimize, PhysicalOp.indexScans] using hagg collection filter
  | inMemoryScan rows filter c =>
    simp only [Optimizer.optimize, indexScans_applyOffsetAndLimit, indexScans_withOrder]
    split <;> simp [PhysicalOp.indexScans]
  | update collection key filter assignments =>
    cases key <;> simp [Optimizer.optimize, Optimizer.dmlInput, PhysicalOp.indexScans]
  | delete collection key filter =>
    cases key <;> simp [Optimizer.optimize, Optimizer.dmlInput, PhysicalOp.indexScans]
  | write clauses => simp [Optimizer.optimize, PhysicalOp.indexScans]

/-! ## Predicates that ask for each index

For the converse: a conjunction of equalities on given fields makes the planner look for
compound indexes with exactly these fields. -/

/-- `field = NULL` -/
def equalityOn (field : String) : Expr Ω := .binaryOp (.field field) .eq (.literal .null)

/-- A conjunction of equalities. -/
def equalitiesOn (field : String) (fields : List String) : Expr Ω :=
  fields.foldl (fun a f => .binaryOp a .and (equalityOn f)) (equalityOn field)

theorem extractConjuncts_equalitiesOn (field : String) (fields : List String) :
    extractConjuncts (equalitiesOn field fields : Expr Ω) =
      (field :: fields).map fun f => .atom (equalityOn f) := by
  have hfold : ∀ (e : Expr Ω) (fs : List String),
      extractConjuncts (fs.foldl (fun a f => .binaryOp a .and (equalityOn f)) e) =
        extractConjuncts e ++ fs.map fun f => .atom (equalityOn f) := by
    intro e fs
    induction fs generalizing e with
    | nil => simp
    | cons f fs ih =>
      rw [List.foldl_cons, ih, extractConjuncts, List.map_cons, List.append_assoc]
      rfl
  exact hfold (equalityOn field) fields

theorem andLeaves_equalitiesOn (field : String) (fields : List String) :
    andLeaves (equalitiesOn field fields : Expr Ω) = (field :: fields).map equalityOn := by
  have hfold : ∀ (e : Expr Ω) (fs : List String),
      andLeaves (fs.foldl (fun a f => .binaryOp a .and (equalityOn f)) e) =
        andLeaves e ++ fs.map equalityOn := by
    intro e fs
    induction fs generalizing e with
    | nil => simp
    | cons f fs ih =>
      rw [List.foldl_cons, ih, andLeaves, List.map_cons, List.append_assoc]
      rfl
  exact hfold (equalityOn field) fields

theorem equalitiesOn_eq_and (field f : String) (fields : List String) :
    ∃ l r, (equalitiesOn field (f :: fields) : Expr Ω) = .binaryOp l .and r := by
  have hfold : ∀ (l r : Expr Ω) (fs : List String), ∃ l' r',
      fs.foldl (fun a f => .binaryOp a .and (equalityOn f)) (.binaryOp l .and r) =
        (.binaryOp l' .and r' : Expr Ω) := by
    intro l r fs
    induction fs generalizing l r with
    | nil => exact ⟨l, r, rfl⟩
    | cons f fs ih => exact ih _ _
  exact hfold _ _ fields

/-- What the aggregate analysis does with a conjunction of equalities that leads an index. -/
theorem analyzeForIndex_equalitiesOn {a b : String} {found : List String}
    (h : findCompoundIndex indexes [a, b] = some found) (ord : HashOrder) (collection : String)
    (bound : List String) :
    ∃ ref fieldValues rem,
      analyzeForIndex ord indexes collection (equalitiesOn a (b :: bound) : Expr Ω) =
        .use ref (.compoundEq fieldValues) rem ∧
      fieldValues.map (·.1) = found.filter (· ∈ a :: b :: bound) := by
  have hconds : (andLeaves (equalitiesOn a (b :: bound) : Expr Ω)).filterMap extractEqCondition =
      (a :: b :: bound).map fun f => (f, Value.null) := by
    rw [andLeaves_equalitiesOn, List.filterMap_map]
    show List.filterMap (some ∘ fun f => (f, Value.null)) _ = _
    rw [List.filterMap_eq_map]
  have hbounds : (andLeaves (equalitiesOn a (b :: bound) : Expr Ω)).filterMap boundOf = [] := by
    rw [andLeaves_equalitiesOn, List.filterMap_map]
    exact List.filterMap_eq_nil_iff.mpr fun f _ => rfl
  have hfst : ((a :: b :: bound).map fun f => (f, Value.null)).map (·.1) = a :: b :: bound := by
    rw [List.map_map]
    exact List.map_id _
  have hpair : findPairIndex indexes (a :: b :: bound) = some found := by
    have hfirst : ∃ rest, positionPairs (a :: b :: bound).length = (0, 1) :: rest := by
      have hlen : (a :: b :: bound).length = bound.length + 2 := rfl
      unfold positionPairs
      rw [hlen, List.range_succ_eq_map, List.range_succ_eq_map]
      exact ⟨_, rfl⟩
    obtain ⟨rest, hrest⟩ := hfirst
    unfold findPairIndex
    have hab : findCompoundIndex indexes
        [(a :: b :: bound).getD (0, 1).1 "", (a :: b :: bound).getD (0, 1).2 ""] = some found := h
    rw [hrest, List.findSome?_cons, hab]
  obtain ⟨l, r, hlr⟩ := equalitiesOn_eq_and (Ω := Ω) a b bound
  have hbetween : betweenOf ord indexes [] = none := by
    have : ord.iter [] = [] := List.Perm.eq_nil (ord.perm [])
    simp [betweenOf, this]
  refine ⟨⟨collection, found⟩, fillFields ((a :: b :: bound).map fun f => (f, Value.null)) found,
    computeCompoundRemaining found (equalitiesOn a (b :: bound)), ?_, ?_⟩
  · rw [hlr] at hconds hbounds ⊢
    simp only [analyzeForIndex, tryRangeBetween_eq, collectEqualityConditions_eq, hbounds, hconds,
      hbetween, Option.map_none, hfst, hpair]
  · rw [map_fst_fillFields, hfst]

/-! ## The compound path wins on equalities -/

/-- The parts of a conjunction of equalities. -/
def equalityParts (indexes : List IndexDef) (fields : List String) : List (PredicatePart Ω) :=
  fields.map fun f => classifyAtom indexes (equalityOn f)

theorem classifyAll_equalitiesOn (field : String) (fields : List String) :
    classifyAll indexes (extractConjuncts (equalitiesOn field fields : Expr Ω)) =
      equalityParts indexes (field :: fields) := by
  rw [extractConjuncts_equalitiesOn, classifyAll_eq_map, List.map_map]
  rfl

/-- A part with an index of its own, or one without: an equality all the same. -/
theorem classifyAtom_equalityOn (f : String) :
    classifyAtom indexes (equalityOn f : Expr Ω) =
        .indexable f .eq (.single .null) (equalityOn f) ∨
      classifyAtom indexes (equalityOn f : Expr Ω) = .filterOnly (equalityOn f) := by
  unfold equalityOn classifyAtom
  simp only [IndexableOp.ofBinaryOp]
  cases findIndexForField indexes f with
  | none => exact .inr rfl
  | some found => exact .inl rfl

theorem eqCondition_equalityOn (f : String) :
    (classifyAtom indexes (equalityOn f : Expr Ω)).eqCondition = some (f, .null) := by
  rcases @classifyAtom_equalityOn Ω indexes f with h | h <;> rw [h] <;> rfl

theorem originalExpr_equalityOn (f : String) :
    (classifyAtom indexes (equalityOn f : Expr Ω)).originalExpr = equalityOn f := by
  rcases @classifyAtom_equalityOn Ω indexes f with h | h <;> rw [h] <;> rfl

theorem eqConditions_equalityParts (fields : List String) :
    eqConditions (equalityParts indexes fields : List (PredicatePart Ω)) =
      fields.zipIdx.map fun p => (p.1, .null, p.2) := by
  unfold eqConditions equalityParts
  rw [List.zipIdx_map, List.filterMap_map]
  show List.filterMap (fun p => _) fields.zipIdx = _
  simp only [Function.comp_def, Prod.map, eqCondition_equalityOn, Option.map_some, id]
  exact congrFun List.filterMap_eq_map fields.zipIdx

theorem map_fst_eqConditions (fields : List String) :
    (eqConditions (equalityParts indexes fields : List (PredicatePart Ω))).map (·.1) = fields := by
  rw [eqConditions_equalityParts, List.map_map]
  exact List.zipIdx_map_fst 0 fields

/-- Each equality left over costs two. -/
theorem filterPenalty_combineExprs {es : List (Expr Ω)} (h : ∀ e ∈ es, countPredicates e = 1) :
    filterPenalty (combineExprs es) = 2 * es.length := by
  have hfold : ∀ (e : Expr Ω) (es : List (Expr Ω)), (∀ e ∈ es, countPredicates e = 1) →
      countPredicates (es.foldl (fun a b => .binaryOp a .and b) e) =
        countPredicates e + es.length := by
    intro e es hes
    induction es generalizing e with
    | nil => rfl
    | cons x es ih =>
      rw [List.forall_mem_cons] at hes
      rw [List.foldl_cons, ih _ hes.2, countPredicates, hes.1, List.length_cons]
      omega
  cases es with
  | nil => rfl
  | cons e es =>
    rw [List.forall_mem_cons] at h
    show countPredicates (es.foldl (fun a b => .binaryOp a .and b) e) * 2 = _
    rw [hfold e es h.2, h.1, List.length_cons]
    omega

theorem filterPenalty_equalityParts (fields : List String) (used : List Nat) :
    filterPenalty (combinePartsExceptMultiple
        (equalityParts indexes fields : List (PredicatePart Ω)) used) =
      2 * ((List.range fields.length).filter (· ∉ used)).length := by
  unfold combinePartsExceptMultiple
  rw [filterPenalty_combineExprs, List.length_map]
  · have hsnd : (equalityParts indexes fields : List (PredicatePart Ω)).zipIdx.map (·.2) =
        List.range fields.length := by
      rw [List.zipIdx_map_snd, equalityParts, List.length_map, List.range_eq_range']
    rw [← hsnd, List.filter_map, List.length_map]
    rfl
  · intro e he
    obtain ⟨⟨part, i⟩, hi, rfl⟩ := List.mem_map.mp he
    have hpart := List.fst_mem_of_mem_zipIdx (List.mem_filter.mp hi).1
    obtain ⟨f, -, rfl⟩ := List.mem_map.mp hpart
    show countPredicates (PredicatePart.originalExpr _) = 1
    rw [originalExpr_equalityOn]
    rfl

theorem mem_combinationsFrom {n k start : Nat} {indices : List Nat}
    (h : indices ∈ combinationsFrom n k start) : indices.length = k ∧ ∀ i ∈ indices, i < n := by
  induction k generalizing start indices with
  | zero =>
    obtain rfl := List.mem_singleton.mp h
    simp
  | succ k ih =>
    obtain ⟨i, hi, hrest⟩ := List.mem_flatMap.mp h
    obtain ⟨rest, hmem, rfl⟩ := List.mem_map.mp hrest
    obtain ⟨hlen, hlt⟩ := ih hmem
    have hin : i < n := by
      have := List.mem_range'_1.mp hi
      omega
    exact ⟨by rw [List.length_cons, hlen], List.forall_mem_cons.mpr ⟨hin, hlt⟩⟩

/-- The index found for a combination starts with two equality fields at least. -/
theorem findCompoundFor_spec {fields found : List String}
    (h : findCompoundFor indexes fields = some found) :
    2 ≤ fields.length ∧
      ∃ lead, 2 ≤ lead.length ∧ lead <+: found ∧ ∀ f ∈ lead, f ∈ fields := by
  obtain ⟨indices, hmem, hfind⟩ := List.exists_of_findSome?_eq_some h
  obtain ⟨k, hk, hindices⟩ := List.mem_flatMap.mp hmem
  obtain ⟨hlen, hlt⟩ := mem_combinationsFrom hindices
  obtain ⟨idx, -, rfl, hpre⟩ := findCompoundIndex_spec hfind
  have hk := List.mem_range'_1.mp (List.mem_reverse.mp hk)
  refine ⟨by omega, _, by rw [List.length_map, hlen]; exact hk.1, hpre, ?_⟩
  refine List.forall_mem_map.mpr fun i hi => ?_
  rw [List.getD_eq_getElem _ _ (hlt i hi)]
  exact List.getElem_mem _

/-- Every path but the compound one keeps all equalities or all but one. -/
theorem two_mul_le_score {fields : List String} {collection : String} {q : AccessPath Ω}
    (hq : q ∈ generateAccessPaths indexes collection (equalityParts indexes fields)) :
    q ∈ tryBuildCompoundIndex indexes collection (equalityParts indexes fields) ∨
      2 * fields.length ≤ q.score + 1 := by
  unfold generateAccessPaths at hq
  rw [List.mem_append, List.mem_append, List.mem_append] at hq
  rcases hq with ((htable | hindex) | hcompound) | hunion
  · -- the table scan alone costs 1000, and a filter on all equalities
    obtain rfl := List.mem_singleton.mp htable
    have hall : combinePartsToFilter (equalityParts indexes fields : List (PredicatePart Ω)) =
        combinePartsExceptMultiple (equalityParts indexes fields) [] := by
      unfold combinePartsToFilter combinePartsExceptMultiple
      rw [List.filter_eq_self.mpr (by simp)]
      conv_lhs => rw [← List.zipIdx_map_fst 0 (equalityParts indexes fields), List.map_map]
      rfl
    have hpenalty := @filterPenalty_equalityParts Ω indexes fields []
    rw [List.filter_eq_self.mpr (by simp), List.length_range] at hpenalty
    refine .inr ?_
    show _ ≤ 1000 + filterPenalty _ + 1
    rw [hall, hpenalty]
    omega
  · -- one index saves one equality and costs one
    obtain ⟨⟨part, i⟩, -, hpart⟩ := List.mem_filterMap.mp hindex
    split at hpart
    · next field op value original _ =>
      obtain ⟨lookup, hlookup, rfl⟩ := Option.map_eq_some_iff.mp hpart
      have hlen : fields.length - 1 ≤ ((List.range fields.length).filter (· ∉ [i])).length := by
        have herase := (List.nodup_range (n := fields.length)).erase_eq_filter i
        have hlen := List.le_length_erase (a := i) (l := List.range fields.length)
        rw [List.length_range, herase] at hlen
        refine hlen.trans_eq (congrArg List.length (List.filter_congr fun x _ => ?_))
        by_cases hx : x = i <;> simp [hx]
      have hone : 1 ≤ scoreLookup lookup := by
        cases op <;> cases value <;> cases hlookup <;> simp [scoreLookup]
        omega
      have hpenalty := @filterPenalty_equalityParts Ω indexes fields [i]
      refine .inr ?_
      show _ ≤ scoreLookup lookup + filterPenalty (combinePartsExceptMultiple _ [i]) + 1
      rw [hpenalty]
      omega
    · cases hpart
  · exact .inl (by simpa using hcompound)
  · -- and no part is a disjunction
    obtain ⟨⟨part, i⟩, hi, hpart⟩ := List.mem_filterMap.mp hunion
    obtain ⟨f, -, rfl⟩ := List.mem_map.mp (List.fst_mem_of_mem_zipIdx hi)
    rcases @classifyAtom_equalityOn Ω indexes f with h | h <;>
      simp [h] at hpart

/-- The compound path binds two fields at least, so that it costs nothing beyond its filter. -/
theorem compound_score {fields found : List String} {collection : String}
    (h : findCompoundFor indexes fields = some found) :
    ∃ best fieldValues,
      tryBuildCompoundIndex indexes collection
        (equalityParts indexes fields : List (PredicatePart Ω)) = some best ∧
      best.method = .indexScan ⟨collection, found⟩ (.compoundEq fieldValues) ∧
      fieldValues.map (·.1) = found.filter (· ∈ fields) ∧
      best.score + 2 ≤ 2 * fields.length := by
  obtain ⟨hfields, lead, hlead, hpre, hbound⟩ := findCompoundFor_spec h
  set parts : List (PredicatePart Ω) := equalityParts indexes fields with hparts
  set used := fillFields (eqConditions parts) found with hused
  have hfst : used.map (·.1) = found.filter (· ∈ fields) := by
    rw [hused, map_fst_fillFields, hparts, map_fst_eqConditions]
  have hlen : 2 ≤ used.length := by
    have hsub : lead <+: found.filter (· ∈ fields) := by
      obtain ⟨rest, rfl⟩ := hpre
      rw [List.filter_append, List.filter_eq_self.mpr (by simpa using hbound)]
      exact List.prefix_append _ _
    rw [← List.length_map (f := (·.1)), hfst]
    exact hlead.trans hsub.length_le
  refine ⟨.compoundIndexScan collection found (used.map fun c => (c.1, c.2.1))
    (combinePartsExceptMultiple parts (used.map (·.2.2))), _, ?_, rfl,
    by rw [List.map_map]; exact hfst, ?_⟩
  · have hconds : ¬ (eqConditions parts).length < 2 := by
      rw [hparts, eqConditions_equalityParts, List.length_map, List.length_zipIdx]
      omega
    unfold tryBuildCompoundIndex
    rw [if_neg hconds, hparts, map_fst_eqConditions, h]
    rfl
  · -- some equality is bound, so at most all but one are left
    have hbound : ∃ i ∈ List.range fields.length, ¬ decide (i ∉ used.map (·.2.2)) = true := by
      obtain ⟨c, hc⟩ := List.exists_mem_of_length_pos (l := used) (by omega)
      obtain ⟨f, -, hf⟩ := List.mem_filterMap.mp hc
      have hcond := List.mem_of_find?_eq_some hf
      rw [hparts, eqConditions_equalityParts] at hcond
      obtain ⟨⟨g, i⟩, hi, rfl⟩ := List.mem_map.mp hcond
      have hlt : i < fields.length := by simpa using List.snd_lt_of_mem_zipIdx hi
      refine ⟨i, List.mem_range.mpr hlt, ?_⟩
      simpa using ⟨_, _, hc⟩
    have hlt := List.length_filter_lt_length_iff_exists.mpr hbound
    rw [List.length_range] at hlt
    have hzero : 1 - used.length / 2 = 0 := by omega
    show 1 - (used.map _).length / 2 + filterPenalty _ + 2 ≤ _
    rw [List.length_map, hzero, hparts, filterPenalty_equalityParts]
    omega

/-- With at least two bound fields the compound path has the lowest score of all. -/
theorem selectBest_equalities {fields found : List String}
    (h : findCompoundFor indexes fields = some found) (collection : String) :
    ∃ fieldValues,
      (selectBest (generateAccessPaths indexes collection
        (equalityParts indexes fields : List (PredicatePart Ω)))).method =
          .indexScan ⟨collection, found⟩ (.compoundEq fieldValues) ∧
      fieldValues.map (·.1) = found.filter (· ∈ fields) := by
  obtain ⟨best, fieldValues, hbuild, hmethod, hfst, hscore⟩ :=
    @compound_score Ω indexes fields found collection h
  set paths := generateAccessPaths indexes collection
    (equalityParts indexes fields : List (PredicatePart Ω)) with hpaths
  have hmem : best ∈ paths := by
    rw [hpaths]
    unfold generateAccessPaths
    rw [hbuild]
    simp
  have hspec : selectBest paths ∈ paths ∧ ∀ q ∈ paths, (selectBest paths).score ≤ q.score :=
    selectBest_spec _ _
  have hle := hspec.2 best hmem
  rcases two_mul_le_score hspec.1 with hcompound | hcost
  · rw [hbuild, Option.mem_some_iff] at hcompound
    refine ⟨fieldValues, ?_, hfst⟩
    rw [← hmethod, hcompound]
  · omega

/-! ## Which index definitions serve every plan -/

/-- A plain `SELECT` with a filter. -/
def selectWhere [Inhabited Φ] (collection : String) (p : Expr Ω) : LogicalPlan Ω Φ :=
  .scan collection none (some p) ⟨default, none, none, none, false, false, none⟩

theorem extractSearchFromAnd_equalitiesOn (kind : SearchKind) (field : String)
    (fields : List String) :
    (extractSearchFromAnd kind (equalitiesOn field fields : Expr Ω)).1 = [] := by
  have hfold : ∀ (e : Expr Ω) (fs : List String), (extractSearchFromAnd kind e).1 = [] →
      (extractSearchFromAnd kind
        (fs.foldl (fun a f => .binaryOp a .and (equalityOn f)) e)).1 = [] := by
    intro e fs he
    induction fs generalizing e with
    | nil => exact he
    | cons f fs ih =>
      refine ih _ ?_
      show (extractSearchFromAnd kind e).1 ++ [] = []
      rw [he]
      rfl
  exact hfold _ fields rfl

theorem indexScans_selectWhere [Inhabited Φ] {opt : Optimizer} {collection field : String}
    {fields found : List String}
    (h : findCompoundFor (opt.indexes collection) (field :: fields) = some found) :
    ∃ fieldValues,
      (opt.optimize (selectWhere collection (equalitiesOn field fields) :
        LogicalPlan Ω Φ)).indexScans = [(collection, .compoundEq fieldValues)] ∧
      fieldValues.map (·.1) = found.filter (· ∈ field :: fields) := by
  obtain ⟨fieldValues, hmethod, hfst⟩ := selectBest_equalities (Ω := Ω) h collection
  refine ⟨fieldValues, ?_, hfst⟩
  have hsearch : ∀ kind, ∃ rem,
      extractSearchFromAnd kind (equalitiesOn field fields : Expr Ω) = ([], rem) := by
    intro kind
    exact ⟨_, Prod.ext (extractSearchFromAnd_equalitiesOn kind field fields) rfl⟩
  obtain ⟨knnRem, hknn⟩ := hsearch .knn
  obtain ⟨ftsRem, hfts⟩ := hsearch .fts
  have haccess : (opt.scanAccess collection (equalitiesOn field fields) none :
      PhysicalOp Ω Φ).indexScans = [(collection, .compoundEq fieldValues)] := by
    unfold Optimizer.scanAccess analyzeForKnn analyzeForFts
    rw [hknn, hfts]
    simp only [Optimizer.optimizePredicate, indexScans_withFilter, indexScans_toOp]
    rw [classifyAll_equalitiesOn, hmethod]
    rfl
  unfold selectWhere Optimizer.optimize
  simpa only [indexScans_applyOffsetAndLimit, indexScans_applyProjectionAndOrder] using haccess

theorem indexScans_aggregate [Inhabited Φ] {opt : Optimizer} {collection : String} {p : Expr Ω}
    {ref : IndexRef} {lookup : IndexLookup} {rem : Option (Expr Ω)}
    (hor : ∀ l r, p ≠ .binaryOp l .or r)
    (h : analyzeForIndex (opt.orders 0) (opt.indexes collection) collection p =
      .use ref lookup rem) :
    (opt.optimize (.aggregate collection (some p) default none :
      LogicalPlan Ω Φ)).indexScans = [(collection, lookup)] := by
  have hunion : analyzeOrForUnion opt.orders (opt.indexes collection) collection p = none := by
    unfold analyzeOrForUnion
    split
    · next l r => exact absurd rfl (hor l r)
    · rfl
  simp only [Optimizer.optimize, Optimizer.withProjection, PhysicalOp.indexScans,
    Optimizer.aggregateInput, hunion, h, indexScans_withFilter]

/-- Every index scan of every plan can be executed exactly if the index definitions of every
collection serve all scans the planner may ask for. -/
theorem plans_served_iff [External] [Inhabited Φ] (db : Database) (orders : Nat → HashOrder) :
    (∀ plan : LogicalPlan Ω Φ,
      ∀ s ∈ ((⟨db.indexes, orders⟩ : Optimizer).optimize plan).indexScans,
        db.Accepts s.1 s.2) ↔
      ∀ collection, EveryScanServed (db.indexes collection) := by
  refine ⟨fun hall collection => ⟨?_, ?_, ?_⟩, fun h plan s hs => ?_⟩
  · -- an aggregate with one equality
    intro idx hidx field hhead
    have hfound : ∃ found, findIndexForField (db.indexes collection) field = some found := by
      unfold findIndexForField
      refine Option.isSome_iff_exists.mp ?_
      rw [Option.isSome_map, List.find?_isSome]
      exact ⟨idx, hidx, by simpa using hhead⟩
    obtain ⟨found, hfound⟩ := hfound
    have huse : analyzeForIndex (orders 0) (db.indexes collection) collection
        (equalityOn field : Expr Ω) = .use ⟨collection, found⟩ (.eq field .null) none := by
      simp only [equalityOn, analyzeForIndex, analyzeSingleField, analyzeSimple, hfound,
        simpleLookup]
    have hscans := @indexScans_aggregate Ω Φ _ ⟨db.indexes, orders⟩ _ _ _ _ _
      (by intro l r h; cases h) huse
    have haccepts := hall _ (collection, .eq field .null) (by rw [hscans]; simp)
    exact leads_of_accepts (by intro f h; cases h) haccepts
  · -- an aggregate with the pair in front
    intro a b found hfound bound ha hb
    obtain ⟨ref, fieldValues, rem, huse, hfst⟩ :=
      analyzeForIndex_equalitiesOn (Ω := Ω) hfound (orders 0) collection bound
    obtain ⟨l, r, hlr⟩ := equalitiesOn_eq_and (Ω := Ω) a b bound
    have hscans := @indexScans_aggregate Ω Φ _ ⟨db.indexes, orders⟩ _ _ _ _ _
      (by rw [hlr]; intro l r h; cases h) huse
    have haccepts := hall _ (collection, .compoundEq fieldValues) (by rw [hscans]; simp)
    have hleads := leads_of_accepts (by intro f h; cases h) haccepts
    have hmem : ∀ f, f ∈ a :: b :: bound ↔ f ∈ bound := by
      intro f
      simp only [List.mem_cons]
      refine ⟨?_, fun h => .inr (.inr h)⟩
      rintro (rfl | rfl | h)
      exacts [ha, hb, h]
    show Leads _ _
    rw [IndexLookup.fields, hfst] at hleads
    simpa only [hmem] using hleads
  · -- a scan with the combination
    intro bound found hfound
    obtain ⟨hlen, -⟩ := findCompoundFor_spec hfound
    cases bound with
    | nil => simp at hlen
    | cons field fields =>
      obtain ⟨fieldValues, hscans, hfst⟩ := @indexScans_selectWhere Ω Φ _
        ⟨db.indexes, orders⟩ _ _ _ _ hfound
      have haccepts := hall _ (collection, .compoundEq fieldValues) (by rw [hscans]; simp)
      have hleads := leads_of_accepts (by intro f h; cases h) haccepts
      rwa [IndexLookup.fields, hfst] at hleads
  · exact accepts_of_leads (EveryScanServed.optimize h plan s hs)

end Served

/-! ## Plans over an items collection -/

namespace Plans

open Items

local instance : External := .standIn

/-- A full-text index alone. -/
def bodyIndex : IndexDef := ⟨"idx_items_fulltext_body", ["body"], false, .fullText⟩

/-- A compound index on four fields. -/
def wideIndex : IndexDef := ⟨"idx_items_btree_a_b_c_d", ["a", "b", "c", "d"], false, .btree⟩

def fieldIs (field : String) (n : Int64) : Expr Empty :=
  .binaryOp (.field field) .eq (.literal (.int n))

def planOver (indexes : List IndexDef) (p : Expr Empty) : PhysicalOp Empty Unit :=
  (⟨(fresh indexes).indexes, fun _ => .insertion⟩ : Optimizer).optimize (selectWhere "items" p)

/-- `body = 1` is planned on the full-text index, `a = 1 AND b = 2 AND d = 4` on the compound
index with the gap at `c` closed; neither scan finds an index. -/
theorem scans_not_served :
    (planOver [bodyIndex] (fieldIs "body" 1)).indexScans =
        [("items", .eq "body" (.int 1))] ∧
      ¬ (fresh [bodyIndex]).Accepts "items" (.eq "body" (.int 1)) ∧
    (planOver [wideIndex]
        (.binaryOp (.binaryOp (fieldIs "a" 1) .and (fieldIs "b" 2)) .and
          (fieldIs "d" 4))).indexScans =
        [("items", .compoundEq [("a", .int 1), ("b", .int 2), ("d", .int 4)])] ∧
      ¬ (fresh [wideIndex]).Accepts "items"
        (.compoundEq [("a", .int 1), ("b", .int 2), ("d", .int 4)]) := by
  refine ⟨rfl, ?_, rfl, ?_⟩
  · rintro ⟨r, h⟩
    cases h
  · rintro ⟨r, h⟩
    cases h

end Plans

end StellarDb
