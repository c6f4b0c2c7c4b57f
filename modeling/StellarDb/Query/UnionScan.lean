import StellarDb.Query.Aggregate
import StellarDb.Indexes.Threshold

/-!
# StellarDb — unions of index scans (`operators/union.rs`)

Both planners leave a union undeduplicated when its branches are equalities on one field with
distinct literals. The lookups compare encoded bytes, and distinct literals can share an encoding:
an integer and the double of the same value, a reference and the text of its id. A document whose
indexed value has this encoding is then found by both branches.

`unions_exact_iff`: a union yields each document that matches a branch exactly once, and no
document matches two branches of an undeduplicated one, if and only if no stored document's index
key starts with the encodings of two of the literals and each match is within reach of a scan.
-/

namespace StellarDb

open Keyspaces

/-! ## Planning and execution -/

section Unions

variable {Ω : Type}

/-- The unions planned for a predicate: by the access paths, or by the analysis behind
aggregates. -/
inductive UnionPlanned (indexes : List IndexDef) (orders : Nat → HashOrder) (collection : String)
    (p : Expr Ω) : List (IndexRef × IndexLookup) → Bool → Prop
  | path (path : AccessPath Ω) (branches : List (IndexRef × IndexLookup)) (needsDedup : Bool)
      (h : path ∈ generateAccessPaths indexes collection
        (classifyAll indexes (extractConjuncts p)))
      (hmethod : path.method = .union branches needsDedup) :
      UnionPlanned indexes orders collection p branches needsDedup
  | analysis (branches : List (IndexRef × IndexLookup))
      (h : analyzeOrForUnion orders indexes collection p = some branches) :
      UnionPlanned indexes orders collection p branches (computeNeedsDedup branches)

/-- `UnionOp` over the documents of its inputs. -/
def unionOp (needsDedup : Bool) (inputs : List (List Document)) : List Document :=
  if needsDedup then dedupById [] inputs.flatten else inputs.flatten

/-- The documents each branch has after `open`. -/
def Database.openBranches [External] (db : Database) (collection : String) :
    List (IndexRef × IndexLookup) → Except IndexLookupFailed (List (List Document))
  | [] => .ok []
  | b :: branches =>
    match indexScanOp db collection b.2 with
    | .error e => .error e
    | .ok (docs, _) => (db.openBranches collection branches).map (docs :: ·)

/-- The document matches the lookup in the index that the lookup walks. -/
def Database.Finds [External] (db : Database) (collection : String) (lookup : IndexLookup)
    (d : Document) : Prop :=
  db.Stored collection d ∧ ∃ index,
    Database.btreeLeadBy (db.indexes collection) lookup.fields = some index ∧
      lookup.Matches index d

/-- One of the scans that the lookup makes has the document among its first 1001 entries. -/
def Database.Reaches [External] (db : Database) (collection : String) (lookup : IndexLookup)
    (d : Document) : Prop :=
  ∃ index, Database.btreeLeadBy (db.indexes collection) lookup.fields = some index ∧
    ∃ entries ∈ scansMade indexResultThreshold 0
        (lookup.tests.map (db.entriesWhere collection index)),
      d.key ∈ entries.take (indexResultThreshold + 1)

/-! ## The decision -/

theorem tryBuildUnion_method {collection : String} {parts allParts : List (PredicatePart Ω)}
    {i : Nat} {path : AccessPath Ω} (h : tryBuildUnion collection parts allParts i = some path)
    {branches : List (IndexRef × IndexLookup)} {needsDedup : Bool}
    (hmethod : path.method = .union branches needsDedup) :
    needsDedup = computeUnionNeedsDedup branches := by
  obtain ⟨lookups, -, rfl⟩ := Option.map_eq_some_iff.mp h
  cases hmethod
  rfl

/-- Every planned union has the one check behind its flag. -/
theorem UnionPlanned.needsDedup_eq {indexes : List IndexDef} {orders : Nat → HashOrder}
    {collection : String} {p : Expr Ω} {branches : List (IndexRef × IndexLookup)}
    {needsDedup : Bool} (h : UnionPlanned indexes orders collection p branches needsDedup) :
    needsDedup = computeUnionNeedsDedup branches := by
  cases h with
  | analysis branches h => rfl
  | path path branches needsDedup h hmethod =>
    simp only [generateAccessPaths, List.mem_append, List.mem_singleton, List.mem_filterMap,
      Option.mem_toList] at h
    rcases h with ((rfl | ⟨part, -, hpart⟩) | hpath) | ⟨part, -, hpart⟩
    · cases hmethod
    · -- an index scan is no union
      split at hpart
      · obtain ⟨lookup, -, rfl⟩ := Option.map_eq_some_iff.mp hpart
        cases hmethod
      · cases hpart
    · unfold tryBuildCompoundIndex at hpath
      dsimp only at hpath
      split at hpath
      · cases hpath
      · obtain ⟨found, -, rfl⟩ := Option.map_eq_some_iff.mp hpath
        cases hmethod
    · split at hpart
      · exact tryBuildUnion_method hpart hmethod
      · cases hpart

/-- Only equalities on one field with distinct literals, or a single branch, go without
deduplication. -/
theorem computeUnionNeedsDedup_eq_false {branches : List (IndexRef × IndexLookup)}
    (h : computeUnionNeedsDedup branches = false) :
    branches.length < 2 ∨ ∃ (field : String) (values : List Value),
      branches.map (·.2) = values.map (.eq field) ∧
      values.Pairwise fun v w => v.beq w = false := by
  match branches, h with
  | [], _ => exact Or.inl (by decide)
  | [_], _ => exact Or.inl Nat.one_lt_two
  | b :: b' :: rest, h =>
    right
    have hdef : computeUnionNeedsDedup (b :: b' :: rest) =
        if (b :: b' :: rest).all fun x => decide (x.2.field = b.2.field) then
          dedupLoop [] ((b :: b' :: rest).map (·.2))
        else true := rfl
    rw [hdef] at h
    split at h
    · next hall =>
      obtain ⟨fieldValues, hmap, -, hapart⟩ := (dedupLoop_eq_false _ _).mp h
      refine ⟨b.2.field, fieldValues.map (·.2), ?_, List.pairwise_map.mpr hapart⟩
      rw [hmap, List.map_map]
      refine List.map_congr_left fun fv hfv => ?_
      have hmem : IndexLookup.eq fv.1 fv.2 ∈ (b :: b' :: rest).map (·.2) := by
        rw [hmap]
        exact List.mem_map_of_mem hfv
      obtain ⟨x, hx, hxe⟩ := List.mem_map.mp hmem
      have hfield := of_decide_eq_true (List.all_eq_true.mp hall x hx)
      rw [hxe] at hfield
      show IndexLookup.eq fv.1 fv.2 = .eq b.2.field fv.2
      rw [← hfield]
      rfl
    · cases h

/-- Distinct equalities on one field go without deduplication. -/
theorem computeUnionNeedsDedup_of_distinct {branches : List (IndexRef × IndexLookup)}
    {field : String} {values : List Value} (hmap : branches.map (·.2) = values.map (.eq field))
    (hapart : values.Pairwise fun v w => v.beq w = false) :
    computeUnionNeedsDedup branches = false := by
  have hfield : ∀ b ∈ branches, b.2.field = field := by
    intro b hb
    have hmem : b.2 ∈ values.map (.eq field) := hmap ▸ List.mem_map_of_mem hb
    obtain ⟨v, -, hv⟩ := List.mem_map.mp hmem
    rw [← hv]
    rfl
  match branches, hmap, hfield with
  | [], _, _ => rfl
  | [_], _, _ => rfl
  | b :: b' :: rest, hmap, hfield =>
    show (if (b :: b' :: rest).all fun x => decide (x.2.field = b.2.field) then
      dedupLoop [] ((b :: b' :: rest).map (·.2)) else true) = false
    have hall : ((b :: b' :: rest).all fun x => decide (x.2.field = b.2.field)) = true := by
      refine List.all_eq_true.mpr fun x hx => decide_eq_true ?_
      rw [hfield x hx, hfield b List.mem_cons_self]
    rw [if_pos hall, hmap]
    refine (dedupLoop_eq_false _ _).mpr ⟨values.map fun v => (field, v), ?_, ?_, ?_⟩
    · rw [List.map_map]
      rfl
    · intro fv _ v hv
      exact absurd hv List.not_mem_nil
    · exact List.pairwise_map.mpr hapart

end Unions

/-! ## What the branches find -/

section Found

variable [External] {db : Database} {collection : String}

/-- A branch finds the documents it reaches, each once. -/
theorem indexScanOp_reaches (hdb : db.IndexExact) {lookup : IndexLookup}
    {r : List Document × Bool} (h : indexScanOp db collection lookup = .ok r) :
    r.1.Nodup ∧ ∀ d, d ∈ r.1 ↔ db.Stored collection d ∧ db.Reaches collection lookup d := by
  cases hlead : Database.btreeLeadBy (db.indexes collection) lookup.fields with
  | some index =>
    obtain ⟨ids, exceeded, hop, hnodup, hids⟩ := indexScanOp_docs hdb hlead
    obtain rfl := Except.ok.inj (hop.symm.trans h)
    refine ⟨getDocumentsByIds_nodup hnodup, fun d => ?_⟩
    rw [mem_getDocumentsByIds, hids d.key]
    simp [Database.Reaches, hlead]
  | none =>
    have hnone : ¬ ∃ d, db.Reaches collection lookup d := by
      rintro ⟨d, index, hindex, -⟩
      exact absurd (hlead.symm.trans hindex) nofun
    -- without an index only an `IN` over nothing runs
    by_cases hin : ∃ field, lookup = .in field []
    · obtain ⟨field, rfl⟩ := hin
      obtain rfl := Except.ok.inj h
      refine ⟨by simp [Database.getDocumentsByIds], fun d => ?_⟩
      refine iff_of_false (by simp [Database.getDocumentsByIds]) fun hd => hnone ⟨d, hd.2⟩
    · have hleads := leads_of_accepts (fun field heq => hin ⟨field, heq⟩) ⟨r, h⟩
      rw [← btreeLeadBy_isSome, hlead] at hleads
      cases hleads

/-- What is reached matches. -/
theorem finds_of_reaches (hdb : db.IndexExact) {lookup : IndexLookup} {d : Document}
    (hd : db.Stored collection d) (h : db.Reaches collection lookup d) :
    db.Finds collection lookup d := by
  obtain ⟨index, hlead, entries, hentries, hkey⟩ := h
  obtain ⟨hindex, hbtree, -⟩ := Database.of_btreeLeadBy hlead
  obtain ⟨test, htest, rfl⟩ := List.mem_map.mp (scansMade_subset _ _ _ entries hentries)
  refine ⟨hd, index, hlead, test, htest, ?_⟩
  exact (Database.key_mem_entriesWhere hdb hindex hbtree hd).mp (List.mem_of_mem_take hkey)

omit [External] in
theorem dedupById_sublist (seen : List String) (ds : List Document) :
    (dedupById seen ds).Sublist ds := by
  induction ds generalizing seen with
  | nil => exact .slnil
  | cons d ds ih =>
    rw [dedupById]
    split
    · exact (ih seen).cons d
    · exact (ih _).cons_cons d

omit [External] in
/-- Deduplication keeps the first of the documents with one id, and stored documents with one id
are the same. -/
theorem dedupById_stored {ds : List Document} (h : ∀ d ∈ ds, db.Stored collection d) :
    ∀ d ∈ ds, d ∈ dedupById [] ds := by
  intro d hd
  obtain ⟨-, hsub, hcov⟩ := dedupById_spec [] ds
  obtain ⟨d', hd', hid⟩ := hcov d hd List.not_mem_nil
  have hkey : d'.key = d.key := by
    unfold Document.key
    rw [hid]
  rwa [← (h d' (hsub d' hd').1).unique (h d hd) hkey]

end Found

/-! ## Each document once -/

section Exact

variable {Ω : Type} [External] {db : Database} {collection : String}
  {branches : List (IndexRef × IndexLookup)}

/-- No document matches two branches. -/
def Apart (db : Database) (collection : String) (branches : List (IndexRef × IndexLookup)) : Prop :=
  branches.Pairwise fun b b' => ∀ d,
    ¬ (db.Finds collection b.2 d ∧ db.Finds collection b'.2 d)

/-- No index key of a stored document starts with the encodings of two of the literals. -/
def LiteralsApart (db : Database) (collection field : String) (values : List Value) : Prop :=
  ∀ index, Database.btreeLeadBy (db.indexes collection) [field] = some index →
    values.Pairwise fun v w => ∀ d key, db.Stored collection d →
      buildIndexKey d index.fields = some key →
        ¬ (encodeValueOrdered v <+: key ∧ encodeValueOrdered w <+: key)

theorem finds_eq_iff {field : String} {index : IndexDef}
    (hlead : Database.btreeLeadBy (db.indexes collection) [field] = some index) (d : Document)
    (value : Value) :
    db.Finds collection (.eq field value) d ↔ db.Stored collection d ∧
      ∃ key, buildIndexKey d index.fields = some key ∧ encodeValueOrdered value <+: key := by
  have hfront : encodeIndexPrefix [value] = encodeValueOrdered value := by
    simp [encodeIndexPrefix]
  have htests : IndexLookup.tests (.eq field value) =
      [BTreeIndex.withPrefix (encodeValueOrdered value)] := by
    rw [← hfront]
    rfl
  unfold Database.Finds IndexLookup.Matches
  rw [htests]
  show _ ∧ (∃ i, Database.btreeLeadBy (db.indexes collection) [field] = some i ∧ _) ↔ _
  rw [hlead]
  simp [Database.EntryPasses, BTreeIndex.withPrefix, List.isPrefixOf_iff_prefix]

theorem apart_iff {field : String} {values : List Value}
    (hmap : branches.map (·.2) = values.map (.eq field)) :
    Apart db collection branches ↔ LiteralsApart db collection field values := by
  have hlookups : Apart db collection branches ↔ values.Pairwise fun v w => ∀ d,
      ¬ (db.Finds collection (.eq field v) d ∧ db.Finds collection (.eq field w) d) := by
    unfold Apart
    rw [← List.pairwise_map (f := fun b : IndexRef × IndexLookup => b.2)
      (R := fun l l' => ∀ d, ¬ (db.Finds collection l d ∧ db.Finds collection l' d)),
      hmap, List.pairwise_map]
  rw [hlookups]
  unfold LiteralsApart
  cases hlead : Database.btreeLeadBy (db.indexes collection) [field] with
  | none =>
    -- without an index nothing matches
    refine iff_of_true (List.pairwise_of_forall fun v w d hboth => ?_) (fun index h => nomatch h)
    obtain ⟨⟨-, index, hindex, -⟩, -⟩ := hboth
    exact absurd (hlead.symm.trans hindex) nofun
  | some index =>
    simp only [Option.some.injEq, forall_eq']
    refine List.pairwise_iff_forall_sublist.trans (Iff.trans ?_ List.pairwise_iff_forall_sublist.symm)
    refine forall_congr' fun v => forall_congr' fun w => imp_congr_right fun _ => ?_
    constructor
    · intro h d key hd hkey hboth
      exact h d ⟨(finds_eq_iff hlead d v).mpr ⟨hd, key, hkey, hboth.1⟩,
        (finds_eq_iff hlead d w).mpr ⟨hd, key, hkey, hboth.2⟩⟩
    · rintro h d ⟨hv, hw⟩
      obtain ⟨hd, key, hkey, hvkey⟩ := (finds_eq_iff hlead d v).mp hv
      obtain ⟨-, key', hkey', hwkey⟩ := (finds_eq_iff hlead d w).mp hw
      obtain rfl : key = key' := Option.some.inj (hkey.symm.trans hkey')
      exact h d key hd hkey ⟨hvkey, hwkey⟩

/-- The documents of the inputs are those that a branch reaches. -/
theorem mem_openBranches (hdb : db.IndexExact) {inputs : List (List Document)}
    (h : db.openBranches collection branches = .ok inputs) (d : Document) :
    d ∈ inputs.flatten ↔ ∃ b ∈ branches, db.Stored collection d ∧ db.Reaches collection b.2 d := by
  induction branches generalizing inputs with
  | nil =>
    obtain rfl := Except.ok.inj h
    simp
  | cons b branches ih =>
    rw [Database.openBranches] at h
    split at h
    · cases h
    · next docs exceeded hb =>
      cases hrest : db.openBranches collection branches with
      | error e => rw [hrest] at h; cases h
      | ok rest =>
        rw [hrest] at h
        obtain rfl := Except.ok.inj h
        rw [List.exists_mem_cons_iff, ← ih hrest, ← (indexScanOp_reaches hdb hb).2 d]
        exact List.mem_append

/-- Branches that no document matches together find different documents. -/
theorem nodup_of_apart (hdb : db.IndexExact) (hapart : Apart db collection branches)
    {inputs : List (List Document)} (h : db.openBranches collection branches = .ok inputs) :
    inputs.flatten.Nodup := by
  induction branches generalizing inputs with
  | nil =>
    obtain rfl := Except.ok.inj h
    exact List.nodup_nil
  | cons b branches ih =>
    obtain ⟨hhead, htail⟩ := List.pairwise_cons.mp hapart
    rw [Database.openBranches] at h
    split at h
    · cases h
    · next docs exceeded hb =>
      cases hrest : db.openBranches collection branches with
      | error e => rw [hrest] at h; cases h
      | ok rest =>
        rw [hrest] at h
        obtain rfl := Except.ok.inj h
        obtain ⟨hnodup, hfound⟩ := indexScanOp_reaches hdb hb
        refine List.nodup_append.mpr ⟨hnodup, ih htail hrest, ?_⟩
        rintro d hd _ hd' rfl
        obtain ⟨hstored, hreached⟩ := (hfound d).mp hd
        obtain ⟨b', hb', -, hreached'⟩ := (mem_openBranches hdb hrest d).mp hd'
        exact hhead b' hb' d ⟨finds_of_reaches hdb hstored hreached,
          finds_of_reaches hdb hstored hreached'⟩

/-- What a union is to be: without deduplication no document matches two branches, with it only
repetitions are removed, and every matching document is yielded once. -/
structure UnionOnce (db : Database) (collection : String) (branches : List (IndexRef × IndexLookup))
    (needsDedup : Bool) (inputs : List (List Document)) : Prop where
  apart : needsDedup = false → Apart db collection branches
  onlyRepetitions : (unionOp needsDedup inputs).Sublist inputs.flatten ∧
    ∀ d ∈ inputs.flatten, d ∈ unionOp needsDedup inputs
  once : ((unionOp needsDedup inputs).map (·.id)).Nodup
  complete : ∀ d, d ∈ unionOp needsDedup inputs ↔ ∃ b ∈ branches, db.Finds collection b.2 d

omit [External] in
theorem ids_nodup_of_stored {ds : List Document} (h : ∀ d ∈ ds, db.Stored collection d)
    (hnodup : ds.Nodup) : (ds.map (·.id)).Nodup := by
  refine List.pairwise_map.mpr (hnodup.imp_of_mem ?_)
  intro d d' hd hd' hne hid
  apply hne
  refine (h d hd).unique (h d' hd') ?_
  unfold Document.key
  rw [hid]

/-- Every matching document is within reach of a branch that runs, and the literals of a union of
distinct equalities on one field do not meet in an index key: then, and only then, a planned
union is right. -/
theorem unions_exact_iff (hdb : db.IndexExact) {orders : Nat → HashOrder} {p : Expr Ω}
    {needsDedup : Bool}
    (hplan : UnionPlanned (db.indexes collection) orders collection p branches needsDedup)
    {inputs : List (List Document)} (hopen : db.openBranches collection branches = .ok inputs) :
    UnionOnce db collection branches needsDedup inputs ↔
      (∀ b ∈ branches, ∀ d, db.Finds collection b.2 d →
        ∃ b' ∈ branches, db.Reaches collection b'.2 d) ∧
      ∀ field values, branches.map (·.2) = values.map (.eq field) →
        (values.Pairwise fun v w => v.beq w = false) →
          LiteralsApart db collection field values := by
  have hflag := hplan.needsDedup_eq
  have hmem := mem_openBranches hdb hopen
  have hstored : ∀ d ∈ inputs.flatten, db.Stored collection d := by
    intro d hd
    obtain ⟨-, -, hstored, -⟩ := (hmem d).mp hd
    exact hstored
  constructor
  · intro h
    refine ⟨fun b hb d hd => ?_, fun field values hmap hdistinct => ?_⟩
    · have hyielded := (h.complete d).mpr ⟨b, hb, hd⟩
      obtain ⟨b', hb', -, hreached⟩ := (hmem d).mp (h.onlyRepetitions.1.subset hyielded)
      exact ⟨b', hb', hreached⟩
    · rw [computeUnionNeedsDedup_of_distinct hmap hdistinct] at hflag
      exact (apart_iff hmap).mp (h.apart hflag)
  · rintro ⟨hreach, hliterals⟩
    have hapart : needsDedup = false → Apart db collection branches := by
      intro hfalse
      rcases computeUnionNeedsDedup_eq_false (hflag.symm.trans hfalse) with
        hlen | ⟨field, values, hmap, hdistinct⟩
      · exact List.pairwise_iff_getElem.mpr fun i j hi hj hij => by omega
      · exact (apart_iff hmap).mpr (hliterals field values hmap hdistinct)
    have hkept : (unionOp needsDedup inputs).Sublist inputs.flatten ∧
        (∀ d ∈ inputs.flatten, d ∈ unionOp needsDedup inputs) ∧
        ((unionOp needsDedup inputs).map (·.id)).Nodup := by
      cases hdedup : needsDedup with
      | true =>
        exact ⟨dedupById_sublist [] inputs.flatten, dedupById_stored hstored,
          (dedupById_spec [] inputs.flatten).1⟩
      | false =>
        have hnodup := nodup_of_apart hdb (hapart hdedup) hopen
        exact ⟨List.Sublist.refl _, fun d hd => hd, ids_nodup_of_stored hstored hnodup⟩
    refine ⟨hapart, ⟨hkept.1, hkept.2.1⟩, hkept.2.2, fun d => ?_⟩
    constructor
    · intro hd
      obtain ⟨b, hb, hst, hreached⟩ := (hmem d).mp (hkept.1.subset hd)
      exact ⟨b, hb, finds_of_reaches hdb hst hreached⟩
    · rintro ⟨b, hb, hfound⟩
      obtain ⟨b', hb', hreached⟩ := hreach b hb d hfound
      exact hkept.2.1 d ((hmem d).mpr ⟨b', hb', hfound.1, hreached⟩)

end Exact

/-! ## Owners of an item -/

namespace Owners

open Stock

local instance : External := .standIn

def byOwner : IndexDef := ⟨"idx_items_btree_owner", ["owner"], false, .btree⟩

/-- An item that refers to its owner. -/
def owned : Document where
  id := "items:1"
  fields := [("owner", .reference "users:a")]
  wf := by decide

def items : Database := stock [byOwner] owned

def ownerIs (v : Value) : Expr Empty := .binaryOp (.field "owner") .eq (.literal v)

def either (v w : Value) : Expr Empty := .binaryOp (ownerIs v) .or (ownerIs w)

def branchesOf (v w : Value) : List (IndexRef × IndexLookup) :=
  [(⟨"items", ["owner"]⟩, .eq "owner" v), (⟨"items", ["owner"]⟩, .eq "owner" w)]

theorem either_planned (v w : Value) :
    UnionPlanned (items.indexes "items") (fun _ => .insertion) "items" (either v w)
      (branchesOf v w) (computeNeedsDedup (branchesOf v w)) :=
  .analysis (branchesOf v w) rfl

theorem two_owners_once : ∃ inputs, items.openBranches "items"
      (branchesOf (.reference "users:a") (.reference "users:b")) = .ok inputs ∧
    (UnionOnce items "items" (branchesOf (.reference "users:a") (.reference "users:b"))
      (computeNeedsDedup (branchesOf (.reference "users:a") (.reference "users:b"))) inputs ↔
      (∀ b ∈ branchesOf (.reference "users:a") (.reference "users:b"), ∀ d,
        items.Finds "items" b.2 d →
          ∃ b' ∈ branchesOf (.reference "users:a") (.reference "users:b"),
            items.Reaches "items" b'.2 d) ∧
      ∀ field values,
        (branchesOf (.reference "users:a") (.reference "users:b")).map (·.2) =
            values.map (.eq field) →
          (values.Pairwise fun v w => v.beq w = false) →
            LiteralsApart items "items" field values) := by
  cases hopen : items.openBranches "items"
      (branchesOf (.reference "users:a") (.reference "users:b")) with
  | error e =>
    have hok : (items.openBranches "items"
        (branchesOf (.reference "users:a") (.reference "users:b"))).isOk = true := by
      decide +kernel
    rw [hopen] at hok
    cases hok
  | ok inputs =>
    exact ⟨inputs, rfl, unions_exact_iff (stock_indexExact (by decide) owned)
      (either_planned _ _) hopen⟩

/-- The reference and the text of its id are distinct literals with one encoding: the union is
not deduplicated and yields the item twice. -/
theorem reference_and_text_twice : items.IndexExact ∧
    UnionPlanned (items.indexes "items") (fun _ => .insertion) "items"
      (either (.reference "users:a") (.string "users:a"))
      (branchesOf (.reference "users:a") (.string "users:a")) false ∧
    ∃ inputs, items.openBranches "items"
        (branchesOf (.reference "users:a") (.string "users:a")) = .ok inputs ∧
      (unionOp false inputs).map (·.id) = ["items:1", "items:1"] := by
  refine ⟨stock_indexExact (by decide) owned, either_planned _ _, ?_⟩
  have hrows : (items.openBranches "items"
      (branchesOf (.reference "users:a") (.string "users:a"))).map
        (fun inputs => (unionOp false inputs).map (·.id)) = .ok ["items:1", "items:1"] := by
    decide +kernel
  cases hopen : items.openBranches "items"
      (branchesOf (.reference "users:a") (.string "users:a")) with
  | error e => rw [hopen] at hrows; cases hrows
  | ok inputs =>
    rw [hopen] at hrows
    exact ⟨inputs, rfl, Except.ok.inj hrows⟩

end Owners

end StellarDb
