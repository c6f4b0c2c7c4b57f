import StellarDb.Lib.Entries
import StellarDb.Lib.Ranking
import StellarDb.Query.Temporal

/-!
# StellarDb — reciprocal rank fusion (`function/definitions.rs`, `search::rrf`)

The function walks several result lists, adds `1 / (k + position)` to the score of every id it
meets, sorts the ids by score and keeps the first `limit`. Scores are rational numbers here, so a
result item keeps its `_rrf_score` beside its other fields.

The scores are those of the definition whatever the lists repeat (`lookup_scores`), and the result
is a ranking of the ids (`rrf_ranks`). But the ids come out of a hash map before the stable sort:
where two of them tie within the limit, its iteration order decides which comes first or is kept.
-/

namespace StellarDb

open Entries

namespace RankFusion

/-! ## The function -/

/-- An object of the result: its fields but for `_rrf_score`, and that. -/
structure FusedDoc where
  fields : List (String × Value)
  rrfScore : ℚ

/-- `map.insert("_rrf_score", score)` -/
def FusedDoc.ofFields (fields : List (String × Value)) (score : ℚ) : FusedDoc :=
  ⟨eraseEntry fields "_rrf_score", score⟩

/-- The fields of any item of the list. -/
def listFields (items : List Value) : List String :=
  items.flatMap fun item =>
    match item with
    | .object map => map.map Prod.fst
    | _ => []

/-- One list in the first pass: lists without fields are passed over. -/
def narrow (commonFields : Option (List String)) (list : Value) : Option (List String) :=
  match list with
  | .array items =>
    let fields := listFields items
    if fields.isEmpty then commonFields
    else
      match commonFields with
      | none => some fields
      | some existing => some (existing.filter (fields.contains ·))
  | _ => commonFields

/-- The fields that every list has. -/
def commonFields (lists : List Value) : List String := (lists.foldl narrow none).getD []

/-- The id of an item, a string or a reference. -/
def itemId (map : List (String × Value)) : Option String :=
  match map.lookup "id" with
  | some (.string s) => some s
  | some (.reference s) => some s
  | _ => none

/-- What the second pass has collected: the score and the fields of each id. -/
structure Fusion where
  scores : List (String × ℚ)
  docs : List (String × List (String × Value))

namespace Fusion

def empty : Fusion := ⟨[], []⟩

/-- `*scores.entry(id).or_insert(0.0) += contribution` and `docs.entry(id).or_insert_with(..)`: the
first occurrence of an id gives the fields. -/
def add (fusion : Fusion) (id : String) (contribution : ℚ) (fields : List (String × Value)) :
    Fusion where
  scores := insertEntry fusion.scores id ((fusion.scores.lookup id).getD 0 + contribution)
  docs :=
    match fusion.docs.lookup id with
    | some _ => fusion.docs
    | none => insertEntry fusion.docs id fields

/-- An item at a rank; items without an id are passed over. -/
def addItem (common : List String) (k : ℚ) (fusion : Fusion) (ranked : Value × Nat) : Fusion :=
  match ranked.1 with
  | .object map =>
    match itemId map with
    | some id =>
      fusion.add id (1 / (k + (ranked.2 + 1 : Nat))) (map.filter fun e => common.contains e.1)
    | none => fusion
  | _ => fusion

def addList (common : List String) (k : ℚ) (fusion : Fusion) (list : Value) : Fusion :=
  match list with
  | .array items => items.zipIdx.foldl (addItem common k) fusion
  | _ => fusion

end Fusion

/-- The second pass. -/
def fuse (lists : List Value) (k : ℚ) : Fusion :=
  lists.foldl (Fusion.addList (commonFields lists) k) .empty

def arityMismatch (args : List Value) : ExecuteError :=
  .other ("Function search::rrf expects 2-3 argument(s), got " ++ toString args.length)

/-- `search::rrf(lists, limit, k?)` -/
def rrf (order : IterOrder) (args : List Value) : Except ExecuteError (List FusedDoc) :=
  match args with
  | lists :: limit :: rest =>
    if 3 < args.length then .error (arityMismatch args)
    else
      match lists with
      | .array lists =>
        match limit with
        | .int n =>
          let k : ℚ := match rest with
            | .int k :: _ => k.toInt
            | .float f :: _ => f.toRat
            | _ => 60
          let fusion := fuse lists k
          let sorted := Ranking.rank Prod.snd (order.iter fusion.scores)
          .ok ((sorted.take n.toUInt64.toNat).filterMap fun e =>
            (fusion.docs.lookup e.1).map fun fields => .ofFields fields e.2)
        | limit => .error (.typeError "Int" (valueTypeName limit) "search::rrf limit")
      | lists =>
        .error (.typeError "Array of arrays" (valueTypeName lists) "search::rrf first argument")
  | args => .error (arityMismatch args)

/-! ## What the lists say -/

/-- An object with an id, as search results are. -/
structure ListedHit where
  entries : List (String × Value)
  nodup : (entries.map Prod.fst).Nodup
  id : String
  itemId_entries : itemId entries = some id

/-- The arguments of a call. -/
def rrfArgs (lists : List (List ListedHit)) (n k : Int64) : List Value :=
  [.array (lists.map fun l => .array (l.map fun hit => .object hit.entries)), .int n, .int k]

/-- Every hit of every list with its rank, from zero. -/
def occurrences (lists : List (List ListedHit)) : List (ListedHit × Nat) :=
  lists.flatMap List.zipIdx

/-- `1 / (k + position)` -/
def contribution (k : ℚ) (occ : ListedHit × Nat) : ℚ := 1 / (k + (occ.2 + 1 : Nat))

/-- The sum over all occurrences of an id. -/
def rrfScore (k : ℚ) (occs : List (ListedHit × Nat)) (id : String) : ℚ :=
  ((occs.filter (·.1.id = id)).map (contribution k)).sum

/-- The distinct ids. -/
def listedIds (lists : List (List ListedHit)) : List String :=
  ((occurrences lists).map (·.1.id)).dedup

/-- The result holds the `n` ids of the highest scores, each once and with its score, the highest
first. -/
structure Ranks (lists : List (List ListedHit)) (n : Nat) (k : ℚ) (result : List FusedDoc) :
    Prop where
  /-- every object has one of the ids and its exact score -/
  exact : ∀ doc ∈ result, ∃ id ∈ listedIds lists, itemId doc.fields = some id ∧
    doc.rrfScore = rrfScore k (occurrences lists) id
  distinct : (result.map (itemId ·.fields)).Nodup
  count : result.length = min n (listedIds lists).length
  descending : result.Pairwise fun a b => b.rrfScore ≤ a.rrfScore
  /-- what is left out has no higher score -/
  highest : ∀ id ∈ listedIds lists, (∀ doc ∈ result, itemId doc.fields ≠ some id) →
    ∀ doc ∈ result, rrfScore k (occurrences lists) id ≤ doc.rrfScore

/-! ## The second pass -/

section Pass

variable (common : List String) (k : ℚ)

/-- An occurrence of a hit. -/
def addOccurrence (fusion : Fusion) (occ : ListedHit × Nat) : Fusion :=
  fusion.add occ.1.id (contribution k occ) (occ.1.entries.filter fun e => common.contains e.1)

theorem addItem_hit (fusion : Fusion) (hit : ListedHit) (rank : Nat) :
    fusion.addItem common k (.object hit.entries, rank)
      = addOccurrence common k fusion (hit, rank) := by
  show (match itemId hit.entries with
    | some id => _
    | none => fusion) = _
  rw [hit.itemId_entries]
  rfl

theorem addList_hits (fusion : Fusion) (l : List ListedHit) :
    fusion.addList common k (.array (l.map fun hit => .object hit.entries))
      = l.zipIdx.foldl (addOccurrence common k) fusion := by
  show (l.map fun hit => Value.object hit.entries).zipIdx.foldl _ fusion = _
  rw [List.zipIdx_map, List.foldl_map]
  congr 1
  funext fusion occ
  exact addItem_hit common k fusion occ.1 occ.2

theorem foldl_addList (lists : List (List ListedHit)) (fusion : Fusion) :
    (lists.map fun l => Value.array (l.map fun hit => .object hit.entries)).foldl
        (Fusion.addList common k) fusion
      = (occurrences lists).foldl (addOccurrence common k) fusion := by
  induction lists generalizing fusion with
  | nil => rfl
  | cons l lists ih =>
    rw [List.map_cons, List.foldl_cons, addList_hits, ih, ← List.foldl_append]
    rfl

/-- The score of an id grows by all its occurrences. -/
theorem lookup_scores (occs : List (ListedHit × Nat)) (fusion : Fusion) (id : String) :
    ((occs.foldl (addOccurrence common k) fusion).scores.lookup id) =
      if id ∈ occs.map (·.1.id) then
        some ((fusion.scores.lookup id).getD 0 + rrfScore k occs id)
      else fusion.scores.lookup id := by
  induction occs generalizing fusion with
  | nil => rfl
  | cons occ occs ih =>
    have hadd : (addOccurrence common k fusion occ).scores.lookup id
        = if occ.1.id = id then
            some ((fusion.scores.lookup occ.1.id).getD 0 + contribution k occ)
          else fusion.scores.lookup id := lookup_insertEntry _ _ _ _
    rw [List.foldl_cons, ih, hadd, List.map_cons]
    by_cases hid : occ.1.id = id
    · have hscore : rrfScore k (occ :: occs) id = contribution k occ + rrfScore k occs id := by
        unfold rrfScore
        rw [List.filter_cons_of_pos (by simpa using hid), List.map_cons, List.sum_cons]
      rw [if_pos hid, hid, if_pos List.mem_cons_self, hscore]
      by_cases hmem : id ∈ occs.map (·.1.id)
      · rw [if_pos hmem, Option.getD_some, add_assoc]
      · have hzero : rrfScore k occs id = 0 := by
          unfold rrfScore
          rw [List.filter_eq_nil_iff.mpr fun o ho heq => hmem
            (List.mem_map.mpr ⟨o, ho, of_decide_eq_true heq⟩)]
          rfl
        rw [if_neg hmem, hzero, add_zero]
    · have hscore : rrfScore k (occ :: occs) id = rrfScore k occs id := by
        unfold rrfScore
        rw [List.filter_cons_of_neg (by simpa using hid)]
      rw [if_neg hid, hscore]
      simp only [List.mem_cons, Ne.symm hid, false_or]

theorem nodup_scores (occs : List (ListedHit × Nat)) (fusion : Fusion)
    (h : (fusion.scores.map Prod.fst).Nodup) :
    ((occs.foldl (addOccurrence common k) fusion).scores.map Prod.fst).Nodup := by
  induction occs generalizing fusion with
  | nil => exact h
  | cons occ occs ih => exact ih _ (nodup_insertEntry h _ _)

/-- The first occurrence of an id gives its fields for good. -/
theorem lookup_docs_of_some (occs : List (ListedHit × Nat)) (fusion : Fusion) {id : String}
    {fields : List (String × Value)} (h : fusion.docs.lookup id = some fields) :
    (occs.foldl (addOccurrence common k) fusion).docs.lookup id = some fields := by
  induction occs generalizing fusion with
  | nil => exact h
  | cons occ occs ih =>
    apply ih
    show (match fusion.docs.lookup occ.1.id with
      | some _ => fusion.docs
      | none => insertEntry fusion.docs occ.1.id _).lookup id = some fields
    split
    · exact h
    · next hnone =>
      have hne : occ.1.id ≠ id := fun heq => by
        rw [heq, h] at hnone
        cases hnone
      rw [lookup_insertEntry, if_neg hne, h]

theorem lookup_docs (occs : List (ListedHit × Nat)) (fusion : Fusion) {id : String}
    (h : fusion.docs.lookup id = none) (hmem : id ∈ occs.map (·.1.id)) :
    ∃ hit : ListedHit, hit.id = id ∧
      (occs.foldl (addOccurrence common k) fusion).docs.lookup id
        = some (hit.entries.filter fun e => common.contains e.1) := by
  induction occs generalizing fusion with
  | nil => cases hmem
  | cons occ occs ih =>
    by_cases hid : occ.1.id = id
    · refine ⟨occ.1, hid, lookup_docs_of_some common k occs _ ?_⟩
      show (match fusion.docs.lookup occ.1.id with
        | some _ => fusion.docs
        | none => insertEntry fusion.docs occ.1.id _).lookup id = _
      rw [hid, h]
      show (insertEntry fusion.docs id _).lookup id = _
      rw [lookup_insertEntry, if_pos rfl]
    · apply ih
      · show (match fusion.docs.lookup occ.1.id with
          | some _ => fusion.docs
          | none => insertEntry fusion.docs occ.1.id _).lookup id = none
        split
        · exact h
        · rw [lookup_insertEntry, if_neg hid, h]
      · exact (List.mem_cons.mp hmem).resolve_left (Ne.symm hid)

end Pass

/-! ## The first pass -/

/-- The values of result lists. -/
def listValues (lists : List (List ListedHit)) : List Value :=
  lists.map fun l => .array (l.map fun hit => .object hit.entries)

theorem id_mem_keys (hit : ListedHit) : "id" ∈ hit.entries.map Prod.fst := by
  have hid := hit.itemId_entries
  unfold itemId at hid
  have hsome : ∃ v, hit.entries.lookup "id" = some v := by
    split at hid
    · next h => exact ⟨_, h⟩
    · next h => exact ⟨_, h⟩
    · cases hid
  obtain ⟨v, hv⟩ := hsome
  exact List.mem_map.mpr ⟨_, Value.mem_of_lookup hv, rfl⟩

/-- A list of hits passes the field `id` on. -/
theorem narrow_hits {l : List ListedHit} (hne : l ≠ []) {acc : Option (List String)}
    (hacc : ∀ fields ∈ acc, "id" ∈ fields) :
    ∃ fields, narrow acc (.array (l.map fun hit => .object hit.entries)) = some fields ∧
      "id" ∈ fields := by
  have hid : "id" ∈ listFields (l.map fun hit => .object hit.entries) := by
    obtain ⟨hit, rest, rfl⟩ := List.exists_cons_of_ne_nil hne
    exact List.mem_flatMap.mpr ⟨.object hit.entries, List.mem_cons_self, id_mem_keys hit⟩
  have hsome : (listFields (l.map fun hit => Value.object hit.entries)).isEmpty = false := by
    rw [List.isEmpty_eq_false_iff]
    exact List.ne_nil_of_mem hid
  show ∃ fields, (if (listFields _).isEmpty = true then acc else _) = some fields ∧ _
  rw [if_neg (by rw [hsome]; decide)]
  cases acc with
  | none => exact ⟨_, rfl, hid⟩
  | some existing =>
    refine ⟨_, rfl, List.mem_filter.mpr ⟨hacc existing rfl, ?_⟩⟩
    exact List.contains_iff_mem.mpr hid

theorem foldl_narrow (lists : List (List ListedHit)) (acc : Option (List String))
    (hacc : ∀ fields ∈ acc, "id" ∈ fields) (hsome : acc.isSome ∨ occurrences lists ≠ []) :
    ∃ fields, (listValues lists).foldl narrow acc = some fields ∧ "id" ∈ fields := by
  induction lists generalizing acc with
  | nil =>
    obtain ⟨fields, rfl⟩ := Option.isSome_iff_exists.mp (hsome.resolve_right (· rfl))
    exact ⟨fields, rfl, hacc fields rfl⟩
  | cons l lists ih =>
    cases l with
    | nil => exact ih acc hacc hsome
    | cons hit hits =>
      obtain ⟨fields, hfields, hid⟩ := narrow_hits (List.cons_ne_nil hit hits) hacc
      show ∃ _, (listValues lists).foldl narrow (narrow acc (.array _)) = _ ∧ _
      rw [hfields]
      exact ih _ (fun other hother => Option.some.inj hother ▸ hid) (Or.inl rfl)

theorem id_mem_commonFields {lists : List (List ListedHit)} (h : occurrences lists ≠ []) :
    "id" ∈ commonFields (listValues lists) := by
  obtain ⟨fields, hfields, hid⟩ := foldl_narrow lists none nofun (Or.inr h)
  show "id" ∈ ((listValues lists).foldl narrow none).getD []
  rw [hfields]
  exact hid

/-! ## The result -/

theorem lookup_filter {α : Type} (es : List (String × α)) (p : String → Bool) {key : String}
    (h : p key = true) : (es.filter fun e => p e.1).lookup key = es.lookup key := by
  induction es with
  | nil => rfl
  | cons e es ih =>
    by_cases hkey : key = e.1
    · rw [List.filter_cons_of_pos (by rw [← hkey]; exact h), List.lookup, List.lookup,
        beq_iff_eq.mpr hkey]
    · cases hp : p e.1 with
      | true =>
        rw [List.filter_cons_of_pos (by simpa using hp), List.lookup, List.lookup,
          beq_false_of_ne hkey, ih]
      | false =>
        rw [List.filter_cons_of_neg (by simp [hp]), ih, List.lookup, beq_false_of_ne hkey]

section Result

variable (lists : List (List ListedHit)) (k : ℚ)

/-- What the second pass makes of the lists. -/
def fused : Fusion := fuse (listValues lists) k

theorem fused_eq : fused lists k =
    (occurrences lists).foldl (addOccurrence (commonFields (listValues lists)) k) .empty :=
  foldl_addList _ k lists .empty

/-- The ids with their scores, in the order of the lists. -/
def scored : List (String × ℚ) :=
  (listedIds lists).map fun id => (id, rrfScore k (occurrences lists) id)

theorem nodup_scored : (scored lists k).Nodup :=
  (List.nodup_dedup _).map fun _ _ h => (Prod.mk.inj h).1

theorem scores_perm : (fused lists k).scores.Perm (scored lists k) := by
  have hkeys : ((fused lists k).scores.map Prod.fst).Nodup := by
    rw [fused_eq]
    exact nodup_scores _ k _ _ List.nodup_nil
  rw [List.perm_ext_iff_of_nodup hkeys.of_map (nodup_scored lists k)]
  rintro ⟨id, q⟩
  rw [mem_iff_lookup hkeys, fused_eq, lookup_scores]
  have hmem : id ∈ listedIds lists ↔ id ∈ (occurrences lists).map (·.1.id) := List.mem_dedup
  show (if _ then some ((none : Option ℚ).getD 0 + _) else none) = _ ↔ _
  rw [Option.getD_none, zero_add]
  constructor
  · intro h
    split at h
    · next hin =>
      obtain rfl := Option.some.inj h
      exact List.mem_map.mpr ⟨id, hmem.mpr hin, rfl⟩
    · cases h
  · intro h
    obtain ⟨id', hid', heq⟩ := List.mem_map.mp h
    obtain ⟨rfl, rfl⟩ := Prod.mk.inj heq
    rw [if_pos (hmem.mp hid')]

/-- The object made for an id and its score. -/
def docOf (e : String × ℚ) : FusedDoc :=
  .ofFields (((fused lists k).docs.lookup e.1).getD []) e.2

theorem lookup_fused_docs {id : String} (h : id ∈ listedIds lists) :
    ∃ fields, (fused lists k).docs.lookup id = some fields ∧
      itemId (eraseEntry fields "_rrf_score") = some id := by
  have hmem : id ∈ (occurrences lists).map (·.1.id) := List.mem_dedup.mp h
  have hcommon : "id" ∈ commonFields (listValues lists) := by
    apply id_mem_commonFields
    intro hnil
    rw [hnil] at hmem
    cases hmem
  have hempty : Fusion.empty.docs.lookup id = none := rfl
  obtain ⟨hit, hhit, hfields⟩ := lookup_docs (commonFields (listValues lists)) k
    (occurrences lists) .empty hempty hmem
  refine ⟨_, by rw [fused_eq]; exact hfields, ?_⟩
  have hid := hit.itemId_entries
  unfold itemId at hid ⊢
  rw [lookup_eraseEntry, if_neg (by decide), lookup_filter hit.entries
    (fun key => (commonFields (listValues lists)).contains key)
    (List.contains_iff_mem.mpr hcommon), hid, hhit]

theorem itemId_docOf {e : String × ℚ} (h : e ∈ scored lists k) :
    itemId (docOf lists k e).fields = some e.1 := by
  obtain ⟨id, hid, rfl⟩ := List.mem_map.mp h
  obtain ⟨fields, hfields, hitem⟩ := lookup_fused_docs lists k hid
  show itemId (eraseEntry (((fused lists k).docs.lookup id).getD []) "_rrf_score") = some id
  rw [hfields]
  exact hitem

/-- The result is the ranking of the scores as they come out of the hash map. -/
theorem rrf_eq (order : IterOrder) (n kArg : Int64) :
    rrf order (rrfArgs lists n kArg) =
      .ok ((Ranking.top Prod.snd n.toUInt64.toNat
        (order.iter (fused lists kArg.toInt).scores)).map (docOf lists kArg.toInt)) := by
  let entries := order.iter (fused lists (kArg.toInt : ℚ)).scores
  have hdocs : ∀ e ∈ Ranking.top Prod.snd n.toUInt64.toNat entries,
      ((fused lists (kArg.toInt : ℚ)).docs.lookup e.1).map (FusedDoc.ofFields · e.2)
        = some (docOf lists kArg.toInt e) := by
    intro e he
    have hmem : e ∈ scored lists (kArg.toInt : ℚ) :=
      ((order.perm _).trans (scores_perm lists _)).mem_iff.mp (Ranking.mem_top _ he)
    obtain ⟨id, hid, rfl⟩ := List.mem_map.mp hmem
    obtain ⟨fields, hfields, -⟩ := lookup_fused_docs lists (kArg.toInt : ℚ) hid
    rw [docOf, hfields]
    rfl
  show Except.ok ((Ranking.top Prod.snd n.toUInt64.toNat entries).filterMap fun e =>
    ((fused lists (kArg.toInt : ℚ)).docs.lookup e.1).map (FusedDoc.ofFields · e.2)) = _
  rw [List.filterMap_congr hdocs, ← List.filterMap_eq_map]
  rfl

/-- Any order of the scores gives a ranking of the ids. -/
theorem ranks_top {entries : List (String × ℚ)} (h : entries.Perm (scored lists k)) (n : Nat) :
    Ranks lists n k ((Ranking.top Prod.snd n entries).map (docOf lists k)) := by
  have hscored : ∀ e ∈ Ranking.top Prod.snd n entries, e ∈ scored lists k := fun e he =>
    h.mem_iff.mp (Ranking.mem_top _ he)
  have hids : ((Ranking.top Prod.snd n entries).map (docOf lists k)).map (itemId ·.fields)
      = (Ranking.top Prod.snd n entries).map fun e => some e.1 := by
    rw [List.map_map]
    exact List.map_congr_left fun e he => itemId_docOf lists k (hscored e he)
  have hnodup : (Ranking.top Prod.snd n entries).Nodup :=
    Ranking.nodup_top _ n (h.nodup_iff.mpr (nodup_scored lists k))
  refine ⟨?_, ?_, ?_, ?_, ?_⟩
  · intro doc hdoc
    obtain ⟨e, he, rfl⟩ := List.mem_map.mp hdoc
    have hitem := itemId_docOf lists k (hscored e he)
    obtain ⟨id, hid, rfl⟩ := List.mem_map.mp (hscored e he)
    exact ⟨id, hid, hitem, rfl⟩
  · rw [hids]
    refine List.Nodup.map_on ?_ hnodup
    intro a ha b hb heq
    obtain ⟨id, -, rfl⟩ := List.mem_map.mp (hscored a ha)
    obtain ⟨id', -, rfl⟩ := List.mem_map.mp (hscored b hb)
    obtain rfl : id = id' := Option.some.inj heq
    rfl
  · rw [List.length_map, Ranking.length_top, h.length_eq, scored, List.length_map]
  · exact List.pairwise_map.mpr (Ranking.pairwise_top _ n entries)
  · intro id hid hout doc hdoc
    obtain ⟨e, he, rfl⟩ := List.mem_map.mp hdoc
    let e' := (id, rrfScore k (occurrences lists) id)
    have he' : e' ∈ scored lists k := List.mem_map.mpr ⟨id, hid, rfl⟩
    refine Ranking.le_of_not_mem_top Prod.snd he (h.mem_iff.mpr he') fun hin => ?_
    exact hout _ (List.mem_map.mpr ⟨e', hin, rfl⟩) (itemId_docOf lists k he')

/-- Ids that tie are beyond the limit: enough others rank higher. -/
def TiesBeyond (n : Nat) : Prop :=
  Ranking.Settled (rrfScore k (occurrences lists)) n (listedIds lists)

theorem settled_scored_iff (n : Nat) :
    Ranking.Settled Prod.snd n (scored lists k) ↔ TiesBeyond lists k n :=
  Ranking.settled_map Prod.snd fun _ _ h => (Prod.mk.inj h).1

end Result

/-- The entries in the reverse order. -/
def reversed : IterOrder where
  iter := List.reverse
  perm := List.reverse_perm

/-- The result always ranks the ids by their exact scores; it depends on the arguments alone
exactly when no two ids tie within the limit. -/
theorem rrf_deterministic_iff (lists : List (List ListedHit)) (n k : Int64) (hn : 0 ≤ n.toInt) :
    (∀ order, ∃ result, rrf order (rrfArgs lists n k) = .ok result ∧
      Ranks lists n.toInt.toNat k.toInt result) ∧
    ((∀ order order', rrf order (rrfArgs lists n k) = rrf order' (rrfArgs lists n k)) ↔
      TiesBeyond lists k.toInt n.toInt.toNat) := by
  have hlimit : n.toUInt64.toNat = n.toInt.toNat := by
    have hcast := Words.toNat_toUInt64 n
    have hlt := n.toInt_lt
    omega
  have hperm : ∀ order : IterOrder,
      (order.iter (fused lists (k.toInt : ℚ)).scores).Perm (scored lists k.toInt) := fun order =>
    (order.perm _).trans (scores_perm lists _)
  constructor
  · intro order
    refine ⟨_, rrf_eq lists order n k, ?_⟩
    rw [hlimit]
    exact ranks_top lists k.toInt (hperm order) n.toInt.toNat
  · rw [← settled_scored_iff]
    constructor
    · intro h
      have heq := h .asKept reversed
      rw [rrf_eq, rrf_eq, hlimit, Except.ok.injEq] at heq
      -- an object tells its id and its score
      have hread : ∀ order : IterOrder,
          ((Ranking.top Prod.snd n.toInt.toNat (order.iter (fused lists (k.toInt : ℚ)).scores)).map
            (docOf lists k.toInt)).map (fun doc => (itemId doc.fields, doc.rrfScore))
          = (Ranking.top Prod.snd n.toInt.toNat
            (order.iter (fused lists (k.toInt : ℚ)).scores)).map fun e => (some e.1, e.2) := by
        intro order
        rw [List.map_map]
        apply List.map_congr_left
        intro e he
        show (itemId (docOf lists k.toInt e).fields, e.2) = _
        rw [itemId_docOf lists k.toInt ((hperm order).mem_iff.mp (Ranking.mem_top _ he))]
      have htops := congrArg (List.map fun doc : FusedDoc => (itemId doc.fields, doc.rrfScore)) heq
      rw [hread, hread] at htops
      have hinj : Function.Injective fun e : String × ℚ => (some e.1, e.2) := fun a b hab =>
        Prod.ext (Option.some.inj (Prod.mk.inj hab).1) (Prod.mk.inj hab).2
      have hsettled := Ranking.settled_of_top_reverse Prod.snd
        ((hperm .asKept).nodup_iff.mpr (nodup_scored lists k.toInt))
        (List.map_injective_iff.mpr hinj htops)
      exact hsettled.perm _ (hperm .asKept)
    · intro h order order'
      rw [rrf_eq, rrf_eq, hlimit, Ranking.top_perm Prod.snd ((hperm order).trans (hperm order').symm)
        (h.perm _ (hperm order).symm)]

namespace Charts

/-- A hit of a search for songs. -/
def song (id : String) : ListedHit := ⟨[("id", .string id)], by simp, id, rfl⟩

/-- The first of two lists decides between its own songs. -/
theorem charts_deterministic :
    (∀ order, ∃ result,
      rrf order (rrfArgs [[song "blue", song "gold"], [song "blue"]] 2 60) = .ok result ∧
        Ranks [[song "blue", song "gold"], [song "blue"]] 2 60 result) ∧
    ((∀ order order', rrf order (rrfArgs [[song "blue", song "gold"], [song "blue"]] 2 60)
        = rrf order' (rrfArgs [[song "blue", song "gold"], [song "blue"]] 2 60)) ↔
      TiesBeyond [[song "blue", song "gold"], [song "blue"]] 60 2) :=
  rrf_deterministic_iff _ 2 60 (by decide)

/-- Two songs lead a list each, and one place is given. -/
theorem charts_tied :
    rrf .asKept (rrfArgs [[song "blue"], [song "gold"]] 1 60)
      ≠ rrf reversed (rrfArgs [[song "blue"], [song "gold"]] 1 60) := fun h =>
  absurd (congrArg (Except.map (List.map fun doc => itemId doc.fields)) h) (by decide +kernel)

end Charts

end RankFusion

end StellarDb
