import StellarDb.Query.Operators

/-!
# StellarDb — search scans (`operators/fts_scan.rs`, `operators/vector_scan.rs`)

A search scan asks an external index for hits, when it is opened, and fetches the document of the
next hit when it is pulled. What it fetches may be missing, as the index lags behind the documents;
`next` then returns `None`, which ends the stream for whoever pulls it. The key of a hit is taken
to be the last segment of its id.

Both scans yield the rows of the hits up to the first one that is not fetched
(`collectAll_fts`, `collectAll_vector`). `search_scan_exact` says for which hits these are the rows
of the hits whose document exists.
-/

namespace StellarDb

open Pulling

/-! ## Single precision -/

/-- An `f32`, by its bits. -/
structure F32 where
  bits : UInt32
  deriving DecidableEq, Repr

/-- `f as f64` -/
def F32.toF64 (f : F32) : F64 :=
  let sign := f.bits.toNat / 2 ^ 31
  let exp := f.bits.toNat / 2 ^ 23 % 256
  let fraction := f.bits.toNat % 2 ^ 23
  let magnitude :=
    if exp = 255 then 2047 * 2 ^ 52 + fraction * 2 ^ 29
    else if exp ≠ 0 then (exp + 896) * 2 ^ 52 + fraction * 2 ^ 29
    else if fraction = 0 then 0
    else
      -- a subnormal single is a normal double
      let k := Nat.log2 fraction
      (k + 874) * 2 ^ 52 + (fraction - 2 ^ k) * 2 ^ (52 - k)
  ⟨UInt64.ofNat (sign * 2 ^ 63 + magnitude)⟩

/-! ## The operators -/

/-- A hit of an external index: a document id with its score or distance. -/
abbrev Hit := String × F32

structure MatchField where
  name : String
  boost : Option F64

inductive FtsTarget where
  | field (name : String)
  | «match» (fields : List MatchField)

/-- What search scans ask of their context. -/
structure SearchContext where
  getDocument : String → String → Except StorageError (Option Document)
  findFtsIndexForField : String → String → Option String
  findFtsIndex : String → Option String
  ftsSearch : String → String → String → Nat → Except StorageError (List Hit)
  ftsSearchWithBoosts : String → String → String → List (String × F64) → Nat →
    Except StorageError (List Hit)
  findHnswIndexForField : String → String → Option String
  vectorSearch : String → String → List F32 → Nat → Option Nat → Except StorageError (List Hit)

/-- The part of a document id behind the last `:`. -/
def lastSegment (docId : String) : String := (splitChar ':' docId).getLast?.getD docId

/-- A document row with one more field. -/
def scoredRow (field : String) (score : F32) (doc : Document) : Row :=
  .fromDoc (doc.insertField field (.float score.toF64) rfl)

section Scans

variable (ctx : SearchContext)

/-- Fetch a document by id and attach a field. -/
def fetchWith (field collection docId : String) (score : F32) :
    Except ExecuteError (Option Row) :=
  match ctx.getDocument collection (lastSegment docId) with
  | .error e => .error (.storage e)
  | .ok doc => .ok (doc.map (scoredRow field score))

structure FtsIndexScanOp where
  collection : String
  target : FtsTarget
  query : String
  limit : Option Nat
  results : Option (List Hit)
  position : Nat

namespace FtsIndexScanOp

def new (collection : String) (target : FtsTarget) (query : String) (limit : Option Nat) :
    FtsIndexScanOp :=
  ⟨collection, target, query, limit, none, 0⟩

/-- Find the index of the search target. -/
def findIndexName (op : FtsIndexScanOp) : Except ExecuteError String :=
  match op.target with
  | .field field =>
    match (ctx.findFtsIndexForField op.collection field).or (ctx.findFtsIndex op.collection) with
    | some name => .ok name
    | none =>
      .error (.other ("No FTS index found for field '" ++ field ++ "' in collection '" ++
        op.collection ++ "'"))
  | .«match» fields =>
    let sorted := (fields.map (·.name)).insertionSort fun a b =>
      (compare (Keyspaces.utf8 a) (Keyspaces.utf8 b)).isLE
    .ok (String.intercalate "_" sorted ++ "_fts")

/-- The boost of a field without one. -/
def defaultBoost : F64 := .ofInt 1

def executeFtsSearch (op : FtsIndexScanOp) : Except ExecuteError (List Hit) :=
  match op.findIndexName ctx with
  | .error e => .error e
  | .ok indexName =>
    let limit := op.limit.getD 1000
    let found := match op.target with
      | .field _ => ctx.ftsSearch op.collection indexName op.query limit
      | .«match» fields =>
        ctx.ftsSearchWithBoosts op.collection indexName op.query
          (fields.map fun f : MatchField => (f.name, f.boost.getD defaultBoost)) limit
    match found with
    | .error e => .error (.storage e)
    | .ok hits => .ok hits

def fetchWithScore (op : FtsIndexScanOp) (docId : String) (score : F32) :
    Except ExecuteError (Option Row) :=
  fetchWith ctx "$score" op.collection docId score

def «open» (op : FtsIndexScanOp) : Except ExecuteError FtsIndexScanOp :=
  match op.executeFtsSearch ctx with
  | .error e => .error e
  | .ok results =>
    let results := match op.limit with
      | some limit => results.take limit
      | none => results
    .ok { op with results := some results, position := 0 }

def next (op : FtsIndexScanOp) : Except ExecuteError (Option (Row × FtsIndexScanOp)) :=
  match op.results with
  | none => .error (.other "Operator not initialized: FtsIndexScanOp")
  | some results =>
    if op.limit.any (· ≤ op.position) then .ok none
    else
      match results[op.position]? with
      | none => .ok none
      | some (docId, score) =>
        (op.fetchWithScore ctx docId score).map fun row =>
          row.map (·, { op with position := op.position + 1 })

/-- `collect_all`, pulling at most `fuel` times. -/
def collectAll (op : FtsIndexScanOp) (fuel : Nat) : Except ExecuteError (List Row) :=
  match op.open ctx with
  | .error e => .error e
  | .ok op => (Pull.unfold (next ctx) fuel op).collect

end FtsIndexScanOp

structure VectorIndexScanOp where
  collection : String
  field : String
  vector : List F32
  k : Nat
  effort : Option Nat
  results : Option (List Hit)
  position : Nat

namespace VectorIndexScanOp

def new (collection field : String) (vector : List F32) (k : Nat) (effort : Option Nat) :
    VectorIndexScanOp :=
  ⟨collection, field, vector, k, effort, none, 0⟩

def findIndexName (op : VectorIndexScanOp) : Except ExecuteError String :=
  match ctx.findHnswIndexForField op.collection op.field with
  | some name => .ok name
  | none =>
    .error (.other ("No HNSW index found for field '" ++ op.field ++ "' in collection '" ++
      op.collection ++ "'"))

def fetchWithDistance (op : VectorIndexScanOp) (docId : String) (distance : F32) :
    Except ExecuteError (Option Row) :=
  fetchWith ctx "$distance" op.collection docId distance

def «open» (op : VectorIndexScanOp) : Except ExecuteError VectorIndexScanOp :=
  match op.findIndexName ctx with
  | .error e => .error e
  | .ok indexName =>
    match ctx.vectorSearch op.collection indexName op.vector op.k op.effort with
    | .error e => .error (.storage e)
    | .ok results => .ok { op with results := some results, position := 0 }

def next (op : VectorIndexScanOp) : Except ExecuteError (Option (Row × VectorIndexScanOp)) :=
  match op.results with
  | none => .error (.other "Operator not initialized: VectorIndexScanOp")
  | some results =>
    match results[op.position]? with
    | none => .ok none
    | some (docId, distance) =>
      (op.fetchWithDistance ctx docId distance).map fun row =>
        row.map (·, { op with position := op.position + 1 })

/-- `collect_all`, pulling at most `fuel` times. -/
def collectAll (op : VectorIndexScanOp) (fuel : Nat) : Except ExecuteError (List Row) :=
  match op.open ctx with
  | .error e => .error e
  | .ok op => (Pull.unfold (next ctx) fuel op).collect

end VectorIndexScanOp

end Scans

/-! ## Segments of an id -/

theorem notMem_of_mem_splitOn {c : Char} {text segment : List Char}
    (h : segment ∈ text.splitOn c) : c ∉ segment := by
  induction text generalizing segment with
  | nil =>
    rw [List.splitOn_nil, List.mem_singleton] at h
    rw [h]
    exact List.not_mem_nil
  | cons x text ih =>
    rw [List.splitOn_cons_eq_if_modifyHead] at h
    split at h
    · rcases List.mem_cons.mp h with rfl | h
      · exact List.not_mem_nil
      · exact ih h
    · next hx =>
      -- the character goes to the front of the first segment
      obtain ⟨first, rest, hsplit⟩ := List.exists_cons_of_ne_nil (List.splitOn_ne_nil c text)
      rw [hsplit, List.modifyHead_cons] at h
      rcases List.mem_cons.mp h with rfl | h
      · intro hmem
        rcases List.mem_cons.mp hmem with rfl | hmem
        · exact hx BEq.rfl
        · exact ih (hsplit ▸ List.mem_cons_self) hmem
      · exact ih (hsplit ▸ List.mem_cons_of_mem _ h)

theorem colon_notMem_lastSegment (docId : String) : ':' ∉ (lastSegment docId).toList := by
  unfold lastSegment splitChar
  rw [List.getLast?_map, List.getLast?_eq_getLast_of_ne_nil (List.splitOn_ne_nil _ _)]
  show ':' ∉ (String.ofList _).toList
  rw [String.toList_ofList]
  exact notMem_of_mem_splitOn (List.getLast_mem _)

/-- The last segment of an id is its key, if the key has only one segment. -/
theorem lastSegment_eq_iff {collection : String} (hc : ':' ∉ collection.toList) (key : String) :
    lastSegment (collection ++ ":" ++ key) = key ↔ ':' ∉ key.toList := by
  constructor
  · intro h
    rw [← h]
    exact colon_notMem_lastSegment _
  · intro hkey
    have hlist : (collection ++ ":" ++ key).toList = collection.toList ++ ':' :: key.toList := by
      simp [String.toList_append]
    unfold lastSegment splitChar
    rw [hlist, List.splitOn_append_cons_self_of_not_mem hc, List.splitOn_eq_singleton hkey]
    exact String.ofList_toList

/-! ## What the scans yield -/

section Exact

/-- The documents of a collection, by their keys, read without error. -/
structure Reads (ctx : SearchContext) (collection : String)
    (stored : String → Option Document) : Prop where
  getDocument : ∀ key, ctx.getDocument collection key = .ok (stored key)
  keyed : ∀ key doc, stored key = some doc → doc.id = collection ++ ":" ++ key
  plain : ':' ∉ collection.toList

section Rows

variable (stored : String → Option Document)

/-- The document that a hit names. -/
def live (hit : Hit) : Option Document := (splitOnce ':' hit.1).bind fun parts => stored parts.2

/-- The document that a scan fetches for a hit. -/
def fetched (hit : Hit) : Option Document := stored (lastSegment hit.1)

/-- The rows of the hits whose document exists. -/
def liveRows (field : String) (hits : List Hit) : List Row :=
  hits.filterMap fun hit => (live stored hit).map (scoredRow field hit.2)

/-- The hits whose document exists come first, and their keys have no colon; of the others, the
first one is not fetched. -/
def Undisturbed (hits : List Hit) : Prop :=
  ∃ front back, hits = front ++ back ∧
    (∀ hit ∈ front, live stored hit ≠ none ∧
      ∀ parts, splitOnce ':' hit.1 = some parts → ':' ∉ parts.2.toList) ∧
    (∀ hit ∈ back, live stored hit = none) ∧ ∀ hit ∈ back.head?, fetched stored hit = none

/-- A hit without a document stands before one with a document and with the same score, whose key
is the last segment of its own. -/
def Tied (hits : List Hit) : Prop :=
  ∃ hit hit', [hit, hit'].Sublist hits ∧ live stored hit = none ∧ live stored hit' ≠ none ∧
    fetched stored hit = live stored hit' ∧ hit.2.toF64 = hit'.2.toF64

/-- The rows that a scan yields. -/
def fetchedRows (field : String) (hits : List Hit) : List Row :=
  Pull.takeSome (hits.map fun hit => (fetched stored hit).map (scoredRow field hit.2))

end Rows

variable {ctx : SearchContext} {collection : String} {stored : String → Option Document}

theorem fetchWith_eq (h : Reads ctx collection stored) (field : String) (hit : Hit) :
    fetchWith ctx field collection hit.1 hit.2 =
      .ok ((fetched stored hit).map (scoredRow field hit.2)) := by
  rw [fetchWith, h.getDocument]
  rfl

/-- The hits that a full-text scan goes through. -/
def FtsIndexScanOp.upToLimit (op : FtsIndexScanOp) (found : List Hit) : List Hit :=
  match op.limit with
  | some limit => found.take limit
  | none => found

theorem collectAll_fts (op : FtsIndexScanOp) {found : List Hit} {fuel : Nat}
    (h : Reads ctx op.collection stored) (hfound : op.executeFtsSearch ctx = .ok found)
    (hfuel : found.length < fuel) :
    op.collectAll ctx fuel = .ok (fetchedRows stored "$score" (op.upToLimit found)) := by
  generalize hhits : op.upToLimit found = hits
  have hopen : op.open ctx = .ok { op with results := some hits, position := 0 } := by
    rw [FtsIndexScanOp.open, hfound, ← hhits]
    rfl
  have hlength : hits.length ≤ found.length := by
    rw [← hhits, FtsIndexScanOp.upToLimit]
    split
    · exact List.length_take_le' _ _
    · exact le_rfl
  -- the hits were cut at the limit already, so the check of the limit only repeats their end
  have hpast : ∀ p, op.limit.any (fun limit => decide (limit ≤ p)) = true → hits[p]? = none := by
    intro p hany
    apply List.getElem?_eq_none
    rw [← hhits, FtsIndexScanOp.upToLimit]
    cases hop : op.limit with
    | none => rw [hop] at hany; cases hany
    | some limit =>
      rw [hop] at hany
      exact (List.length_take_le _ _).trans (of_decide_eq_true hany)
  rw [FtsIndexScanOp.collectAll, hopen]
  refine Pull.collect_unfold_cursor (l := hits)
    (fun p => ({ op with results := some hits, position := p } : FtsIndexScanOp)) ?_ (by omega)
  intro p
  unfold FtsIndexScanOp.next
  dsimp only
  split
  · next hany =>
    rw [hpast p hany]
    rfl
  · cases hits[p]? with
    | none => rfl
    | some hit =>
      show (fetchWith ctx "$score" op.collection hit.1 hit.2).map _ = _
      rw [fetchWith_eq h]
      rfl

theorem collectAll_vector (op : VectorIndexScanOp) {indexName : String} {found : List Hit}
    {fuel : Nat} (h : Reads ctx op.collection stored) (hname : op.findIndexName ctx = .ok indexName)
    (hfound : ctx.vectorSearch op.collection indexName op.vector op.k op.effort = .ok found)
    (hfuel : found.length < fuel) :
    op.collectAll ctx fuel = .ok (fetchedRows stored "$distance" found) := by
  have hopen : op.open ctx = .ok { op with results := some found, position := 0 } := by
    rw [VectorIndexScanOp.open, hname]
    show (match ctx.vectorSearch op.collection indexName op.vector op.k op.effort with
      | .error e => Except.error (ExecuteError.storage e)
      | .ok results => .ok { op with results := some results, position := 0 }) = _
    rw [hfound]
  rw [VectorIndexScanOp.collectAll, hopen]
  refine Pull.collect_unfold_cursor (l := found)
    (fun p => ({ op with results := some found, position := p } : VectorIndexScanOp)) ?_ (by omega)
  intro p
  unfold VectorIndexScanOp.next
  dsimp only
  cases found[p]? with
  | none => rfl
  | some hit =>
    show (fetchWith ctx "$distance" op.collection hit.1 hit.2).map _ = _
    rw [fetchWith_eq h]
    rfl

/-! ## When they are the rows of the live hits -/

theorem idKey_inj {a b : String} (h : collection ++ ":" ++ a = collection ++ ":" ++ b) : a = b := by
  have hlist := congrArg String.toList h
  rw [String.toList_append (t := a), String.toList_append (t := b)] at hlist
  exact String.toList_inj.mp (List.append_cancel_left hlist)

theorem live_of_id (hc : ':' ∉ collection.toList) {hit : Hit} {key : String}
    (hid : hit.1 = collection ++ ":" ++ key) : live stored hit = stored key := by
  rw [live, hid, splitOnce_append hc]
  rfl

theorem fetched_of_id (hc : ':' ∉ collection.toList) {hit : Hit} {key : String}
    (hid : hit.1 = collection ++ ":" ++ key) (hkey : ':' ∉ key.toList) :
    fetched stored hit = stored key := by
  rw [fetched, hid, (lastSegment_eq_iff hc key).mpr hkey]

theorem liveRows_eq_nil {field : String} {hits : List Hit} :
    liveRows stored field hits = [] ↔ ∀ hit ∈ hits, live stored hit = none := by
  rw [liveRows, List.filterMap_eq_nil_iff]
  exact forall₂_congr fun hit _ => Option.map_eq_none_iff

/-- Rows of one field show the document and the score they are made of. -/
theorem scoredRow_inj {field : String} {score score' : F32} {doc doc' : Document}
    (h : scoredRow field score doc = scoredRow field score' doc') :
    doc.id = doc'.id ∧ score.toF64 = score'.toF64 := by
  have hid : (scoredRow field score doc).doc.id = (scoredRow field score' doc').doc.id :=
    congrArg (fun row => row.doc.id) h
  refine ⟨hid, ?_⟩
  have hfields : (field, Value.float score.toF64) :: _ = (field, Value.float score'.toF64) :: _ :=
    congrArg (fun row => row.doc.fields) h
  have hvalue := (List.cons.inj hfields).1
  exact Value.float.inj (Prod.mk.inj hvalue).2

variable {field : String} {hits : List Hit}

/-- Undisturbed hits yield the rows of the live ones. -/
theorem fetchedRows_of_undisturbed (h : Reads ctx collection stored)
    (hids : ∀ hit ∈ hits, ∃ key, hit.1 = collection ++ ":" ++ key)
    (hund : Undisturbed stored hits) : fetchedRows stored field hits = liveRows stored field hits := by
  obtain ⟨front, back, rfl, hfront, hback, hstop⟩ := hund
  induction front with
  | nil =>
    rw [List.nil_append] at hids ⊢
    rw [liveRows_eq_nil.mpr hback]
    cases back with
    | nil => rfl
    | cons hit back =>
      show Pull.takeSome ((fetched stored hit).map _ :: _) = []
      rw [hstop hit rfl]
      rfl
  | cons hit front ih =>
    rw [List.forall_mem_cons] at hfront
    rw [List.cons_append, List.forall_mem_cons] at hids
    obtain ⟨key, hid⟩ := hids.1
    have hkey : ':' ∉ key.toList := hfront.1.2 _ (hid ▸ splitOnce_append h.plain key)
    have hlive : live stored hit = stored key := live_of_id h.plain hid
    obtain ⟨doc, hdoc⟩ := Option.ne_none_iff_exists'.mp (hlive ▸ hfront.1.1)
    have ih := ih hids.2 hfront.2
    show Pull.takeSome ((fetched stored hit).map _ :: _) = _
    rw [fetched_of_id h.plain hid hkey, hdoc, List.cons_append, liveRows, List.filterMap_cons, hlive,
      hdoc]
    exact congrArg (scoredRow field hit.2 doc :: ·) ih

/-- Other hits do not, unless one of them passes for another one. -/
theorem undisturbed_of_fetchedRows (h : Reads ctx collection stored)
    (hids : ∀ hit ∈ hits, ∃ key, hit.1 = collection ++ ":" ++ key)
    (heq : fetchedRows stored field hits = liveRows stored field hits) :
    Undisturbed stored hits ∨ Tied stored hits := by
  induction hits with
  | nil => exact Or.inl ⟨[], [], rfl, by simp⟩
  | cons hit hits ih =>
    rw [List.forall_mem_cons] at hids
    obtain ⟨key, hid⟩ := hids.1
    have hlive : live stored hit = stored key := live_of_id h.plain hid
    cases hfetch : fetched stored hit with
    | none =>
      -- the scan ends here, so there must be no live hit left
      have hnil : liveRows stored field (hit :: hits) = [] := by
        rw [← heq]
        show Pull.takeSome ((fetched stored hit).map _ :: _) = []
        rw [hfetch]
        rfl
      refine Or.inl ⟨[], hit :: hits, rfl, by simp, liveRows_eq_nil.mp hnil, ?_⟩
      intro hit' hhead
      obtain rfl : hit = hit' := Option.some_inj.mp hhead
      exact hfetch
    | some doc =>
      have hrows : fetchedRows stored field (hit :: hits) =
          scoredRow field hit.2 doc :: fetchedRows stored field hits := by
        show Pull.takeSome ((fetched stored hit).map _ :: _) = _
        rw [hfetch]
        rfl
      have hfetchId := h.keyed _ _ hfetch
      rw [hrows] at heq
      cases hdoc : live stored hit with
      | none =>
        -- the row is that of a later hit
        have hskip : liveRows stored field (hit :: hits) = liveRows stored field hits := by
          rw [liveRows, List.filterMap_cons, hdoc]
          rfl
        rw [hskip] at heq
        have hmem : scoredRow field hit.2 doc ∈ liveRows stored field hits :=
          heq ▸ List.mem_cons_self
        obtain ⟨hit', hhit', hrow⟩ := List.mem_filterMap.mp hmem
        obtain ⟨doc', hdoc', hrow⟩ := Option.map_eq_some_iff.mp hrow
        obtain ⟨hsameId, hscore⟩ := scoredRow_inj hrow
        obtain ⟨key', hid'⟩ := hids.2 hit' hhit'
        rw [live_of_id h.plain hid'] at hdoc'
        have hkeys : key' = lastSegment hit.1 :=
          idKey_inj ((h.keyed _ _ hdoc').symm.trans (hsameId.trans hfetchId))
        refine Or.inr ⟨hit, hit', ?_, hdoc, ?_, ?_, hscore.symm⟩
        · exact (List.singleton_sublist.mpr hhit').cons_cons hit
        · rw [live_of_id h.plain hid', hdoc']
          exact Option.some_ne_none _
        · rw [live_of_id h.plain hid', fetched, hkeys]
      | some doc' =>
        have hcons : liveRows stored field (hit :: hits) =
            scoredRow field hit.2 doc' :: liveRows stored field hits := by
          rw [liveRows, List.filterMap_cons, hdoc]
          rfl
        rw [hcons] at heq
        obtain ⟨hhead, htail⟩ := List.cons.inj heq
        -- the same document, so the same key
        have hkey : ':' ∉ key.toList := by
          rw [← lastSegment_eq_iff h.plain]
          have hdocId := h.keyed _ _ (hlive ▸ hdoc)
          rw [← hid]
          exact idKey_inj (hfetchId.symm.trans ((scoredRow_inj hhead).1.trans hdocId))
        rcases ih hids.2 htail with ⟨front, back, rfl, hfront, hback, hstop⟩ | hties
        · refine Or.inl ⟨hit :: front, back, rfl, List.forall_mem_cons.mpr ⟨⟨?_, ?_⟩, hfront⟩, hback,
            hstop⟩
          · rw [hdoc]
            exact Option.some_ne_none _
          · intro parts hparts
            rw [hid, splitOnce_append h.plain] at hparts
            cases hparts
            exact hkey
        · obtain ⟨first, second, hsub, hrest⟩ := hties
          exact Or.inr ⟨first, second, hsub.cons hit, hrest⟩

section Statement

variable (stored : String → Option Document) (field : String) (hits : List Hit)

/-- The rows are those of the live hits when the hits are undisturbed, and only then unless one of
them passes for another one. -/
def ExactWhenUndisturbed (rows : Except ExecuteError (List Row)) : Prop :=
  (Undisturbed stored hits → rows = .ok (liveRows stored field hits)) ∧
    (rows = .ok (liveRows stored field hits) → Undisturbed stored hits ∨ Tied stored hits)

end Statement

theorem exactWhenUndisturbed (h : Reads ctx collection stored)
    (hids : ∀ hit ∈ hits, ∃ key, hit.1 = collection ++ ":" ++ key) :
    ExactWhenUndisturbed stored field hits (.ok (fetchedRows stored field hits)) :=
  ⟨fun hund => congrArg Except.ok (fetchedRows_of_undisturbed h hids hund),
    fun heq => undisturbed_of_fetchedRows h hids (Except.ok.inj heq)⟩

/-- Both scans, pulled to their end, yield exactly the rows of the hits whose document exists when
the hits whose document is missing all come last. -/
theorem search_scans_exact (h : Reads ctx collection stored) (found : List Hit)
    (hids : ∀ hit ∈ found, ∃ key, hit.1 = collection ++ ":" ++ key) (fuel : Nat)
    (hfuel : found.length < fuel) :
    (∀ op : FtsIndexScanOp, op.collection = collection → op.executeFtsSearch ctx = .ok found →
      ExactWhenUndisturbed stored "$score" (op.upToLimit found) (op.collectAll ctx fuel)) ∧
    (∀ op : VectorIndexScanOp, op.collection = collection →
      ∀ indexName, op.findIndexName ctx = .ok indexName →
        ctx.vectorSearch op.collection indexName op.vector op.k op.effort = .ok found →
        ExactWhenUndisturbed stored "$distance" found (op.collectAll ctx fuel)) := by
  constructor
  · rintro op rfl hfound
    rw [collectAll_fts op h hfound hfuel]
    have hsub : ∀ hit ∈ op.upToLimit found, hit ∈ found := by
      unfold FtsIndexScanOp.upToLimit
      split
      · exact fun _ hit => List.mem_of_mem_take hit
      · exact fun _ hit => hit
    exact exactWhenUndisturbed h fun hit hhit => hids hit (hsub hit hhit)
  · rintro op rfl indexName hname hfound
    rw [collectAll_vector op h hname hfound hfuel]
    exact exactWhenUndisturbed h hids

end Exact

namespace Articles

def stored (key : String) : Option Document :=
  if key = "a" ∨ key = "b" then some ⟨"posts:" ++ key, [], Value.wf_no_fields⟩ else none

/-- An index of the collection `posts` that returns the given hits. -/
def context (found : List Hit) : SearchContext where
  getDocument c key := .ok (if c = "posts" then stored key else none)
  findFtsIndexForField _ _ := some "title_fts"
  findFtsIndex _ := some "title_fts"
  ftsSearch _ _ _ _ := .ok found
  ftsSearchWithBoosts _ _ _ _ _ := .ok found
  findHnswIndexForField _ _ := some "title_hnsw"
  vectorSearch _ _ _ _ _ := .ok found

theorem context_reads (found : List Hit) : Reads (context found) "posts" stored where
  getDocument key := rfl
  keyed key doc hdoc := by
    unfold stored at hdoc
    split at hdoc
    · cases hdoc
      rfl
    · cases hdoc
  plain := by decide

/-- The scores 2, 1.5 and 1. -/
def two : F32 := ⟨0x40000000⟩
def oneAndHalf : F32 := ⟨0x3FC00000⟩
def one : F32 := ⟨0x3F800000⟩

def search : FtsIndexScanOp := .new "posts" (.field "title") "lean" none

def nearest : VectorIndexScanOp := .new "posts" "title" [one] 3 none

/-- The document of the last hit is missing. -/
def lagging : List Hit := [("posts:b", two), ("posts:a", oneAndHalf), ("posts:gone", one)]

theorem lagging_exact :
    search.collectAll (context lagging) 4 = .ok (liveRows stored "$score" lagging) ∧
      nearest.collectAll (context lagging) 4 = .ok (liveRows stored "$distance" lagging) := by
  have hids : ∀ hit ∈ lagging, ∃ key, hit.1 = "posts" ++ ":" ++ key :=
    List.forall_iff_forall_mem.mp ⟨⟨"b", by decide⟩, ⟨"a", by decide⟩, ⟨"gone", by decide⟩⟩
  have hund : Undisturbed stored lagging := by
    refine ⟨lagging.take 2, lagging.drop 2, rfl, ?_, ?_, ?_⟩
    · exact List.forall_iff_forall_mem.mp (by decide +kernel)
    · exact List.forall_iff_forall_mem.mp (by decide +kernel)
    · decide +kernel
  obtain ⟨hfts, hvector⟩ := search_scans_exact (context_reads lagging) lagging hids 4 (by decide)
  exact ⟨(hfts search rfl rfl).1 hund, (hvector nearest rfl _ rfl rfl).1 hund⟩

/-- The document of the first hit is missing. -/
def stale : List Hit := [("posts:gone", two), ("posts:a", one)]

theorem stale_lost : search.collectAll (context stale) 3 ≠ .ok (liveRows stored "$score" stale) ∧
    nearest.collectAll (context stale) 3 ≠ .ok (liveRows stored "$distance" stale) := by
  constructor <;> intro h <;> exact absurd (congrArg (Except.map List.length) h) (by decide +kernel)

end Articles

end StellarDb
