import StellarDb.Query.Operators
import StellarDb.Transaction.Documents

/-!
# StellarDb — plain `SELECT`

A `SELECT` without `WHERE` reads its collection with `TableScanOp`, chunk after chunk behind a
cursor, and pushes its limit into the scan when no other clause stands between them.

`select_exact`: for a collection of any size the rows of the plan are those of the reference
pipeline over the whole collection: sort, project or take the value, remove repetitions, skip,
take.
-/

namespace StellarDb

open Keyspaces Pulling

/-! ## The statement (`query/ast/stmt.rs`) -/

/-- A `SELECT`, apart from its source. -/
structure SelectAst (Ω : Type) where
  projection : Projection Ω
  distinct : Bool
  valueMode : Bool
  filter : Option (Expr Ω)
  group : Option (List String)
  order : Option (List (OrderItem Ω))
  limit : Option Nat
  offset : Option Nat

section Statement

variable {Ω : Type}

/-- `SELECT VALUE` has exactly one expression. -/
def extractValueExpr : Projection Ω → Option (Expr Ω)
  | .items [item] => some item.expr
  | _ => none

namespace SelectAst

def clauses (s : SelectAst Ω) : SelectClauses Ω (Clause Ω) where
  projection := .projection s.projection
  order := s.order.map .order
  limit := s.limit
  offset := s.offset
  distinct := s.distinct
  valueMode := s.valueMode
  valueExpr := if s.valueMode then extractValueExpr s.projection else none

/-- The plan of a `SELECT` over a collection that neither groups nor aggregates. -/
def scanPlan (s : SelectAst Ω) (collection : String) (key : Option String) :
    LogicalPlan Ω (Clause Ω) :=
  .scan collection key s.filter s.clauses

/-! ## The reference -/

section Reference

variable [External] [ValueText] [Numerics] (ctx : OperatorContext Ω) (s : SelectAst Ω)

/-- The rows in the order of the `ORDER` clause. -/
def ordered (rows : List Row) : Except ExecuteError (List Row) :=
  match s.order with
  | none => .ok rows
  | some items =>
    (rows.mapM (keyedRow ctx.eval items)).map fun keyed =>
      (sortByKeys (items.map (·.direction)) keyed).map (·.1)

/-- What is made of each row: its projection, or its value. `VALUE` of anything but one
expression leaves the row as it is. -/
def shape (row : Row) : Except ExecuteError Row :=
  if s.valueMode then
    match extractValueExpr s.projection with
    | some expr => valueRow ctx.eval expr row
    | none => .ok row
  else projectRow ctx.kinds ctx.eval s.projection row

/-- What tells two results apart for `DISTINCT`. -/
def distinctKey (row : Row) : String :=
  if s.valueMode && (extractValueExpr s.projection).isSome then
    (row.scalarValue.map serializeValue).getD ""
  else rowKey row

/-- Shape the rows one by one, keep the first of those with one key under `DISTINCT`, skip
`OFFSET` of them and stop after `LIMIT`. -/
def yields (rows : List Row) : Pull ExecuteError Row :=
  let shaped := (Pull.ofList rows).mapM (s.shape ctx)
  let distinct := if s.distinct then shaped.dedupBy s.distinctKey [] else shaped
  let skipped := match s.offset with
    | some count => distinct.drop count
    | none => distinct
  match s.limit with
  | some count => skipped.take count
  | none => skipped

/-- The reference pipeline over all rows: order them, then read what they yield. -/
def reference (rows : List Row) : Except ExecuteError (List Row) :=
  match s.ordered ctx rows with
  | .error e => .error e
  | .ok rows => (s.yields ctx rows).collect

end Reference

end SelectAst

end Statement

/-! ## Reading a collection in chunks -/

section Scan

/-- A page of documents, and the key of its last one if more follow. -/
def docsPage (docs : List Document) (limit : Nat) : List Document × Option String :=
  if limit < docs.length then (docs.take limit, (docs.take limit).getLast?.map (·.key))
  else (docs, none)

/-- Pages of a list of documents: the first one, and those behind a document. -/
structure PagesOf (pages : DocumentPages) (all : List Document) : Prop where
  first : ∀ limit, pages none limit = .ok (docsPage all limit)
  after : ∀ front d rest, all = front ++ d :: rest → ∀ limit,
    pages (some d.key) limit = .ok (docsPage rest limit)

/-- The database as a source of pages. -/
def Database.pages (db : Database) (collection : String) : DocumentPages :=
  fun after limit => .ok (db.listDocuments collection after limit)

theorem Database.pagesOf (db : Database) (collection : String) :
    PagesOf (db.pages collection) (db.storedDocuments collection) := by
  have hpage : ∀ (items : List (Bytes × Document)) limit,
      entriesPage items limit = docsPage (items.map (·.2)) limit := by
    intro items limit
    unfold entriesPage docsPage
    rw [List.length_map, ← List.map_take, List.getLast?_map, Option.map_map]
    rfl
  constructor
  · intro limit
    show Except.ok (db.listDocuments collection none limit) = _
    rw [db.listDocuments_none, hpage]
    rfl
  · intro front d rest hall limit
    obtain ⟨front', tail, hlist, hfront, htail⟩ := List.map_eq_append_iff.mp hall
    obtain ⟨e, rest', rfl, rfl, rfl⟩ := List.map_eq_cons_iff.mp htail
    show Except.ok (db.listDocuments collection (some e.2.key) limit) = _
    rw [db.listDocuments_after hlist, hpage]

namespace TableScanOp

variable {pages : DocumentPages} {all : List Document}

/-- The limit has been reached. -/
def Reached (op : TableScanOp) : Prop := op.limit.any (fun limit => limit ≤ op.totalYielded) = true

/-- The scan still has to hand out `left`: the rest of its chunk, and what its cursor leads to. -/
def Reading (pages : DocumentPages) (all : List Document) (op : TableScanOp)
    (left : List Document) : Prop :=
  ∃ front rest, all = front ++ rest ∧ left = op.chunk.drop op.chunkPos ++ rest ∧
    (op.exhausted = true → rest = [] ∨ op.Reached) ∧
    (op.exhausted = false → ∀ n, pages op.cursor n = .ok (docsPage rest n))

/-- A chunk is the front of what was left. -/
theorem reading_fetchChunk (hpages : PagesOf pages all) {op : TableScanOp} {left : List Document}
    (h : Reading pages all op left) (hchunk : op.chunk.length ≤ op.chunkPos)
    (hmore : op.exhausted = false) (hreached : ¬ op.Reached) :
    ∃ op', fetchChunk pages op = .ok op' ∧ Reading pages all op' left ∧ op'.limit = op.limit ∧
      op'.totalYielded = op.totalYielded ∧ op'.chunkPos = 0 ∧ (left ≠ [] → op'.chunk ≠ []) := by
  obtain ⟨front, rest, hall, hleft, -, hcursor⟩ := h
  rw [List.drop_eq_nil_of_le hchunk, List.nil_append] at hleft
  subst hleft
  set size := min ((op.limit.map (· - op.totalYielded)).getD scanChunkSize) scanChunkSize with hsize
  have hpos : size ≠ 0 := by
    rw [hsize]
    cases hlimit : op.limit with
    | none =>
      show min scanChunkSize scanChunkSize ≠ 0
      decide
    | some limit =>
      have hlt : ¬ limit ≤ op.totalYielded := fun hle => hreached (by simp [Reached, hlimit, hle])
      show min (limit - op.totalYielded) 1000 ≠ 0
      omega
  have hfetch : fetchChunk pages op =
      .ok { op with
        exhausted := (docsPage left size).2.isNone
        cursor := (docsPage left size).2
        chunk := (docsPage left size).1
        chunkPos := 0 } := by
    unfold fetchChunk
    dsimp only
    rw [← hsize, if_neg hpos, hcursor hmore]
  refine ⟨_, hfetch, ?_, rfl, rfl, rfl, ?_⟩
  · by_cases hlt : size < left.length
    · -- more follows: the cursor is the key of the last document of the chunk
      have htake : left.take size ≠ [] := by
        rw [ne_eq, List.take_eq_nil_iff]
        rintro (h | rfl)
        · exact hpos h
        · exact Nat.not_lt_zero _ hlt
      obtain ⟨init, d, hd⟩ := (List.eq_nil_or_concat' (left.take size)).resolve_left htake
      have hsplit : left = init ++ d :: left.drop size := by
        rw [← List.singleton_append, ← List.append_assoc, ← hd, List.take_append_drop]
      have hpage : docsPage left size = (left.take size, some d.key) := by
        unfold docsPage
        rw [if_pos hlt, hd, List.getLast?_append, List.getLast?_singleton]
        rfl
      refine ⟨front ++ left.take size, left.drop size, ?_, ?_, ?_, ?_⟩
      · rw [List.append_assoc, List.take_append_drop]
        exact hall
      · rw [hpage]
        exact (List.take_append_drop size left).symm
      · rw [hpage]
        exact nofun
      · rw [hpage]
        intro _ n
        refine hpages.after (front ++ init) d _ ?_ n
        rw [List.append_assoc, ← hsplit]
        exact hall
    · have hpage : docsPage left size = (left, none) := if_neg hlt
      refine ⟨all, [], by simp, ?_, fun _ => Or.inl rfl, ?_⟩
      · rw [hpage, List.append_nil]
        rfl
      · rw [hpage]
        exact nofun
  · intro hne
    show (docsPage left size).1 ≠ []
    unfold docsPage
    split
    · rw [ne_eq, List.take_eq_nil_iff]
      rintro (h | h)
      · exact hpos h
      · exact hne h
    · exact hne

theorem handOut_reading {op : TableScanOp} {d : Document} {left : List Document}
    (h : Reading pages all op (d :: left)) (hchunk : op.chunkPos < op.chunk.length) :
    ∃ op', op.handOut = some (.fromDoc d, op') ∧ Reading pages all op' left ∧
      op'.limit = op.limit ∧ op'.totalYielded = op.totalYielded + 1 := by
  obtain ⟨front, rest, hall, hleft, hend, hcursor⟩ := h
  rw [List.drop_eq_getElem_cons hchunk, List.cons_append, List.cons.injEq] at hleft
  have hget : op.chunk[op.chunkPos]? = some d := by
    rw [List.getElem?_eq_getElem hchunk, ← hleft.1]
  refine ⟨{ op with chunkPos := op.chunkPos + 1, totalYielded := op.totalYielded + 1 }, ?_,
    ⟨front, rest, hall, hleft.2, ?_, hcursor⟩, rfl, rfl⟩
  · unfold handOut
    rw [hget]
    rfl
  · intro hexhausted
    refine (hend hexhausted).imp_right fun hreached => ?_
    unfold Reached at hreached ⊢
    cases hlimit : op.limit with
    | none => rw [hlimit] at hreached; cases hreached
    | some limit =>
      rw [hlimit] at hreached
      have hle : limit ≤ op.totalYielded := of_decide_eq_true hreached
      exact decide_eq_true (Nat.le_succ_of_le hle)

/-- One pull: nothing at the limit or at the end, else the next document. -/
theorem next_reading (hpages : PagesOf pages all) {op : TableScanOp} {left : List Document}
    (h : Reading pages all op left) :
    (op.Reached ∨ left = [] → next pages op = .ok none) ∧
      (¬ op.Reached → ∀ d ds, left = d :: ds → ∃ op', next pages op = .ok (some (.fromDoc d, op')) ∧
        Reading pages all op' ds ∧ op'.limit = op.limit ∧
        op'.totalYielded = op.totalYielded + 1) := by
  by_cases hreached : op.Reached
  · exact ⟨fun _ => if_pos hreached, fun hnot => absurd hreached hnot⟩
  unfold next
  rw [show (op.limit.any fun limit => limit ≤ op.totalYielded) = false from
    Bool.eq_false_iff.mpr hreached, if_neg Bool.false_ne_true]
  by_cases hchunk : op.chunk.length ≤ op.chunkPos
  · rw [if_pos hchunk]
    cases hmore : op.exhausted with
    | true =>
      obtain ⟨front, rest, -, hleft, hend, -⟩ := h
      rw [List.drop_eq_nil_of_le hchunk, List.nil_append,
        (hend hmore).resolve_right hreached] at hleft
      refine ⟨fun _ => rfl, fun _ d ds hds => ?_⟩
      rw [hleft] at hds
      cases hds
    | false =>
      obtain ⟨op', hfetch, hread, hlimit, htotal, hpos, hne⟩ :=
        reading_fetchChunk hpages h hchunk hmore hreached
      rw [hfetch]
      refine ⟨?_, fun _ d ds hds => ?_⟩
      · rintro (hlim | rfl)
        · exact absurd hlim hreached
        · -- nothing is left, so the chunk is empty
          obtain ⟨front, rest, -, hleft, -⟩ := hread
          rw [hpos, List.drop_zero] at hleft
          have hnil := (List.append_eq_nil_iff.mp hleft.symm).1
          show Except.ok op'.handOut = _
          unfold handOut
          rw [hnil]
          rfl
      · subst hds
        have hlen : op'.chunkPos < op'.chunk.length := by
          rw [hpos]
          exact List.length_pos_of_ne_nil (hne (List.cons_ne_nil d ds))
        obtain ⟨op'', hhand, hread', hlimit', htotal'⟩ := handOut_reading hread hlen
        refine ⟨op'', ?_, hread', hlimit'.trans hlimit, ?_⟩
        · show Except.ok op'.handOut = _
          rw [hhand]
        · rw [htotal', htotal]
  · rw [if_neg hchunk]
    refine ⟨?_, fun _ d ds hds => ?_⟩
    · rintro (hlim | rfl)
      · exact absurd hlim hreached
      · obtain ⟨front, rest, -, hleft, -⟩ := h
        have hnil := (List.append_eq_nil_iff.mp hleft.symm).1
        rw [List.drop_eq_nil_iff] at hnil
        exact absurd hnil hchunk
    · subst hds
      obtain ⟨op', hhand, hread⟩ := handOut_reading h (not_le.mp hchunk)
      exact ⟨op', by rw [hhand], hread⟩

/-- What a limit leaves of a list when some were handed out. -/
def leaves (limit : Option Nat) (yielded : Nat) (left : List Document) : List Document :=
  match limit with
  | some limit => left.take (limit - yielded)
  | none => left

theorem unfold_next (hpages : PagesOf pages all) (fuel : Nat) {op : TableScanOp}
    {left : List Document} (h : Reading pages all op left) (hfuel : left.length ≤ fuel) :
    Pull.unfold (next pages) fuel op =
      .ofList ((leaves op.limit op.totalYielded left).map Row.fromDoc) := by
  induction fuel generalizing op left with
  | zero =>
    obtain rfl := List.length_eq_zero_iff.mp (Nat.le_zero.mp hfuel)
    cases hlimit : op.limit <;> simp [Pull.unfold, leaves, Pull.ofList]
  | succ fuel ih =>
    obtain ⟨hstop, hgo⟩ := next_reading hpages h
    by_cases hreached : op.Reached
    · rw [Pull.unfold, hstop (Or.inl hreached)]
      cases hlimit : op.limit with
      | none => simp [Reached, hlimit] at hreached
      | some limit =>
        have hle : limit ≤ op.totalYielded := by simpa [Reached, hlimit] using hreached
        show Pull.done = .ofList ((left.take (limit - op.totalYielded)).map Row.fromDoc)
        rw [Nat.sub_eq_zero_of_le hle]
        rfl
    · cases hleft : left with
      | nil =>
        rw [Pull.unfold, hstop (Or.inr hleft)]
        cases op.limit <;> simp [leaves, Pull.ofList]
      | cons d ds =>
        obtain ⟨op', hnext, hread, hlimit, htotal⟩ := hgo hreached d ds hleft
        have hlen : ds.length ≤ fuel := by
          rw [hleft, List.length_cons] at hfuel
          omega
        rw [Pull.unfold, hnext]
        show Pull.yield (.fromDoc d) (Pull.unfold (next pages) fuel op') = _
        rw [ih hread hlen, hlimit, htotal]
        cases hlim : op.limit with
        | none => rfl
        | some limit =>
          have hlt : ¬ limit ≤ op.totalYielded := fun hle => hreached (by simp [Reached, hlim, hle])
          show _ = Pull.ofList (((d :: ds).take (limit - op.totalYielded)).map Row.fromDoc)
          rw [show limit - op.totalYielded = limit - (op.totalYielded + 1) + 1 by omega]
          rfl

/-- Opened and pulled to its end, a scan hands out the documents up to its limit. -/
theorem scan_yields (hpages : PagesOf pages all) (limit : Option Nat) {fuel : Nat}
    (hfuel : all.length ≤ fuel) :
    («open» pages limit).map (Pull.unfold (next pages) fuel) =
      .ok (.ofList ((leaves limit 0 all).map Row.fromDoc)) := by
  set op : TableScanOp := ⟨limit, [], 0, none, false, 0⟩ with hop
  have hread : Reading pages all op all := by
    refine ⟨[], all, rfl, rfl, ?_, fun _ n => hpages.first n⟩
    rw [hop]
    exact nofun
  by_cases hreached : op.Reached
  · -- a limit of zero fetches nothing
    cases limit with
    | none => simp [Reached, hop] at hreached
    | some limit =>
      obtain rfl : limit = 0 := by simpa [Reached, hop] using hreached
      show Except.ok (Pull.unfold (next pages) fuel ⟨some 0, [], 0, none, true, 0⟩) = _
      cases fuel <;> rfl
  · obtain ⟨op', hfetch, hread', hlimit, htotal, -⟩ :=
      reading_fetchChunk hpages hread (Nat.le_refl 0) rfl hreached
    have hopen : «open» pages limit = .ok op' := hfetch
    rw [hopen]
    show Except.ok (Pull.unfold (next pages) fuel op') = _
    rw [unfold_next hpages fuel hread' hfuel, hlimit, htotal]

end TableScanOp

end Scan

/-! ## The rows of a plan -/

section Exact

variable {Ω : Type} [External] [ValueText] [Arithmetic] [Numerics] (ctx : OperatorContext Ω)

/-- The context with a database to list documents from. -/
def OperatorContext.over (ctx : OperatorContext Ω) (db : Database) : OperatorContext Ω :=
  { ctx with listDocumentsPaged := db.pages }

theorem openOp_tableScan (db : Database) (collection : String) (limit : Option Nat)
    (hfuel : (db.storedDocuments collection).length ≤ ctx.fuel) :
    openOp (ctx.over db) (.tableScan collection limit) =
      .ok (.ofList ((TableScanOp.leaves limit 0 (db.storedDocuments collection)).map
        Row.fromDoc)) := by
  rw [openOp]
  exact TableScanOp.scan_yields (db.pagesOf collection) limit hfuel

variable {ctx} (s : SelectAst Ω)

/-- The clauses of a statement over an input that yields rows. -/
theorem openOp_clauses {input : PhysicalOp Ω (Clause Ω)} {rows : List Row}
    (h : openOp ctx input = .ok (.ofList rows)) :
    openOp ctx (applyOffsetAndLimit (applyProjectionAndOrder input s.clauses) s.clauses) =
      (s.ordered ctx rows).map (s.yields ctx) := by
  have horder : openOp ctx (withOrder input s.clauses.order) =
      (s.ordered ctx rows).map Pull.ofList := by
    unfold SelectAst.clauses SelectAst.ordered
    cases s.order with
    | none => exact h
    | some items =>
      show openOp ctx (.sort (.order items) input) = _
      rw [openOp, h]
      show sortOp ctx items (.ofList rows) =
        ((rows.mapM (keyedRow ctx.eval items)).map _).map Pull.ofList
      unfold sortOp
      rw [Pull.collect_mapM_ofList]
      cases rows.mapM (keyedRow ctx.eval items) <;> rfl
  -- shaping and removing repetitions
  have hshape : openOp ctx (applyProjectionAndOrder input s.clauses) =
      (s.ordered ctx rows).map fun rows =>
        let shaped := (Pull.ofList rows).mapM (s.shape ctx)
        if s.distinct then shaped.dedupBy s.distinctKey [] else shaped := by
    obtain ⟨projection, distinct, valueMode, filter, group, order, limit, offset⟩ := s
    cases valueMode with
    | false =>
      have hop : openOp ctx (.project (.projection projection)
          (withOrder input (order.map .order))) =
          (SelectAst.ordered ctx ⟨projection, distinct, false, filter, group, order, limit, offset⟩
            rows).map fun rows =>
              (Pull.ofList rows).mapM (projectRow ctx.kinds ctx.eval projection) := by
        rw [openOp]
        refine (congrArg _ horder).trans ?_
        cases SelectAst.ordered ctx _ rows <;> rfl
      cases distinct with
      | false => exact hop
      | true =>
        show openOp ctx (.distinct (.project (.projection projection)
          (withOrder input (order.map .order)))) = _
        rw [openOp, hop]
        cases SelectAst.ordered ctx _ rows <;> rfl
    | true =>
      cases hexpr : extractValueExpr projection with
      | some expr =>
        have hop : applyProjectionAndOrder input (SelectAst.clauses
            ⟨projection, distinct, true, filter, group, order, limit, offset⟩) =
            .value expr distinct (withOrder input (order.map .order)) := by
          show applyDistinctValue _ distinct true (extractValueExpr projection) = _
          rw [hexpr]
          rfl
        have hvalue : SelectAst.shape ctx
            ⟨projection, distinct, true, filter, group, order, limit, offset⟩ =
              valueRow ctx.eval expr := by
          funext row
          show (match extractValueExpr projection with
            | some expr => valueRow ctx.eval expr row
            | none => .ok row) = _
          rw [hexpr]
        have hkey : SelectAst.distinctKey
            ⟨projection, distinct, true, filter, group, order, limit, offset⟩ =
              fun row => (row.scalarValue.map serializeValue).getD "" := by
          funext row
          show (if (true && (extractValueExpr projection).isSome) = true then _ else _) = _
          rw [hexpr]
          rfl
        rw [hop, openOp, hvalue, hkey]
        refine (congrArg _ horder).trans ?_
        cases SelectAst.ordered ctx _ rows <;> rfl
      | none =>
        have hop : applyProjectionAndOrder input (SelectAst.clauses
            ⟨projection, distinct, true, filter, group, order, limit, offset⟩) =
            if distinct then .distinct (withOrder input (order.map .order))
            else withOrder input (order.map .order) := by
          show applyDistinctValue _ distinct true (extractValueExpr projection) = _
          rw [hexpr]
          rfl
        have hvalue : SelectAst.shape ctx
            ⟨projection, distinct, true, filter, group, order, limit, offset⟩ = .ok := by
          funext row
          show (match extractValueExpr projection with
            | some expr => valueRow ctx.eval expr row
            | none => .ok row) = _
          rw [hexpr]
        have hkey : SelectAst.distinctKey
            ⟨projection, distinct, true, filter, group, order, limit, offset⟩ = rowKey := by
          funext row
          show (if (true && (extractValueExpr projection).isSome) = true then _ else _) = _
          rw [hexpr]
          rfl
        rw [hop, hvalue, hkey]
        simp only [Pull.mapM_ok]
        cases distinct with
        | false => exact horder
        | true =>
          show openOp ctx (.distinct (withOrder input (order.map .order))) = _
          rw [openOp]
          refine (congrArg _ horder).trans ?_
          cases SelectAst.ordered ctx _ rows <;> rfl
  have hoffset : ∀ (op : PhysicalOp Ω (Clause Ω)) (out : Except ExecuteError (Pull ExecuteError Row)),
      openOp ctx op = out → openOp ctx (applyOffsetAndLimit op s.clauses) = out.map fun rows =>
        let skipped := match s.offset with
          | some count => rows.drop count
          | none => rows
        match s.limit with
          | some count => skipped.take count
          | none => skipped := by
    intro op out hop
    have hskip : openOp ctx (match s.offset with
        | some count => .offset count op
        | none => op) = out.map fun rows =>
          match s.offset with
          | some count => rows.drop count
          | none => rows := by
      cases s.offset with
      | none =>
        refine hop.trans ?_
        cases out <;> rfl
      | some count =>
        show openOp ctx (.offset count op) = _
        rw [openOp, hop]
    unfold applyOffsetAndLimit SelectAst.clauses
    cases s.limit with
    | none => exact hskip
    | some count =>
      show openOp ctx (.limit count _) = _
      rw [openOp]
      refine (congrArg _ hskip).trans ?_
      cases out <;> rfl
  rw [hoffset _ _ hshape]
  cases s.ordered ctx rows <;> rfl

/-- The reference reads what the clauses yield. -/
theorem collectAll_clauses {input : PhysicalOp Ω (Clause Ω)} {rows : List Row}
    (h : openOp ctx input = .ok (.ofList rows)) :
    collectAll ctx (applyOffsetAndLimit (applyProjectionAndOrder input s.clauses) s.clauses) =
      s.reference ctx rows := by
  unfold collectAll SelectAst.reference
  rw [openOp_clauses s h]
  cases s.ordered ctx rows <;> rfl

/-- A plain `SELECT` gives the rows of the reference pipeline over all documents in key order. -/
theorem select_exact (ctx : OperatorContext Ω) (db : Database) (opt : Optimizer)
    (collection : String) (s : SelectAst Ω) (hfilter : s.filter = none)
    (hfuel : (db.storedDocuments collection).length ≤ ctx.fuel) :
    collectAll (ctx.over db) (opt.optimize (s.scanPlan collection none)) =
      s.reference (ctx.over db) ((db.storedDocuments collection).map Row.fromDoc) := by
  have hplan : opt.optimize (s.scanPlan collection none) =
      applyOffsetAndLimit (applyProjectionAndOrder
        (.tableScan collection
          (if (s.clauses.order.isNone && !s.distinct && !s.valueMode && s.offset.isNone) = true then
            s.limit else none)) s.clauses) s.clauses := by
    unfold SelectAst.scanPlan
    rw [hfilter]
    rfl
  rw [hplan]
  split
  · next hpush =>
    -- only a projection stands between the limit and the scan
    rw [collectAll_clauses s (openOp_tableScan ctx db collection s.limit hfuel)]
    set docs := db.storedDocuments collection with hdocs
    obtain ⟨projection, distinct, valueMode, filter, group, order, limit, offset⟩ := s
    cases limit with
    | none => rfl
    | some n =>
      simp only [SelectAst.clauses, Bool.and_eq_true, Option.isNone_iff_eq_none,
        Option.map_eq_none_iff, Bool.not_eq_true'] at hpush
      obtain ⟨⟨⟨rfl, rfl⟩, rfl⟩, rfl⟩ := hpush
      show (((Pull.ofList ((docs.take (n - 0)).map Row.fromDoc)).mapM _).take n).collect =
        (((Pull.ofList (docs.map Row.fromDoc)).mapM _).take n).collect
      rw [Nat.sub_zero, List.map_take, Pull.take_mapM_ofList]
  · exact collectAll_clauses s (openOp_tableScan ctx db collection none hfuel)

end Exact

/-! ## Two rooms -/

namespace Rooms

open Items

local instance : External := .standIn

local instance : Numerics := .standIn

local instance : ValueText := .standIn

local instance : Arithmetic := .standIn

def room (id : String) (size : Int64) : Document where
  id := id
  fields := [("size", .int size)]
  wf := rfl

def rooms : Database :=
  runWrites (fresh []) [.call .none (.create (room "items:1" 40)),
    .call .none (.create (room "items:2" 25))]

def context (fuel : Nat) : OperatorContext Empty where
  eval := People.context
  kinds := ⟨Empty.elim, Empty.elim, Empty.elim⟩
  listDocumentsPaged _ _ _ := .ok ([], none)
  indexDocs _ _ := .ok []
  ftsRows _ _ _ := .ok []
  knnRows _ _ := .ok []
  fuel := fuel

/-- `SELECT VALUE size FROM items ORDER size LIMIT 1` -/
def smallest : SelectAst Empty where
  projection := .items [⟨.field "size", none⟩]
  distinct := false
  valueMode := true
  filter := none
  group := none
  order := some [⟨.field "size", .asc⟩]
  limit := some 1
  offset := none

example : (collectAll ((context 2).over rooms)
    (Optimizer.optimize ⟨fun _ => [], fun _ => .insertion⟩ (smallest.scanPlan "items" none))).map
      (·.map fun row => row.scalarValue.any (·.beq (.int 25))) = .ok [true] := by
  decide +kernel

theorem smallest_exact :
    collectAll ((context 2).over rooms)
        (Optimizer.optimize ⟨fun _ => [], fun _ => .insertion⟩ (smallest.scanPlan "items" none)) =
      smallest.reference ((context 2).over rooms)
        ((rooms.storedDocuments "items").map Row.fromDoc) :=
  select_exact (context 2) rooms _ "items" smallest rfl (by decide +kernel)

end Rooms

end StellarDb
