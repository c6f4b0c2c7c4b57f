import StellarDb.Schema.Collection

/-!
# StellarDb — CREATE INDEX requests (`query/execute/ddl.rs`)

`prepareCreateIndex` checks a request and makes the definition that is built and stored. The name
of the index is made of the collection and the fields; that no index has the fields already is all
that is checked of the indexes there are.
-/

namespace StellarDb

open Keyspaces

/-! ## Requests -/

/-- A CREATE INDEX request. -/
structure CreateIndex where
  fields : List String
  unique : Bool
  indexType : IndexType
  hnswParams : Option HnswParams
  analyzer : Option String
  deriving DecidableEq, Repr

namespace CreateIndex

/-- The definition that `prepare_create_index` makes of an accepted request. -/
def definition (r : CreateIndex) (collection : String) : IndexDefinition where
  name := generateIndexName collection r.indexType r.fields
  fields := r.fields
  unique := r.unique
  indexType := r.indexType
  hnswParams := r.hnswParams
  analyzer := if r.indexType = .fullText then some (r.analyzer.getD "standard") else none

/-- The request a worker makes of a definition. -/
def ofDefinition (d : IndexDefinition) : CreateIndex :=
  ⟨d.fields, d.unique, d.indexType, d.hnswParams, d.analyzer⟩

/-- Preparing a definition again gives the same one. -/
theorem definition_ofDefinition (r : CreateIndex) (collection : String) :
    (ofDefinition (r.definition collection)).definition collection = r.definition collection := by
  unfold ofDefinition definition
  by_cases h : r.indexType = .fullText
  · simp [h]
  · simp [h]

end CreateIndex

/-! ## Preparing a request -/

inductive PrepareError where
  | name (e : StorageError)
  | collectionNotFound (collection : String)
  | indexAlreadyExists (collection fields : String)
  | analyzerNotFound (name : String)
  | internal (msg : String)
  deriving DecidableEq, Repr

/-- What the check of a request reads of the database. -/
structure CreateContext where
  collectionExists : String → Bool
  /-- The registered indexes of a collection. -/
  registry : String → List IndexDefinition
  analyzerExists : String → Bool

def checkName (kind name : String) : Except PrepareError Unit :=
  match validateName kind name with
  | .ok () => .ok ()
  | .error e => .error (.name e)

def checkNames (kind : String) : List String → Except PrepareError Unit
  | [] => .ok ()
  | name :: names =>
    match checkName kind name with
    | .error e => .error e
    | .ok () => checkNames kind names

def CreateContext.hasIndex (ctx : CreateContext) (collection : String) (fields : List String) :
    Bool :=
  (ctx.registry collection).any (·.fields = fields)

/-- A full-text index needs an analyzer there is, any other none. -/
def CreateIndex.checkAnalyzer (ctx : CreateContext) (r : CreateIndex) : Except PrepareError Unit :=
  if r.indexType = .fullText then
    if ctx.analyzerExists (r.analyzer.getD "standard") then .ok ()
    else .error (.analyzerNotFound (r.analyzer.getD "standard"))
  else if r.analyzer.isSome then
    .error (.internal "ANALYZER can only be specified for FULLTEXT indexes")
  else .ok ()

def prepareCreateIndex (ctx : CreateContext) (collection : String) (r : CreateIndex) :
    Except PrepareError IndexDefinition :=
  match checkNames "field" r.fields with
  | .error e => .error e
  | .ok () =>
    if !ctx.collectionExists collection then .error (.collectionNotFound collection)
    else if ctx.hasIndex collection r.fields then
      .error (.indexAlreadyExists collection (", ".intercalate r.fields))
    else
      match r.checkAnalyzer ctx with
      | .error e => .error e
      | .ok () =>
        match checkName "index" (r.definition collection).name with
        | .error e => .error e
        | .ok () => .ok (r.definition collection)

theorem checkName_ok {kind name : String} :
    checkName kind name = .ok () ↔ validateName kind name = .ok () := by
  unfold checkName
  cases validateName kind name with
  | ok u => exact iff_of_true rfl rfl
  | error e => exact iff_of_false nofun nofun

/-- What an accepted request has passed. -/
structure CreateIndex.Accepted (r : CreateIndex) (ctx : CreateContext) (collection : String) :
    Prop where
  fields : ∀ field ∈ r.fields, validateName "field" field = .ok ()
  collectionExists : ctx.collectionExists collection = true
  new : ctx.hasIndex collection r.fields = false
  analyzer : r.checkAnalyzer ctx = .ok ()
  name : validateName "index" (r.definition collection).name = .ok ()

theorem checkNames_ok {kind : String} {names : List String} :
    checkNames kind names = .ok () ↔ ∀ name ∈ names, validateName kind name = .ok () := by
  induction names with
  | nil => simp [checkNames]
  | cons name names ih =>
    rw [checkNames, List.forall_mem_cons, ← ih, ← checkName_ok]
    cases checkName kind name with
    | ok u => exact (and_iff_right rfl).symm
    | error e => exact iff_of_false nofun fun h => nomatch h.1

theorem prepareCreateIndex_ok {ctx : CreateContext} {collection : String} {r : CreateIndex}
    {index : IndexDefinition} :
    prepareCreateIndex ctx collection r = .ok index ↔
      r.Accepted ctx collection ∧ index = r.definition collection := by
  unfold prepareCreateIndex
  constructor
  · intro h
    split at h
    · cases h
    · next hfields =>
      split at h
      · cases h
      · next hexists =>
        split at h
        · cases h
        · next hnew =>
          split at h
          · cases h
          · next hanalyzer =>
            split at h
            · cases h
            · next hname =>
              exact ⟨⟨checkNames_ok.mp hfields, by simpa using hexists, by simpa using hnew,
                hanalyzer, checkName_ok.mp hname⟩, (Except.ok.inj h).symm⟩
  · rintro ⟨haccepted, rfl⟩
    rw [checkNames_ok.mpr haccepted.fields, haccepted.collectionExists, haccepted.new]
    dsimp only
    rw [haccepted.analyzer, checkName_ok.mpr haccepted.name]
    rfl

end StellarDb
