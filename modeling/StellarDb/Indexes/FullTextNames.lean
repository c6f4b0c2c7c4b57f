import StellarDb.Lib.Joined
import StellarDb.Schema.CreateIndex
import StellarDb.Indexes.Reindex

/-!
# StellarDb — the names of a full-text index

A build is promoted, and a search looks, under the name in the definition, which
`generateIndexName` makes of the fields with their dots replaced. Startup, document writes, REINDEX
and DROP INDEX make the name of the fields as they are (`ftsIndexName`). The two are the same
exactly if no field has a dot (`fullText_name_iff`).

Then the index that a search reads has the last versions of all documents after any writes,
restarts and rebuilds, and is gone after a drop (`fullText_one_iff`), if the collection has no
colon in its name: the backend takes the collection of a document from its id.
-/

namespace StellarDb

open Keyspaces Joined FtsIndex

/-! ## Two names -/

theorem mem_replaceDots (field : String) : '.' ∉ (replaceDots field).toList := by
  unfold replaceDots
  rw [String.toList_ofList]
  intro h
  obtain ⟨c, -, hc⟩ := List.mem_map.mp h
  split at hc
  · cases hc
  · next hne => exact hne hc

theorem replaceDots_eq_self {field : String} (h : '.' ∉ field.toList) :
    replaceDots field = field := by
  have hmap : field.toList.map (fun c => if c = '.' then '_' else c) = field.toList := by
    refine (List.map_congr_left fun c hc => ?_).trans (List.map_id field.toList)
    rw [if_neg fun heq : c = '.' => h (heq ▸ hc)]
    rfl
  rw [replaceDots, hmap, String.ofList_toList]

theorem dot_mem_joined {parts : List String} :
    '.' ∈ ("_".intercalate parts ++ "_fts").toList ↔ ∃ part ∈ parts, '.' ∈ part.toList := by
  rw [String.toList_append, List.mem_append, String.toList_intercalate]
  rw [show "_".toList = ['_'] from rfl, mem_intercalate (by decide)]
  simp

/-- The name in a definition is the one that the backend makes exactly if no field has a dot. -/
theorem fullText_name_iff (collection : String) (fields : List String) :
    generateIndexName collection .fullText fields = ftsIndexName fields ↔
      ∀ field ∈ fields, '.' ∉ field.toList := by
  have hsorted : ∀ field, field ∈ sortedFields fields ↔ field ∈ fields :=
    fun field => List.mem_mergeSort
  constructor
  · intro heq field hfield hdot
    have hmem : '.' ∈ (ftsIndexName fields).toList :=
      dot_mem_joined.mpr ⟨field, (hsorted field).mpr hfield, hdot⟩
    rw [← heq] at hmem
    obtain ⟨part, hpart, hdot'⟩ := dot_mem_joined.mp hmem
    obtain ⟨field', -, rfl⟩ := List.mem_map.mp (List.mem_mergeSort.mp hpart)
    exact mem_replaceDots field' hdot'
  · intro hplain
    have hmap : fields.map replaceDots = fields :=
      (List.map_congr_left fun field hfield => replaceDots_eq_self (hplain field hfield)).trans
        (List.map_id fields)
    unfold generateIndexName ftsIndexName sortedFields
    dsimp only
    rw [hmap]

/-! ## The life of an index -/

def builtinAnalyzers : List String :=
  ["standard", "keyword", "arabic", "danish", "dutch", "english", "finnish", "french", "german",
    "greek", "hungarian", "italian", "norwegian", "portuguese", "romanian", "russian", "spanish",
    "swedish", "tamil", "turkish"]

/-- The documents of the collection, and the backend. -/
structure FtsLife where
  stored : DocStore
  index : FtsIndex
  /-- Whether the database is open. -/
  opened : Bool

inductive FtsEvent where
  | put (doc : Document)
  | remove (docId : String)
  | restart
  | reindex

namespace FtsLife

variable [External] [Formats]

/-- At startup indexes are opened before custom analyzers are loaded; an index that needs one
keeps the database from opening. -/
def restart (collection : String) (d : IndexDefinition) (s : FtsLife) : FtsLife :=
  let closed : FtsIndex := ⟨∅, s.index.commitAll.dirs, builtinAnalyzers⟩
  match closed.openExisting collection (ftsIndexName d.fields) d.analyzer with
  | (index, .ok _) => { s with index := { index with analyzers := s.index.analyzers } }
  | (index, .error _) => { s with index := index, opened := false }

def step (collection : String) (d : IndexDefinition) (s : FtsLife) (event : FtsEvent) : FtsLife :=
  if !s.opened then s
  else
    match event with
    | .put doc =>
      { s with
          stored := s.stored.put doc
          index := (s.index.updateDocument d.fields (s.stored.get doc.id) (some doc)).1 }
    | .remove docId =>
      match s.stored.get docId with
      | none => s
      | some old =>
        { s with
            stored := s.stored.remove docId
            index := (s.index.updateDocument d.fields (some old) none).1 }
    | .restart => s.restart collection d
    | .reindex =>
      { s with
          index :=
            (reindexSingle s.index (quietEnv s.stored.all) collection d.fields d.analyzer).1.index }

/-- The entries that the index should have for a document. -/
def expected (fields : List String) (s : FtsLife) (docId : String) : List FtsEntry :=
  (s.stored.get docId).toList.map (ftsEntry fields fields)

end FtsLife

/-- Ids of the documents of a collection. -/
def IdOf (collection docId : String) : Prop := ∃ key : String, docId = collection ++ ":" ++ key

/-- The event is about a document of the collection. -/
def FtsEvent.In (collection : String) : FtsEvent → Prop
  | .put doc => IdOf collection doc.id
  | .remove docId => IdOf collection docId
  | .restart | .reindex => True

section Life

variable [External] [Formats]

/-- A build of all the documents, ready to be promoted. -/
structure Built (collection buildName : String) (d : IndexDefinition) (s : FtsLife) : Prop where
  docs : ∀ docId doc, s.stored.get docId = some doc → IdOf collection docId
  build : ∃ inst dir, s.index.instances.lookup (collection, buildName) = some (.active inst) ∧
    s.index.dirs (collection, buildName) = some dir ∧ dir.contentFields = d.fields ∧
    ∀ docId, inst.entries docId = s.expected d.fields docId
  analyzer : d.analyzer.getD defaultAnalyzer ∈ s.index.analyzers
  opened : s.opened = true

/-- The promotion of a build. -/
def Promoted (collection : String) (d : IndexDefinition) (s : FtsLife) : Prop :=
  ∃ (built : FtsLife) (buildName : String), Built collection buildName d built ∧
    built.index.promoteBuild collection buildName d.name d.analyzer = (s.index, .ok ()) ∧
    s.stored = built.stored ∧ s.opened = built.opened

/-- After a promotion and any events of its collection. -/
def Lived (collection : String) (d : IndexDefinition) (s : FtsLife) : Prop :=
  ∃ (promoted : FtsLife) (events : List FtsEvent), Promoted collection d promoted ∧ (∀ e ∈ events, e.In collection) ∧
    events.foldl (FtsLife.step collection d) promoted = s ∧ s.opened = true

/-- All paths of the code are about one index. -/
structure OneIndex (collection : String) (d : IndexDefinition) : Prop where
  name : d.name = ftsIndexName d.fields
  reached : ∀ s, Lived collection d s → ∃ inst, s.index.search collection d.name = .ok inst ∧
    ∀ docId, inst.entries docId = s.expected d.fields docId
  dropped : ∀ s, Lived collection d s →
    (s.index.removeIndex collection (ftsIndexName d.fields)).getIndex collection d.name = none ∧
    (s.index.removeIndex collection (ftsIndexName d.fields)).dirs (collection, d.name) = none

/-! ## What holds through the life of an index -/

omit [External] [Formats] in
theorem collection_of_idOf {collection : String} (hcolon : ':' ∉ collection.toList) {doc : Document}
    (h : IdOf collection doc.id) : doc.collection = collection := by
  obtain ⟨key, hid⟩ := h
  unfold Document.collection
  rw [hid, String.toList_append, String.toList_append, List.append_assoc]
  have hfront : ∀ c ∈ collection.toList, decide (c ≠ ':') = true :=
    fun c hc => decide_eq_true fun heq => hcolon (heq ▸ hc)
  rw [List.takeWhile_append_of_pos hfront]
  show String.ofList (collection.toList ++ List.takeWhile _ (':' :: key.toList)) = _
  rw [List.takeWhile_cons_of_neg (by simp), List.append_nil, String.ofList_toList]

omit [External] [Formats] in
/-- The directory of a full-text index is no shadow. -/
theorem ftsKey_ne_shadow (collection : String) (fields : List String) (key : FtsKey) :
    (collection, ftsIndexName fields) ≠ shadowKey key := by
  intro h
  have hname : ftsIndexName fields = key.2 ++ "_shadow" := congrArg Prod.snd h
  have hlast := congrArg (fun name => name.toList.getLast?) hname
  unfold ftsIndexName at hlast
  simp only [String.toList_append] at hlast
  rw [List.getLast?_append, List.getLast?_append] at hlast
  cases hlast

/-- The index under the name that the backend makes has the last versions, and so has its
directory after a commit. -/
structure Mirrors (collection : String) (d : IndexDefinition) (s : FtsLife) : Prop where
  docs : ∀ docId doc, s.stored.get docId = some doc → IdOf collection docId
  analyzer : d.analyzer.getD defaultAnalyzer ∈ s.index.analyzers
  inst : ∃ inst,
    s.index.instances.lookup (collection, ftsIndexName d.fields) = some (.active inst) ∧
      inst.contentFields = d.fields ∧ ∀ docId, inst.entries docId = s.expected d.fields docId
  dir : ∃ dir, s.index.dirs (collection, ftsIndexName d.fields) = some dir ∧
    dir.contentFields = d.fields

variable {collection : String} {d : IndexDefinition} {s : FtsLife}

theorem Promoted.toMirrors (h : Promoted collection d s) (hname : d.name = ftsIndexName d.fields) :
    Mirrors collection d s ∧ s.opened = true := by
  obtain ⟨built, buildName, hbuilt, hpromote, hstored, hopened⟩ := h
  obtain ⟨inst, dir, hlookup, hdir, hcontent, hentries⟩ := hbuilt.build
  obtain ⟨hlookup', hdir', hanalyzers⟩ := promoteBuild_ok hlookup hdir hpromote
  rw [hname] at hlookup' hdir'
  refine ⟨⟨fun docId doc hget => ?_, ?_, ⟨_, hlookup', hcontent, fun docId => ?_⟩,
    ⟨_, hdir', hcontent⟩⟩, hopened.trans hbuilt.opened⟩
  · exact hbuilt.docs docId doc (hstored ▸ hget)
  · rw [hanalyzers]
    exact hbuilt.analyzer
  · unfold FtsLife.expected
    rw [hstored]
    exact hentries docId

/-- A write of a document of the collection. -/
theorem Mirrors.update (h : Mirrors collection d s) (hcolon : ':' ∉ collection.toList)
    {docId : String} (hid : IdOf collection docId) {newDoc : Option Document} {stored : DocStore}
    (hnew : ∀ doc, newDoc = some doc → doc.id = docId)
    (hpresent : (s.stored.get docId).isSome ∨ newDoc.isSome)
    (hself : stored.get docId = newDoc)
    (hother : ∀ docId', docId' ≠ docId → stored.get docId' = s.stored.get docId') :
    Mirrors collection d
      { s with
          stored := stored
          index := (s.index.updateDocument d.fields (s.stored.get docId) newDoc).1 } := by
  obtain ⟨inst, hlookup, hcontent, hentries⟩ := h.inst
  have hold : ∀ doc, s.stored.get docId = some doc → doc.id = docId :=
    fun doc hget => DocStore.id_of_get hget
  have hcollection : ((s.stored.get docId).map Document.collection).or
      (newDoc.map Document.collection) = some collection := by
    cases hget : s.stored.get docId with
    | some old => exact congrArg some (collection_of_idOf hcolon ((hold old hget).symm ▸ hid))
    | none =>
      rw [hget] at hpresent
      obtain ⟨new, hsome⟩ := Option.isSome_iff_exists.mp (hpresent.resolve_left nofun)
      rw [hsome]
      exact congrArg some (collection_of_idOf hcolon ((hnew new hsome).symm ▸ hid))
  have hupdate : (s.index.updateDocument d.fields (s.stored.get docId) newDoc).1 =
      s.index.setState (collection, ftsIndexName d.fields)
        (.active (inst.replace d.fields (s.stored.get docId) newDoc)) := by
    unfold updateDocument
    rw [hcollection]
    dsimp only
    rw [hlookup]
    rfl
  rw [hupdate]
  refine ⟨fun docId' doc hget => ?_, h.analyzer, ⟨_, lookup_setState .., ?_, fun docId' => ?_⟩,
    h.dir⟩
  · by_cases hne : docId' = docId
    · exact hne ▸ hid
    · exact h.docs docId' doc ((hother docId' hne).symm.trans hget)
  · unfold FtsInstance.replace
    rw [inst.deleteFor_eq hold hnew hpresent]
    cases newDoc with
    | none => exact hcontent
    | some new => exact hcontent
  · rw [inst.replace_entries d.fields hold hnew hpresent, hcontent]
    unfold FtsLife.expected
    split
    · next heq => rw [heq, hself]
    · next hne =>
      rw [hother docId' hne]
      exact hentries docId'

theorem Mirrors.restart (h : Mirrors collection d s)
    (hopened : (s.restart collection d).opened = true) :
    Mirrors collection d (s.restart collection d) := by
  obtain ⟨inst, hlookup, hcontent, hentries⟩ := h.inst
  obtain ⟨dir, hdir, hfields⟩ := h.dir
  have hsaved : s.index.commitAll.dirs (collection, ftsIndexName d.fields) =
      some { dir with entries := inst.entries } := by
    rw [s.index.commitAll_dirs hlookup (ftsKey_ne_shadow collection d.fields), hdir]
    rfl
  unfold FtsLife.restart openExisting at hopened ⊢
  dsimp only at hopened ⊢
  rw [if_neg (AList.notMem_empty _)] at hopened ⊢
  rw [hsaved] at hopened ⊢
  dsimp only at hopened ⊢
  cases hopen : openInstance _ _ _ with
  | error e =>
    rw [hopen] at hopened
    cases hopened
  | ok inst' =>
    obtain ⟨-, rfl⟩ := withAnalyzer_ok hopen
    exact ⟨h.docs, h.analyzer, ⟨_, lookup_setState .., hfields, hentries⟩, ⟨_, hsaved, hfields⟩⟩

theorem Mirrors.reindex (h : Mirrors collection d s) (hanalyzer : d.analyzer.isSome) :
    Mirrors collection d
      { s with
          index := (reindexSingle s.index (quietEnv s.stored.all) collection d.fields
            d.analyzer).1.index } := by
  obtain ⟨inst, hlookup, -, -⟩ := h.inst
  obtain ⟨name, hname⟩ := Option.isSome_iff_exists.mp hanalyzer
  have hknown : d.analyzer.getD inst.analyzerName ∈ s.index.analyzers := by
    have hmem := h.analyzer
    rw [hname] at hmem ⊢
    exact hmem
  obtain ⟨hlookup', hdir, hanalyzers⟩ := reindexSingle_quiet s.stored.all hlookup hknown
  refine ⟨h.docs, hanalyzers.symm ▸ h.analyzer, ⟨_, hlookup', rfl, fun docId => ?_⟩, hdir⟩
  unfold FtsLife.expected
  cases hget : s.stored.get docId with
  | some doc =>
    obtain rfl := DocStore.id_of_get hget
    exact fillShadow_mem s.stored.nodup_all (DocStore.mem_all.mpr hget)
  | none =>
    refine fillShadow_other fun doc hmem hid => ?_
    rw [DocStore.mem_all, hid, hget] at hmem
    cases hmem

theorem Mirrors.step (h : Mirrors collection d s) (hcolon : ':' ∉ collection.toList)
    (hanalyzer : d.analyzer.isSome) {event : FtsEvent} (hin : event.In collection)
    (hopened : (s.step collection d event).opened = true) :
    Mirrors collection d (s.step collection d event) := by
  unfold FtsLife.step at hopened ⊢
  split at hopened
  · next hclosed =>
    rw [if_pos hclosed]
    exact h
  · next hclosed =>
    rw [if_neg hclosed]
    cases event with
    | put doc =>
      refine h.update hcolon hin (fun new hnew => ?_) (Or.inr rfl) ?_ fun docId hne => ?_
      · rw [Option.some.inj hnew]
      · exact (DocStore.get_put ..).trans (if_pos rfl)
      · exact (DocStore.get_put ..).trans (if_neg (Ne.symm hne))
    | remove docId =>
      dsimp only at hopened ⊢
      cases hget : s.stored.get docId with
      | none => exact h
      | some old =>
        dsimp only
        rw [← hget]
        refine h.update hcolon hin (fun _ h => by cases h) (Or.inl (by rw [hget]; rfl)) ?_ fun docId' hne => ?_
        · exact (DocStore.get_remove ..).trans (if_pos rfl)
        · exact (DocStore.get_remove ..).trans (if_neg (Ne.symm hne))
    | restart => exact h.restart hopened
    | reindex => exact h.reindex hanalyzer

theorem FtsLife.opened_of_step {event : FtsEvent} (h : (s.step collection d event).opened = true) :
    s.opened = true := by
  by_contra hclosed
  unfold FtsLife.step at h
  rw [if_pos (by simpa using hclosed)] at h
  exact hclosed h

theorem Lived.toMirrors (h : Lived collection d s) (hname : d.name = ftsIndexName d.fields)
    (hcolon : ':' ∉ collection.toList) (hanalyzer : d.analyzer.isSome) :
    Mirrors collection d s := by
  obtain ⟨promoted, events, hpromoted, hin, hrun, hopened⟩ := h
  have hmirrors := (hpromoted.toMirrors hname).1
  clear hpromoted
  induction events generalizing promoted with
  | nil =>
    obtain rfl : promoted = s := hrun
    exact hmirrors
  | cons event events ih =>
    obtain ⟨hevent, hrest⟩ := List.forall_mem_cons.mp hin
    refine ih (promoted.step collection d event) hrest hrun ?_
    refine hmirrors.step hcolon hanalyzer hevent ?_
    -- a database that is open at the end has been open all the time
    have hopen : ∀ (events : List FtsEvent) (t : FtsLife),
        (events.foldl (FtsLife.step collection d) t).opened = true → t.opened = true := by
      intro events
      induction events with
      | nil => exact fun _ ht => ht
      | cons e events ih => exact fun t ht => FtsLife.opened_of_step (ih _ ht)
    exact hopen events _ (by rw [show events.foldl _ _ = s from hrun]; exact hopened)

/-! ## A collection with a colon in its name -/

omit [External] [Formats] in
theorem keyed_empty : ∀ {k : Bytes} {doc : Document}, (∅ : Keyspace Document)[k]? = some doc →
    utf8 doc.id = k := by
  simp

/-- A build of no documents. -/
def emptyBuild (collection : String) (d : IndexDefinition) : FtsLife where
  stored := ⟨∅, @keyed_empty⟩
  index :=
    { instances := AList.singleton (collection, "__build_")
        (.active ⟨d.fields, d.analyzer.getD defaultAnalyzer, fun _ => []⟩)
      dirs := Function.update (fun _ => none) (collection, "__build_") (some ⟨d.fields, fun _ => []⟩)
      analyzers := [d.analyzer.getD defaultAnalyzer] }
  opened := true

/-- The first document of a collection that has a colon in its name goes to another index. -/
theorem not_reached_of_colon (hcolon : ':' ∈ collection.toList) :
    ∃ s, Lived collection d s ∧ ∀ inst, s.index.search collection d.name = .ok inst →
      ∃ docId, inst.entries docId ≠ s.expected d.fields docId := by
  have hbuild : (emptyBuild collection d).index.instances.lookup (collection, "__build_") =
      some (.active ⟨d.fields, d.analyzer.getD defaultAnalyzer, fun _ => []⟩) := by
    simp [emptyBuild, AList.singleton, AList.lookup]
  have hdir : (emptyBuild collection d).index.dirs (collection, "__build_") =
      some ⟨d.fields, fun _ => []⟩ := by simp [emptyBuild]
  obtain ⟨index, hpromote⟩ : ∃ index, (emptyBuild collection d).index.promoteBuild collection
      "__build_" d.name d.analyzer = (index, .ok ()) := by
    unfold promoteBuild
    dsimp only
    rw [hbuild]
    dsimp only
    rw [saveDir_self, hdir]
    simp [openInstance, withAnalyzer, setDir, emptyBuild]
  obtain ⟨hlookup, -, -⟩ := promoteBuild_ok hbuild hdir hpromote
  let doc : Document := ⟨collection ++ ":" ++ "k", [], rfl⟩
  let promoted : FtsLife := { emptyBuild collection d with index := index }
  have hnone : ∀ docId, promoted.stored.get docId = none := fun docId => by
    simp [promoted, emptyBuild, DocStore.get]
  refine ⟨promoted.step collection d (.put doc), ?_, fun inst hsearch => ⟨doc.id, ?_⟩⟩
  · refine ⟨promoted, [.put doc], ⟨emptyBuild collection d, "__build_", ?_, hpromote, rfl, rfl⟩, ?_,
      rfl, rfl⟩
    · refine ⟨fun docId doc hget => ?_, ⟨_, _, hbuild, hdir, rfl, fun docId => ?_⟩,
        List.mem_cons_self, rfl⟩
      · rw [show (emptyBuild collection d).stored.get docId = none from hnone docId] at hget
        cases hget
      · unfold FtsLife.expected
        rw [show (emptyBuild collection d).stored.get docId = none from hnone docId]
        rfl
    · exact List.forall_mem_singleton.mpr ⟨"k", rfl⟩
  · have hkey : (FtsWrite.mk d.fields none (some doc)).key ≠ some (collection, d.name) := by
      intro hkey
      have hcollection : doc.collection = collection :=
        congrArg Prod.fst (Option.some.inj hkey)
      exact doc.colon_notMem_collection (hcollection.symm ▸ hcolon)
    have hafter := (index.updateDocument_lookup ⟨d.fields, none, some doc⟩ hlookup).1
    rw [if_neg hkey] at hafter
    have hstep : (promoted.step collection d (.put doc)).index =
        (index.updateDocument d.fields none (some doc)).1 := by
      show (index.updateDocument d.fields (promoted.stored.get doc.id) (some doc)).1 = _
      rw [hnone]
    unfold search at hsearch
    rw [hstep, hafter] at hsearch
    obtain rfl := Except.ok.inj hsearch
    have hstored : (promoted.step collection d (.put doc)).stored.get doc.id = some doc :=
      (DocStore.get_put ..).trans (if_pos rfl)
    unfold FtsLife.expected
    rw [hstored]
    exact (List.cons_ne_nil _ _).symm

/-- All paths of the code are about one index exactly if no field has a dot, in a collection
without a colon in its name. -/
theorem fullText_one_iff (ctx : CreateContext) (collection : String) (r : CreateIndex)
    {index : IndexDefinition} (h : prepareCreateIndex ctx collection r = .ok index)
    (hfullText : r.indexType = .fullText) :
    OneIndex collection index ↔
      (∀ field ∈ r.fields, '.' ∉ field.toList) ∧ ':' ∉ collection.toList := by
  obtain ⟨-, rfl⟩ := prepareCreateIndex_ok.mp h
  have hname : (r.definition collection).name = ftsIndexName r.fields ↔
      ∀ field ∈ r.fields, '.' ∉ field.toList := by
    show generateIndexName collection r.indexType r.fields = _ ↔ _
    rw [hfullText]
    exact fullText_name_iff collection r.fields
  have hanalyzer : (r.definition collection).analyzer.isSome := by
    unfold CreateIndex.definition
    rw [if_pos hfullText]
    rfl
  constructor
  · intro hone
    refine ⟨hname.mp hone.name, fun hcolon => ?_⟩
    obtain ⟨s, hlived, hmissed⟩ := not_reached_of_colon (d := r.definition collection) hcolon
    obtain ⟨inst, hsearch, hentries⟩ := hone.reached s hlived
    obtain ⟨docId, hne⟩ := hmissed inst hsearch
    exact hne (hentries docId)
  · rintro ⟨hplain, hcolon⟩
    have heq := hname.mpr hplain
    refine ⟨heq, fun s hlived => ?_, fun s _ => ?_⟩
    · obtain ⟨inst, hlookup, -, hentries⟩ := (hlived.toMirrors heq hcolon hanalyzer).inst
      refine ⟨inst, ?_, hentries⟩
      unfold search
      rw [heq]
      rw [show (r.definition collection).fields = r.fields from rfl] at hlookup
      rw [hlookup]
      rfl
    · rw [heq]
      refine ⟨?_, Function.update_self ..⟩
      show Option.map _ ((s.index.instances.erase _).lookup _) = none
      rw [show (r.definition collection).fields = r.fields from rfl, AList.lookup_erase]
      rfl

end Life

/-! ## Two requests -/

namespace Novels

local instance : External := .standIn
local instance : Formats := .standIn

def library : CreateContext where
  collectionExists := fun collection => collection = "novels"
  registry := fun _ => []
  analyzerExists := fun analyzer => analyzer = "standard"

def byTitle : CreateIndex where
  fields := ["title"]
  unique := false
  indexType := .fullText
  hnswParams := none
  analyzer := none

def authorName : CreateIndex := { byTitle with fields := ["author.name"] }

theorem byTitle_one : OneIndex "novels" (byTitle.definition "novels") := by
  have haccepted : prepareCreateIndex library "novels" byTitle =
      .ok (byTitle.definition "novels") := by decide +kernel
  exact (fullText_one_iff library "novels" byTitle haccepted rfl).mpr (by decide +kernel)

/-- An index on a nested field is searched under a name that no write uses. -/
theorem authorName_apart :
    ¬ ∀ (ctx : CreateContext) (collection : String) (r : CreateIndex) (index : IndexDefinition),
      prepareCreateIndex ctx collection r = .ok index → r.indexType = .fullText →
        OneIndex collection index := by
  intro hall
  have haccepted : prepareCreateIndex library "novels" authorName =
      .ok (authorName.definition "novels") := by decide +kernel
  have hname := (hall library "novels" authorName _ haccepted rfl).name
  revert hname
  decide +kernel

end Novels

end StellarDb
