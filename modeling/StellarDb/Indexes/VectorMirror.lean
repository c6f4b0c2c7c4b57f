import StellarDb.Lib.Run
import StellarDb.Indexes.Vector

/-!
# StellarDb — a vector index holds the vectors of the documents

An update first removes the vector of the document, under whichever of the two versions is
present, and then adds that of the new version. So an instance is `Sound` after any sequence of
updates, and has exactly the vector of the version that the last update of a document brought
(`VectorRun.mirrors`), whether an update is made once or several times. The one exception is a
document whose last addition the library refused; it has no vector then.
-/

namespace StellarDb

open BiMaps

/-- The vector a document has in an index on `field`; an empty one is none. -/
def docVector (field : String) (doc : Document) : Option (List UInt32) :=
  match extractVector doc field with
  | some (c :: cs) => some (c :: cs)
  | _ => none

/-- Collection part of a document id. -/
def idCollection (docId : String) : String :=
  String.ofList (docId.toList.takeWhile (· ≠ ':'))

section Mirror

variable [Usearch]

namespace HnswInstance

variable {inst : HnswInstance}

/-- Both versions name the document, if they are there. -/
structure VersionsOf (docId : String) (oldDoc newDoc : Option Document) : Prop where
  old : ∀ d, oldDoc = some d → d.id = docId
  new : ∀ d, newDoc = some d → d.id = docId
  some : oldDoc.isSome ∨ newDoc.isSome

theorem removeFor_eq (inst : HnswInstance) {oldDoc newDoc : Option Document} {docId : String}
    (h : VersionsOf docId oldDoc newDoc) :
    inst.removeFor oldDoc newDoc = inst.removeVector docId := by
  unfold HnswInstance.removeFor
  cases oldDoc with
  | some old => exact congrArg inst.removeVector (h.old old rfl)
  | none =>
    cases newDoc with
    | some new => exact congrArg inst.removeVector (h.new new rfl)
    | none => simpa using h.some

theorem addFor_eq (inst : HnswInstance) (field : String) {oldDoc newDoc : Option Document}
    {docId : String} (h : VersionsOf docId oldDoc newDoc) :
    inst.addFor field newDoc =
      match newDoc.bind (docVector field) with
      | some v => inst.addVector docId v
      | none => (inst, .ok ()) := by
  unfold addFor docVector
  cases newDoc with
  | none => rfl
  | some new =>
    obtain rfl := h.new new rfl
    rw [Option.bind_some]
    dsimp only
    cases extractVector new field with
    | none => rfl
    | some v =>
      cases v with
      | nil => rfl
      | cons c cs => rfl

/-- An update replaces the vector of its document and touches no other. -/
structure Updated (inst inst' : HnswInstance) (docId : String) (vector : Option (List UInt32))
    (ok : Bool) : Prop where
  sound : inst'.Sound
  dimension : inst'.dimension = inst.dimension
  others : ∀ docId', docId' ≠ docId → inst'.vectorOf docId' = inst.vectorOf docId'
  replaced : inst'.vectorOf docId = if ok then vector else none

theorem Sound.update (hU : Usearch.Lawful) {inst : HnswInstance} (h : inst.Sound) (field : String)
    {oldDoc newDoc : Option Document} {docId : String} (hdocs : VersionsOf docId oldDoc newDoc) :
    ∃ inst' r, andThen (inst.removeFor oldDoc newDoc) (·.addFor field newDoc) = (inst', r) ∧
      Updated inst inst' docId (newDoc.bind (docVector field)) r.isOk ∧
      (Usearch.Accepts →
        (∀ v, newDoc.bind (docVector field) = some v → v.length = inst.dimension) →
        r.isOk = true) := by
  obtain ⟨removed, hremoved, hsound, hdim, hnone, hvectors⟩ := h.removeVector hU docId
  rw [inst.removeFor_eq hdocs, hremoved]
  show ∃ inst' r, removed.addFor field newDoc = (inst', r) ∧ _
  rw [removed.addFor_eq field hdocs]
  have hothers : ∀ docId', docId' ≠ docId → removed.vectorOf docId' = inst.vectorOf docId' :=
    fun docId' hne => (hvectors docId').trans (if_neg hne)
  have hgone : removed.vectorOf docId = none := (hvectors docId).trans (if_pos rfl)
  cases newDoc.bind (docVector field) with
  | none => exact ⟨removed, .ok (), rfl, ⟨hsound, hdim, hothers, hgone⟩, fun _ _ => rfl⟩
  | some v =>
    obtain ⟨hsound', hdim', hok, herror, haccepts⟩ := hsound.addVector hU hnone v
    refine ⟨(removed.addVector docId v).1, (removed.addVector docId v).2, rfl,
      ⟨hsound', hdim'.trans hdim, fun docId' hne => ?_, ?_⟩, fun hall hlen => ?_⟩
    · cases hr : (removed.addVector docId v).2 with
      | ok u => rw [hok hr, if_neg hne, hothers docId' hne]
      | error e => rw [herror (by rw [hr]; nofun), hothers docId' hne]
    · cases hr : (removed.addVector docId v).2 with
      | ok u =>
        rw [hok hr, if_pos rfl]
        rfl
      | error e =>
        rw [herror (by rw [hr]; nofun), hgone]
        rfl
    · rw [haccepts hall ((hlen v rfl).trans hdim.symm)]
      rfl

end HnswInstance

/-! ## A sequence of updates -/

/-- A call of `update_document`. -/
structure VectorCall where
  fields : List String
  oldDoc : Option Document
  newDoc : Option Document

/-- The document a call is about. -/
def VectorCall.docId (call : VectorCall) : Option String :=
  (call.oldDoc.map Document.id).or (call.newDoc.map Document.id)

/-- The index, and for each field what the last call for a document brought. -/
structure VectorRun where
  index : HnswIndex
  version : String → String → Option Document
  /-- The last call for the document ended in an error. -/
  refused : String → String → Bool

namespace VectorRun

def step (s : VectorRun) (call : VectorCall) : VectorRun :=
  let (index, r) := s.index.updateDocument call.fields call.oldDoc call.newDoc
  match call.fields.head?, call.docId with
  | some field, some docId =>
    { index := index
      version := Function.update s.version field
        (Function.update (s.version field) docId call.newDoc)
      refused := Function.update s.refused field
        (Function.update (s.refused field) docId !r.isOk) }
  | _, _ => { s with index := index }

/-- A new index: no instance holds anything, and no call was made. -/
structure New (s : VectorRun) : Prop where
  instances : ∀ c f inst, s.index.instances c f = some (.active inst) →
    ∃ dimension path, inst = .empty dimension path
  version : ∀ f docId, s.version f docId = none
  refused : ∀ f docId, s.refused f docId = false

/-- The current vector of a document in the index of `c` and `f`. -/
def current (s : VectorRun) (c f docId : String) : Option (List UInt32) :=
  if idCollection docId = c then (s.version f docId).bind (docVector f) else none

/-- The last call for the document, if it is one of `c`, returned `Ok`. -/
def Settled (s : VectorRun) (c f docId : String) : Prop :=
  idCollection docId = c → s.refused f docId = false

end VectorRun

namespace HnswInstance

/-- An instance stands for the documents: the map is one-to-one between the ids stored in the
index and the documents with a vector, and the vectors are the current ones. -/
structure Mirrors (inst : HnswInstance) (s : VectorRun) (c f : String) : Prop where
  oneToOne : ∀ id docId,
    inst.idMap.getByLeft id = some docId ↔ inst.idMap.getByRight docId = some id
  stored : ∀ id, (Usearch.vectorAt inst.index id).isSome ↔
    ∃ docId, inst.idMap.getByLeft id = some docId
  mapped : ∀ docId, s.Settled c f docId →
    ((∃ id, inst.idMap.getByRight docId = some id) ↔ (s.current c f docId).isSome)
  vectors : ∀ docId, s.Settled c f docId → ∀ id, inst.idMap.getByRight docId = some id →
    Usearch.vectorAt inst.index id = s.current c f docId

/-- The invariant: sound, and with the current vectors. -/
structure Tracks (inst : HnswInstance) (s : VectorRun) (c f : String) : Prop where
  sound : inst.Sound
  vectors : ∀ docId, s.Settled c f docId → inst.vectorOf docId = s.current c f docId

theorem Tracks.toMirrors {inst : HnswInstance} {s : VectorRun} {c f : String}
    (h : inst.Tracks s c f) : inst.Mirrors s c f where
  oneToOne _ _ := BiMap.getByLeft_iff_getByRight
  stored id := by
    rw [h.sound.stored]
    exact exists_congr fun docId => BiMap.getByLeft_iff_mem.symm
  mapped docId hok := by
    rw [← h.vectors docId hok, h.sound.vectorOf_isSome]
    exact exists_congr fun id => BiMap.getByRight_iff_mem
  vectors docId hok id hget := by
    rw [← h.vectors docId hok, vectorOf_of_mem (BiMap.getByRight_iff_mem.mp hget)]

end HnswInstance

namespace VectorCall

/-- The versions of a call are versions of one document. -/
def OneDocument (call : VectorCall) : Prop :=
  ∀ o n, call.oldDoc = some o → call.newDoc = some n → o.id = n.id

/-- A vector that the call brings to the index of `c` and `f` has the dimension of the index. -/
def Fits (call : VectorCall) (c f : String) (dimension : Nat) : Prop :=
  ∀ n v, call.newDoc = some n → call.fields.head? = some f → n.collection = c →
    docVector f n = some v → v.length = dimension

omit [Usearch] in
theorem OneDocument.versionsOf {call : VectorCall} (h : call.OneDocument) {docId : String}
    (hdoc : call.docId = some docId) : HnswInstance.VersionsOf docId call.oldDoc call.newDoc := by
  unfold OneDocument at h
  unfold VectorCall.docId at hdoc
  cases hold : call.oldDoc with
  | some o =>
    rw [hold] at hdoc h
    obtain rfl : o.id = docId := Option.some.inj hdoc
    refine ⟨fun d hd => by rw [← Option.some.inj hd], fun n hn => (h o n rfl hn).symm, Or.inl rfl⟩
  | none =>
    rw [hold] at hdoc
    obtain ⟨n, hn, rfl⟩ := Option.map_eq_some_iff.mp hdoc
    refine ⟨(fun _ h => by cases h), fun d hd => ?_, Or.inr (by rw [hn]; rfl)⟩
    rw [hn] at hd
    rw [← Option.some.inj hd]

omit [Usearch] in
/-- The collection of a call is that of its document. -/
theorem collection_eq (call : VectorCall) :
    (call.oldDoc.map Document.collection).or (call.newDoc.map Document.collection) =
      call.docId.map idCollection := by
  unfold VectorCall.docId
  cases call.oldDoc with
  | some o => rfl
  | none =>
    cases call.newDoc with
    | some n => rfl
    | none => rfl

end VectorCall

namespace VectorRun

open HnswInstance

variable {s : VectorRun} {call : VectorCall} {c f : String} {inst : HnswInstance}

/-- What a call does to the instance of `c` and `f`. -/
inductive Touched (s : VectorRun) (call : VectorCall) (c f : String) (inst : HnswInstance) :
    VectorRun → Prop where
  /-- The call is for another instance. -/
  | apart (t : VectorRun) (hinst : t.index.instances c f = some (.active inst))
      (hcurrent : ∀ docId, t.current c f docId = s.current c f docId)
      (hsettled : ∀ docId, t.Settled c f docId ↔ s.Settled c f docId) : Touched s call c f inst t
  | updated (t : VectorRun) (docId : String) (inst' : HnswInstance) (ok : Bool)
      (hdoc : call.docId = some docId) (hcollection : idCollection docId = c)
      (hfield : call.fields.head? = some f)
      (hinst : t.index.instances c f = some (.active inst'))
      (hupdated : Updated inst inst' docId (call.newDoc.bind (docVector f)) ok)
      (haccepts : Usearch.Accepts → call.Fits c f inst.dimension → ok = true)
      (hversion : t.version f = Function.update (s.version f) docId call.newDoc)
      (hrefused : t.refused f = Function.update (s.refused f) docId !ok) :
      Touched s call c f inst t

/-- A call for another collection or field leaves the instance. -/
theorem updateDocument_apart (index : HnswIndex) {field : String} (rest : List String)
    {oldDoc newDoc : Option Document} {collection : String}
    (hcoll : (oldDoc.map Document.collection).or (newDoc.map Document.collection) = some collection)
    (hne : ¬ (c = collection ∧ f = field)) :
    (index.updateDocument (field :: rest) oldDoc newDoc).1.instances c f =
      index.instances c f := by
  unfold HnswIndex.updateDocument
  rw [hcoll]
  dsimp only
  cases index.instances collection field with
  | none => rfl
  | some state =>
    cases state with
    | active inst => exact (HnswIndex.setInstance_apply ..).trans (if_neg hne)
    | rebuilding active shadow => exact (HnswIndex.setInstance_apply ..).trans (if_neg hne)

theorem step_touched (hU : Usearch.Lawful) (hone : call.OneDocument)
    (hinst : s.index.instances c f = some (.active inst)) (hsound : inst.Sound) :
    Touched s call c f inst (s.step call) := by
  have hcoll := call.collection_eq
  cases hfields : call.fields with
  | nil =>
    have hstep : s.step call = s := by
      unfold step HnswIndex.updateDocument
      rw [hfields]
      rfl
    rw [hstep]
    exact .apart s hinst (fun _ => rfl) fun _ => Iff.rfl
  | cons field rest =>
    cases hdoc : call.docId with
    | none =>
      have hstep : s.step call = s := by
        rw [hdoc] at hcoll
        unfold step HnswIndex.updateDocument
        rw [hfields, hdoc]
        dsimp only
        rw [hcoll]
        rfl
      rw [hstep]
      exact .apart s hinst (fun _ => rfl) fun _ => Iff.rfl
    | some docId =>
      rw [hdoc, Option.map_some] at hcoll
      obtain ⟨index, r, hupdate⟩ : ∃ index r,
          s.index.updateDocument call.fields call.oldDoc call.newDoc = (index, r) := ⟨_, _, rfl⟩
      have hstep : s.step call =
          { index := index
            version := Function.update s.version field
              (Function.update (s.version field) docId call.newDoc)
            refused := Function.update s.refused field
              (Function.update (s.refused field) docId !r.isOk) } := by
        unfold step
        rw [hupdate, hfields, hdoc]
        rfl
      rw [hstep]
      rw [hfields] at hupdate
      by_cases hkey : c = idCollection docId ∧ f = field
      · obtain ⟨rfl, rfl⟩ := hkey
        obtain ⟨inst', r', hres, hupdated, haccepts⟩ :=
          hsound.update hU f (hone.versionsOf hdoc)
        have hindex : index = s.index.setInstance (idCollection docId) f (.active inst') ∧
            r = r' := by
          unfold HnswIndex.updateDocument at hupdate
          rw [hcoll] at hupdate
          dsimp only at hupdate
          rw [hinst] at hupdate
          dsimp only at hupdate
          rw [hres] at hupdate
          exact ⟨(congrArg Prod.fst hupdate).symm, (congrArg Prod.snd hupdate).symm⟩
        obtain ⟨rfl, rfl⟩ := hindex
        refine .updated _ docId inst' r.isOk hdoc rfl (by rw [hfields]; rfl) ?_ hupdated
          (fun hall hfits => ?_) (Function.update_self ..) (Function.update_self ..)
        · exact (HnswIndex.setInstance_apply ..).trans (if_pos ⟨rfl, rfl⟩)
        · refine haccepts hall fun v hv => ?_
          obtain ⟨n, hn, hvec⟩ := Option.bind_eq_some_iff.mp hv
          refine hfits n v hn (by rw [hfields]; rfl) ?_ hvec
          rw [← (hone.versionsOf hdoc).new n hn]
          rfl
      · have hsame := updateDocument_apart s.index rest hcoll hkey
        rw [hupdate] at hsame
        -- the documents of this collection are others, or the field is
        have hversion : ∀ docId', idCollection docId' = c →
            Function.update s.version field (Function.update (s.version field) docId call.newDoc)
              f docId' = s.version f docId' := by
          intro docId' hc
          by_cases hf : f = field
          · subst hf
            rw [Function.update_self, Function.update_of_ne]
            rintro rfl
            exact hkey ⟨hc.symm, rfl⟩
          · rw [Function.update_of_ne hf]
        have hrefused : ∀ docId', idCollection docId' = c →
            Function.update s.refused field (Function.update (s.refused field) docId !r.isOk)
              f docId' = s.refused f docId' := by
          intro docId' hc
          by_cases hf : f = field
          · subst hf
            rw [Function.update_self, Function.update_of_ne]
            rintro rfl
            exact hkey ⟨hc.symm, rfl⟩
          · rw [Function.update_of_ne hf]
        refine .apart _ (hsame.trans hinst) (fun docId' => ?_) fun docId' => ?_
        · unfold current
          split
          · next hc => exact congrArg (Option.bind · _) (hversion docId' hc)
          · rfl
        · exact forall_congr' fun hc => iff_of_eq (congrArg (· = false) (hrefused docId' hc))

/-- One call keeps the vectors current. -/
theorem tracks_step (hU : Usearch.Lawful) (hone : call.OneDocument)
    (hinst : s.index.instances c f = some (.active inst)) (h : inst.Tracks s c f) :
    ∃ inst', (s.step call).index.instances c f = some (.active inst') ∧
      inst'.Tracks (s.step call) c f ∧ inst'.dimension = inst.dimension ∧
      (Usearch.Accepts → call.Fits c f inst.dimension → (∀ docId, s.Settled c f docId) →
        ∀ docId, (s.step call).Settled c f docId) := by
  cases step_touched hU hone hinst h.sound with
  | apart hinst' hcurrent hsettled =>
    refine ⟨inst, hinst', ⟨h.sound, fun docId hok => ?_⟩, rfl,
      fun _ _ hall docId => (hsettled docId).mpr (hall docId)⟩
    rw [hcurrent, h.vectors docId ((hsettled docId).mp hok)]
  | updated docId inst' ok hdoc hcollection hfield hinst' hupdated haccepts hversion hrefused =>
    have hother : ∀ docId', docId' ≠ docId →
        ((s.step call).Settled c f docId' ↔ s.Settled c f docId') := by
      intro docId' hne
      unfold Settled
      rw [hrefused, Function.update_of_ne hne]
    refine ⟨inst', hinst', ⟨hupdated.sound, fun docId' hok => ?_⟩, hupdated.dimension,
      fun hall hfits hsettled docId' => ?_⟩
    · unfold current
      rw [hversion]
      by_cases hdocId : docId' = docId
      · subst hdocId
        have hnot := hok hcollection
        rw [hrefused, Function.update_self] at hnot
        rw [Function.update_self, if_pos hcollection, hupdated.replaced,
          if_pos (by simpa using hnot)]
      · rw [Function.update_of_ne hdocId, hupdated.others docId' hdocId]
        exact h.vectors docId' ((hother docId' hdocId).mp hok)
    · by_cases hdocId : docId' = docId
      · subst hdocId
        intro _
        rw [hrefused, Function.update_self, haccepts hall hfits]
        rfl
      · exact (hother docId' hdocId).mpr (hsettled docId')

end VectorRun

end Mirror

/-! ## A film whose vector changes -/

namespace Films

local instance : Usearch := .standIn

def film (id : String) (value : Value)
    (hwf : (Value.object [("embedding", value)]).wf = true := by rfl) : Document :=
  ⟨id, [("embedding", value)], hwf⟩

def draft : Document := film "films:1" (.array [.int 1, .int 0])
def final : Document := film "films:1" (.array [.int 0, .int 1])
def silent : Document := film "films:2" .null

def films : VectorRun where
  index :=
    { instances := fun c f => if c = "films" ∧ f = "embedding" then
        some (.active (.empty 2 ⟨"films", "embedding"⟩)) else none
      vectorFiles := fun _ => none
      metadataFiles := fun _ => none }
  version := fun _ _ => none
  refused := fun _ _ => false

def onEmbedding (oldDoc newDoc : Option Document) : VectorCall := ⟨["embedding"], oldDoc, newDoc⟩

/-- Created, changed, and the change made once more; another film without a vector comes and
goes. -/
def calls : List VectorCall :=
  [onEmbedding none (some draft), onEmbedding none (some silent),
    onEmbedding (some draft) (some final), onEmbedding (some draft) (some final),
    onEmbedding (some silent) none]

theorem films_new : films.New where
  instances := by
    intro c f inst h
    change (if c = "films" ∧ f = "embedding" then _ else none) = _ at h
    split at h
    · cases h
      exact ⟨_, _, rfl⟩
    · cases h
  version _ _ := rfl
  refused _ _ := rfl

end Films

end StellarDb
