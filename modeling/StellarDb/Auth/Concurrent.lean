import StellarDb.Auth.CredentialCalls
import StellarDb.Lib.Run
import StellarDb.Lib.Serial

/-!
# StellarDb — concurrent changes of authorization (`auth/service.rs`)

Policies are written to the storage and to the engine in two steps, attributes of a collection are
read, changed and written back, and no lock is taken. In a run the steps of any number of calls
alternate in any order.

A call on a policy waits between its two steps. The policies that the engine will have when all
waiting calls have gone on, in the order of their writes, are always the stored ones
(`State.pending`); they are reached if the calls on one policy go on in that order. An attribute
comes from the calls in the order of their writes, as long as each writes what it would have made
of the stored attributes.
-/

namespace StellarDb

open Keyspaces Entries Database Serials

/-! ## Calls -/

namespace Authorization

/-- Attributes that a call sets, removes; or a policy. -/
inductive Call where
  | createPolicy (policy : Policy)
  | dropPolicy (name : String)
  | setCollectionAttributes (database collection : String) (attrs : List (String × String))
  | removeCollectionAttributes (database collection : String) (keys : List String)

/-- How far a call has come. -/
inductive Progress where
  | start
  /-- The storage is written, the engine is not. -/
  | stored
  /-- The changed attributes, to be written over those stored. -/
  | update (doc : Document)
  | create (doc : Document)
  | returned (r : Except AuthError Unit)

def attributesKey (database collection : String) : String := database ++ ":" ++ collection

def newAttributes (key : String) : Document where
  id := "collection_attrs:" ++ key
  fields := []
  wf := Value.wf_no_fields

/-- The document that `set_collection_attributes` writes. -/
def setFields (doc : Document) (attrs : List (String × String)) : Document :=
  attrs.foldl (fun doc a => doc.insertField a.1 (.string a.2) (Value.wf_string _)) doc

def removeFields (doc : Document) (keys : List String) : Document := keys.foldl Document.removeField doc

/-- The document of a collection; a read that fails finds none. -/
def readAttributes (s : AuthService) (key : String) (readFails : Bool) : Option Document :=
  if readFails then none else s.systemDb.getDocument "collection_attrs" (utf8 key)

section Functions

variable [External] (f : Faults) (s : AuthService)

/-- `create_policy_typed`, step by step. -/
def createPolicyStep (policy : Policy) : Progress → AuthService × Progress
  | .start =>
    match s.systemDb.createDocument f (policyToDocument policy) with
    | (db, .error e) => ({ s with systemDb := db }, .returned (.error (.internal e)))
    | (db, .ok false) =>
      ({ s with systemDb := db }, .returned (.error (.alreadyExists "policy" policy.name)))
    | (db, .ok true) => ({ s with systemDb := db }, .stored)
  | .stored => ({ s with policies := s.policies ++ [policy] }, .returned (.ok ()))
  | progress => (s, progress)

/-- `drop_policy_typed` -/
def dropPolicyStep (name : String) : Progress → AuthService × Progress
  | .start =>
    match s.systemDb.deleteDocument f "policies" name with
    | (db, .error e) => ({ s with systemDb := db }, .returned (.error (.internal e)))
    | (db, .ok false) => ({ s with systemDb := db }, .returned (.error (.notFound "policy" name)))
    | (db, .ok true) => ({ s with systemDb := db }, .stored)
  | .stored => ({ s with policies := s.policies.filter (·.name ≠ name) }, .returned (.ok ()))
  | progress => (s, progress)

def setCollectionAttributesStep (readFails : Bool) (database collection : String)
    (attrs : List (String × String)) : Progress → AuthService × Progress
  | .start =>
    let key := attributesKey database collection
    (s, .update (setFields ((readAttributes s key readFails).getD (newAttributes key)) attrs))
  | .update doc =>
    match s.systemDb.updateDocument f doc with
    | (db, .error e) => ({ s with systemDb := db }, .returned (.error (.internal e)))
    | (db, .ok false) => ({ s with systemDb := db }, .create doc)
    | (db, .ok true) => ({ s with systemDb := db }, .returned (.ok ()))
  | .create doc =>
    match s.systemDb.createDocument f doc with
    | (db, .error e) => ({ s with systemDb := db }, .returned (.error (.internal e)))
    -- whether the document has been created is not looked at
    | (db, .ok _) => ({ s with systemDb := db }, .returned (.ok ()))
  | progress => (s, progress)

def removeCollectionAttributesStep (readFails : Bool) (database collection : String)
    (keys : List String) : Progress → AuthService × Progress
  | .start =>
    match readAttributes s (attributesKey database collection) readFails with
    | some doc => (s, .update (removeFields doc keys))
    | none => (s, .returned (.ok ()))
  | .update doc =>
    match s.systemDb.updateDocument f doc with
    | (db, .error e) => ({ s with systemDb := db }, .returned (.error (.internal e)))
    | (db, .ok _) => ({ s with systemDb := db }, .returned (.ok ()))
  | progress => (s, progress)

end Functions

/-- The next step of a call. -/
def Call.step [External] (f : Faults) (readFails : Bool) (s : AuthService) :
    Call → Progress → AuthService × Progress
  | .createPolicy policy => createPolicyStep f s policy
  | .dropPolicy name => dropPolicyStep f s name
  | .setCollectionAttributes database collection attrs =>
    setCollectionAttributesStep f s readFails database collection attrs
  | .removeCollectionAttributes database collection keys =>
    removeCollectionAttributesStep f s readFails database collection keys

/-- The policy, or the key of the attributes, that a call is about. -/
def Call.name : Call → String
  | .createPolicy policy => policy.name
  | .dropPolicy name => name
  | .setCollectionAttributes database collection _ => attributesKey database collection
  | .removeCollectionAttributes database collection _ => attributesKey database collection

/-- What a call does to the policies of the engine. -/
def Call.engine : Call → List Policy → List Policy
  | .createPolicy policy, policies => policies ++ [policy]
  | .dropPolicy name, policies => policies.filter (·.name ≠ name)
  | _, policies => policies

def Call.isAttributes : Call → Bool
  | .setCollectionAttributes .. => true
  | .removeCollectionAttributes .. => true
  | _ => false

/-- What a call makes of the attribute of its collection. -/
def Call.change (attr : String) : Call → Option Value → Option Value
  | .setCollectionAttributes _ _ attrs, old =>
    attrs.foldl (fun old a => if a.1 = attr then some (.string a.2) else old) old
  | .removeCollectionAttributes _ _ keys, old => if attr ∈ keys then none else old
  | _, old => old

/-- What a call makes of an attribute. -/
def Call.effect (key attr : String) (call : Call) (old : Option Value) : Option Value :=
  if call.name = key then call.change attr old else old

/-! ## Runs -/

structure State where
  service : AuthService
  progress : Nat → Progress
  /-- The calls that have written the storage but not the engine, in the order of their writes. -/
  waiting : List Nat

/-- The next step of a call, with what the storage answers. -/
structure Event where
  call : Nat
  faults : Faults
  readFails : Bool

/-- A call waits from its first step to its second one. -/
def waitingAfter (waiting : List Nat) (i : Nat) : Progress → Progress → List Nat
  | .start, .stored => waiting ++ [i]
  | _, _ => waiting.erase i

variable (calls : Nat → Call)

def State.next [External] (s : State) (e : Event) : State :=
  let r := (calls e.call).step e.faults e.readFails s.service (s.progress e.call)
  { service := r.1
    progress := Function.update s.progress e.call r.2
    waiting := waitingAfter s.waiting e.call (s.progress e.call) r.2 }

/-- All calls that have begun have returned. -/
def State.Settled (s : State) : Prop :=
  ∀ i, s.progress i = .start ∨ ∃ r, s.progress i = .returned r

/-- The stored value of an attribute. -/
def storedAttribute (s : AuthService) (key attr : String) : Option Value :=
  (s.systemDb.getDocument "collection_attrs" (utf8 key)).bind (·.fields.lookup attr)

/-- A set or remove call that has returned with success. -/
def State.Succeeded (s : State) (i : Nat) : Prop :=
  (calls i).isAttributes = true ∧ s.progress i = .returned (.ok ())

/-- The policies of the engine are those stored, and every attribute has the value of some serial
order of the successful calls. -/
structure Survives (s₀ s : State) : Prop where
  policies : s.service.Filed
  once : (s.service.policies.map Policy.name).Nodup
  attributes : ∀ key attr, Serialized (fun i => (calls i).effect key attr) (s.Succeeded calls)
    (storedAttribute s₀.service key attr) (storedAttribute s.service key attr)

section Order

variable (s : AuthService) (call : Call)

/-- What the call would make of the stored attributes. -/
def changed (attr : String) : Option Value := call.change attr (storedAttribute s call.name attr)

/-- The call would change nothing. -/
def Unchanged : Prop := ∀ attr, changed s call attr = storedAttribute s call.name attr

/-- The document is what the call makes of the stored attributes. -/
def Current (doc : Document) : Prop := ∀ attr, doc.fields.lookup attr = changed s call attr

/-- What is written of attributes is what the call makes of those stored, and no write is dropped
that would change them. -/
def Timely (f : Faults) (readFails : Bool) (progress : Progress) : Prop :=
  let found := s.systemDb.getDocument "collection_attrs" (utf8 call.name)
  match progress, call with
  | .start, .removeCollectionAttributes .. => readFails = true → Unchanged s call
  | .update doc, .setCollectionAttributes .. =>
    found.isSome = true → f.commit ≠ .conflict → Current s call doc
  | .update doc, _ =>
    found.isSome = true →
      (f.commit = .conflict → Unchanged s call) ∧ (f.commit ≠ .conflict → Current s call doc)
  | .create doc, _ =>
    (found.isSome = true ∨ f.commit = .conflict → Unchanged s call) ∧
      (found = none → f.commit ≠ .conflict → Current s call doc)
  | _, _ => True

end Order

/-- Calls on one policy go on in the order of their writes, and writes of attributes are timely. -/
def State.Orderly (s : State) (e : Event) : Prop :=
  (s.progress e.call = .stored →
    ∀ j ∈ s.waiting.takeWhile (· ≠ e.call), (calls j).name ≠ (calls e.call).name) ∧
  Timely s.service (calls e.call) e.faults e.readFails (s.progress e.call)

/-! ## Steps -/

section Steps

/-- The progress a call can make. -/
def Call.Fits : Call → Progress → Prop
  | _, .start => True
  | _, .returned _ => True
  | .createPolicy _, .stored => True
  | .dropPolicy _, .stored => True
  | .setCollectionAttributes database collection _, .update doc =>
    doc.id = "collection_attrs:" ++ attributesKey database collection
  | .setCollectionAttributes database collection _, .create doc =>
    doc.id = "collection_attrs:" ++ attributesKey database collection
  | .removeCollectionAttributes database collection _, .update doc =>
    doc.id = "collection_attrs:" ++ attributesKey database collection
  | _, _ => False

/-- The documents and policies are the same. -/
structure SameStore (s t : AuthService) : Prop where
  docs : ∀ c k, t.systemDb.getDocument c k = s.systemDb.getDocument c k
  policies : t.policies = s.policies

/-- One document is stored or removed. -/
structure PutsDoc (s t : AuthService) (c k : String) (new : Option Document) : Prop where
  docs : ∀ c' k', t.systemDb.getDocument c' k' =
    if c = c' ∧ utf8 k = k' then new else s.systemDb.getDocument c' k'
  policies : t.policies = s.policies

/-- The call has neither written the storage of a policy nor returned. -/
def Progress.Open : Progress → Prop
  | .stored => False
  | .returned _ => False
  | _ => True

/-- What an orderly step of a call does. -/
inductive Call.Effect (call : Call) (s t : AuthService) : Progress → Progress → Prop
  | failed (p e) (hopen : p.Open) (hsame : SameStore s t) :
      Effect call s t p (.returned (.error e))
  | returned (r) (hsame : SameStore s t) : Effect call s t (.returned r) (.returned r)
  | created (policy) (hcall : call = .createPolicy policy)
      (habsent : s.systemDb.getDocument "policies" (utf8 policy.name) = none)
      (hputs : PutsDoc s t "policies" policy.name (some (policyToDocument policy))) :
      Effect call s t .start .stored
  | dropped (name) (hcall : call = .dropPolicy name) (hputs : PutsDoc s t "policies" name none) :
      Effect call s t .start .stored
  | engine (hcall : call.isAttributes = false) (hdb : t.systemDb = s.systemDb)
      (hpolicies : t.policies = call.engine s.policies) :
      Effect call s t .stored (.returned (.ok ()))
  | drafted (p doc) (hopen : p.Open) (hfits : call.Fits (.update doc))
      (hsame : SameStore s t) : Effect call s t p (.update doc)
  | missing (p doc) (hopen : p.Open) (hfits : call.Fits (.create doc))
      (hsame : SameStore s t) : Effect call s t p (.create doc)
  | unchanged (p) (hopen : p.Open) (hcall : call.isAttributes = true)
      (hsame : SameStore s t)
      (hnone : ∀ attr, call.change attr (storedAttribute s call.name attr) =
        storedAttribute s call.name attr) : Effect call s t p (.returned (.ok ()))
  | written (p doc) (hopen : p.Open) (hcall : call.isAttributes = true)
      (hid : doc.id = "collection_attrs:" ++ call.name)
      (hputs : PutsDoc s t "collection_attrs" call.name (some doc))
      (hcurrent : ∀ attr, doc.fields.lookup attr =
        call.change attr (storedAttribute s call.name attr)) :
      Effect call s t p (.returned (.ok ()))

variable [External] {s : AuthService} {f : Faults} {db : Database}

theorem sameStore_of_exec (call : DocCall) {r : Except StorageError Bool}
    (h : call.exec f s.systemDb = (db, r)) (hr : r ≠ .ok true) : SameStore s { s with systemDb := db } := by
  refine ⟨fun c k => ?_, rfl⟩
  have hget := DocCall.exec_getDocument f s.systemDb call c k
  rw [h] at hget
  exact hget.trans (if_neg fun hok => hr hok.1)

theorem putsDoc_of_exec (call : DocCall) {c k : String} (hc : call.collection = c)
    (hk : call.key = utf8 k) (h : call.exec f s.systemDb = (db, .ok true)) :
    PutsDoc s { s with systemDb := db } c k call.newDoc := by
  refine ⟨fun c' k' => ?_, rfl⟩
  have hget := DocCall.exec_getDocument f s.systemDb call c' k'
  rw [h, hc, hk] at hget
  exact hget.trans (if_congr (and_iff_right rfl) rfl rfl)

omit [External] in
theorem attributes_place {doc : Document} {key : String} (h : doc.id = "collection_attrs:" ++ key) :
    doc.collection = "collection_attrs" ∧ doc.key = key :=
  have hcolon : ':' ∉ "collection_attrs".toList := by decide
  have hid : doc.id = "collection_attrs" ++ ":" ++ key := h
  ⟨Document.collection_of_id hcolon hid, Document.key_of_id hcolon hid⟩

omit [External] in
theorem setFields_id (doc : Document) (attrs : List (String × String)) :
    (setFields doc attrs).id = doc.id := by
  induction attrs generalizing doc with
  | nil => rfl
  | cons a attrs ih => exact ih _

omit [External] in
theorem removeFields_id (doc : Document) (keys : List String) :
    (removeFields doc keys).id = doc.id := by
  induction keys generalizing doc with
  | nil => rfl
  | cons k keys ih => exact ih _

omit [External] in
theorem lookup_setFields (doc : Document) (attrs : List (String × String)) (attr : String) :
    (setFields doc attrs).fields.lookup attr = attrs.foldl
      (fun old a => if a.1 = attr then some (.string a.2) else old) (doc.fields.lookup attr) := by
  induction attrs generalizing doc with
  | nil => rfl
  | cons a attrs ih => exact (ih _).trans (by rw [Document.lookup_insertField]; rfl)

omit [External] in
theorem lookup_removeFields (doc : Document) (keys : List String) (attr : String) :
    (removeFields doc keys).fields.lookup attr =
      if attr ∈ keys then none else doc.fields.lookup attr := by
  induction keys generalizing doc with
  | nil => rfl
  | cons k keys ih =>
    refine (ih _).trans ?_
    rw [Document.lookup_removeField]
    by_cases hk : k = attr
    · simp [hk]
    · simp [hk, Ne.symm hk]

omit [External] in
/-- A document made of the stored attributes is current until they change. -/
theorem current_of_read (s : AuthService) (database collection : String) :
    (∀ attrs, Current s (.setCollectionAttributes database collection attrs)
      (setFields ((readAttributes s (attributesKey database collection) false).getD
        (newAttributes (attributesKey database collection))) attrs)) ∧
    ∀ keys doc, readAttributes s (attributesKey database collection) false = some doc →
      Current s (.removeCollectionAttributes database collection keys) (removeFields doc keys) := by
  unfold Current changed storedAttribute Call.name readAttributes
  refine ⟨fun attrs attr => ?_, fun keys doc hdoc attr => ?_⟩
  · rw [lookup_setFields, if_neg Bool.false_ne_true]
    cases s.systemDb.getDocument "collection_attrs" (utf8 (attributesKey database collection)) with
    | none => rfl
    | some doc => rfl
  · rw [if_neg Bool.false_ne_true] at hdoc
    rw [lookup_removeFields, hdoc]
    rfl

/-- Attributes are stored under the id of their collection. -/
def AttributesPlaced (s : AuthService) : Prop :=
  ∀ key doc, s.systemDb.getDocument "collection_attrs" (utf8 key) = some doc →
    doc.id = "collection_attrs:" ++ key

omit [External] in
theorem AttributesPlaced.read (h : AttributesPlaced s) {key : String} {readFails : Bool}
    {doc : Document} (hread : readAttributes s key readFails = some doc) :
    doc.id = "collection_attrs:" ++ key := by
  unfold readAttributes at hread
  split at hread
  · cases hread
  · exact h key doc hread

theorem createPolicy_effect (policy : Policy) {p : Progress}
    (hfits : (Call.createPolicy policy).Fits p) :
    (Call.createPolicy policy).Effect s (createPolicyStep f s policy p).1 p
      (createPolicyStep f s policy p).2 := by
  unfold createPolicyStep
  cases p with
  | start =>
    dsimp only
    rcases h : s.systemDb.createDocument f (policyToDocument policy) with ⟨db, err | (_ | _)⟩
    · exact .failed .start _ trivial (sameStore_of_exec (.create _) h nofun)
    · exact .failed .start _ trivial (sameStore_of_exec (.create _) h nofun)
    · have habsent := (DocCall.oldDoc_of_exec (.create (policyToDocument policy))
        (congrArg Prod.snd h)).1
      refine .created policy rfl ?_ (putsDoc_of_exec (.create _)
        (AuthService.policyToDocument_collection policy)
        (AuthService.policyToDocument_keyBytes policy) h)
      simpa only [DocCall.collection, DocCall.key, DocCall.oldDoc,
        AuthService.policyToDocument_collection, AuthService.policyToDocument_keyBytes]
        using habsent
  | stored => exact .engine rfl rfl rfl
  | returned r => exact .returned r ⟨fun _ _ => rfl, rfl⟩
  | update doc => exact hfits.elim
  | create doc => exact hfits.elim

theorem dropPolicy_effect (name : String) {p : Progress} (hfits : (Call.dropPolicy name).Fits p) :
    (Call.dropPolicy name).Effect s (dropPolicyStep f s name p).1 p (dropPolicyStep f s name p).2 := by
  unfold dropPolicyStep
  cases p with
  | start =>
    dsimp only
    rcases h : s.systemDb.deleteDocument f "policies" name with ⟨db, err | (_ | _)⟩
    · exact .failed .start _ trivial (sameStore_of_exec (.delete _ _) h nofun)
    · exact .failed .start _ trivial (sameStore_of_exec (.delete _ _) h nofun)
    · exact .dropped name rfl (putsDoc_of_exec (.delete _ _) rfl rfl h)
  | stored => exact .engine rfl rfl rfl
  | returned r => exact .returned r ⟨fun _ _ => rfl, rfl⟩
  | update doc => exact hfits.elim
  | create doc => exact hfits.elim

/-- A write that takes effect does not conflict. -/
theorem commit_of_exec (call : DocCall) (h : call.exec f s.systemDb = (db, .ok true)) :
    f.commit ≠ .conflict := by
  obtain ⟨db0, -, hout⟩ := DocCall.exec_outcome f s.systemDb call
  rw [h] at hout
  generalize hr : (db, (Except.ok true : Except StorageError Bool)) = r at hout
  cases hout with
  | untouched r _ hne => exact absurd (congrArg Prod.snd hr).symm hne
  | violated e _ _ => cases congrArg Prod.snd hr
  | rolledBack r _ _ _ hne => exact absurd (congrArg Prod.snd hr).symm hne
  | committed removals _ _ hcommits _ =>
    rw [hcommits.2.1]
    exact nofun

/-- A write of attributes that takes effect. -/
theorem written_effect {call : Call} {p : Progress} {doc : Document} (write : DocCall)
    (hnew : write.newDoc = some doc) (hcollection : write.collection = doc.collection)
    (hkey : write.key = doc.keyBytes) (hopen : p.Open) (hcall : call.isAttributes = true)
    (hid : doc.id = "collection_attrs:" ++ call.name) (hcurrent : Current s call doc)
    (h : write.exec f s.systemDb = (db, .ok true)) :
    call.Effect s { s with systemDb := db } p (.returned (.ok ())) := by
  obtain ⟨hplace, hname⟩ := attributes_place hid
  have hputs := putsDoc_of_exec write (hcollection.trans hplace)
    (hkey.trans (congrArg utf8 hname)) h
  rw [hnew] at hputs
  exact .written p doc hopen hcall hid hputs hcurrent

theorem setCollectionAttributes_effect (hplaced : AttributesPlaced s) (readFails : Bool)
    (database collection : String) (attrs : List (String × String)) {p : Progress}
    (hfits : (Call.setCollectionAttributes database collection attrs).Fits p)
    (htimely : Timely s (.setCollectionAttributes database collection attrs) f readFails p) :
    (Call.setCollectionAttributes database collection attrs).Effect s
      (setCollectionAttributesStep f s readFails database collection attrs p).1 p
      (setCollectionAttributesStep f s readFails database collection attrs p).2 := by
  unfold setCollectionAttributesStep
  cases p with
  | start =>
    refine .drafted .start _ trivial ?_ ⟨fun _ _ => rfl, rfl⟩
    refine (setFields_id _ attrs).trans ?_
    rcases hread : readAttributes s (attributesKey database collection) readFails with _ | doc
    · rfl
    · exact hplaced.read hread
  | stored => exact hfits.elim
  | returned r => exact .returned r ⟨fun _ _ => rfl, rfl⟩
  | update doc =>
    dsimp only
    rcases h : s.systemDb.updateDocument f doc with ⟨db, err | (_ | _)⟩
    · exact .failed _ _ trivial (sameStore_of_exec (.update doc) h nofun)
    · exact .missing _ doc trivial hfits (sameStore_of_exec (.update doc) h nofun)
    · obtain ⟨hplace, hkey⟩ := attributes_place hfits
      have hfound := (DocCall.oldDoc_of_exec (.update doc) (congrArg Prod.snd h)).2
      simp only [DocCall.Checks, Document.keyBytes, hplace, hkey] at hfound
      exact written_effect (.update doc) rfl rfl rfl trivial rfl hfits
        (htimely hfound (commit_of_exec (.update doc) h)) h
  | create doc =>
    obtain ⟨hplace, hkey⟩ := attributes_place hfits
    obtain ⟨hunchanged, hcurrent⟩ := htimely
    dsimp only
    rcases h : s.systemDb.createDocument f doc with ⟨db, err | (_ | _)⟩
    · exact .failed _ _ trivial (sameStore_of_exec (.create doc) h nofun)
    · refine .unchanged _ trivial rfl (sameStore_of_exec (.create doc) h nofun) (hunchanged ?_)
      have hfound := found_of_createDocument h
      simp only [Document.keyBytes, hplace, hkey] at hfound
      exact hfound
    · have habsent := (DocCall.oldDoc_of_exec (.create doc) (congrArg Prod.snd h)).1
      simp only [DocCall.collection, DocCall.key, DocCall.oldDoc, Document.keyBytes, hplace, hkey]
        at habsent
      exact written_effect (.create doc) rfl rfl rfl trivial rfl hfits
        (hcurrent habsent (commit_of_exec (.create doc) h)) h

theorem removeCollectionAttributes_effect (hplaced : AttributesPlaced s) (readFails : Bool)
    (database collection : String) (keys : List String) {p : Progress}
    (hfits : (Call.removeCollectionAttributes database collection keys).Fits p)
    (htimely : Timely s (.removeCollectionAttributes database collection keys) f readFails p) :
    (Call.removeCollectionAttributes database collection keys).Effect s
      (removeCollectionAttributesStep f s readFails database collection keys p).1 p
      (removeCollectionAttributesStep f s readFails database collection keys p).2 := by
  -- without attributes there is nothing to remove
  have hnone : s.systemDb.getDocument "collection_attrs"
      (utf8 (attributesKey database collection)) = none →
      Unchanged s (.removeCollectionAttributes database collection keys) := by
    intro hnone attr
    unfold changed storedAttribute Call.name
    rw [hnone]
    exact ite_self _
  unfold removeCollectionAttributesStep
  cases p with
  | start =>
    dsimp only
    rcases hread : readAttributes s (attributesKey database collection) readFails with _ | doc
    · refine .unchanged .start trivial rfl ⟨fun _ _ => rfl, rfl⟩ ?_
      unfold readAttributes at hread
      split at hread
      · next hfails => exact htimely hfails
      · exact hnone hread
    · refine .drafted .start _ trivial ?_ ⟨fun _ _ => rfl, rfl⟩
      exact (removeFields_id doc keys).trans (hplaced.read hread)
  | stored => exact hfits.elim
  | returned r => exact .returned r ⟨fun _ _ => rfl, rfl⟩
  | update doc =>
    obtain ⟨hplace, hkey⟩ := attributes_place hfits
    dsimp only
    rcases h : s.systemDb.updateDocument f doc with ⟨db, err | (_ | _)⟩
    · exact .failed _ _ trivial (sameStore_of_exec (.update doc) h nofun)
    · refine .unchanged _ trivial rfl (sameStore_of_exec (.update doc) h nofun) ?_
      have hmissing := missing_of_updateDocument h
      simp only [Document.keyBytes, hplace, hkey] at hmissing
      rcases hfound : s.systemDb.getDocument "collection_attrs"
        (utf8 (attributesKey database collection)) with _ | old
      · exact hnone hfound
      · rcases hmissing with habsent | hconflict
        · cases hfound.symm.trans habsent
        · exact (htimely (Option.isSome_iff_exists.mpr ⟨old, hfound⟩)).1 hconflict
    · have hfound := (DocCall.oldDoc_of_exec (.update doc) (congrArg Prod.snd h)).2
      simp only [DocCall.Checks, Document.keyBytes, hplace, hkey] at hfound
      exact written_effect (.update doc) rfl rfl rfl trivial rfl hfits
        ((htimely hfound).2 (commit_of_exec (.update doc) h)) h
  | create doc => exact hfits.elim

/-- The steps of a run that are in time do what the calls are meant to do. -/
theorem step_effect (hplaced : AttributesPlaced s) (readFails : Bool) {call : Call} {p : Progress}
    (hfits : call.Fits p) (htimely : Timely s call f readFails p) :
    call.Effect s (call.step f readFails s p).1 p (call.step f readFails s p).2 := by
  cases call with
  | createPolicy policy => exact createPolicy_effect policy hfits
  | dropPolicy name => exact dropPolicy_effect name hfits
  | setCollectionAttributes => exact setCollectionAttributes_effect hplaced _ _ _ _ hfits htimely
  | removeCollectionAttributes =>
    exact removeCollectionAttributes_effect hplaced _ _ _ _ hfits htimely

end Steps

/-! ## Waiting calls -/

section Waiting

variable {calls : Nat → Call} {policies policies' : List Policy} {waiting : List Nat}

theorem engine_perm (call : Call) (h : policies.Perm policies') :
    (call.engine policies).Perm (call.engine policies') := by
  cases call with
  | createPolicy policy => exact h.append_right _
  | dropPolicy name => exact h.filter _
  | setCollectionAttributes => exact h
  | removeCollectionAttributes => exact h

/-- Calls on different policies commute. -/
theorem engine_comm {call call' : Call} (h : call.name ≠ call'.name) (policies : List Policy) :
    (call.engine (call'.engine policies)).Perm (call'.engine (call.engine policies)) := by
  cases call with
  | createPolicy policy =>
    cases call' with
    | createPolicy policy' =>
      show (policies ++ [policy'] ++ [policy]).Perm (policies ++ [policy] ++ [policy'])
      rw [List.append_assoc, List.append_assoc]
      exact (List.Perm.swap policy policy' []).append_left policies
    | dropPolicy name =>
      show (_ ++ [policy]).Perm ((policies ++ [policy]).filter (·.name ≠ name))
      have hkept : [policy].filter (·.name ≠ name) = [policy] :=
        List.filter_cons_of_pos (decide_eq_true h)
      rw [List.filter_append, hkept]
      exact List.Perm.refl _
    | _ => exact List.Perm.refl _
  | dropPolicy name =>
    cases call' with
    | createPolicy policy' =>
      show ((policies ++ [policy']).filter (·.name ≠ name)).Perm (_ ++ [policy'])
      have hkept : [policy'].filter (·.name ≠ name) = [policy'] :=
        List.filter_cons_of_pos (decide_eq_true (Ne.symm h))
      rw [List.filter_append, hkept]
      exact List.Perm.refl _
    | dropPolicy name' =>
      show ((policies.filter _).filter _).Perm ((policies.filter _).filter _)
      rw [List.filter_filter, List.filter_filter]
      simp only [Bool.and_comm, List.Perm.refl]
    | _ => exact List.Perm.refl _
  | _ => cases call' <;> exact List.Perm.refl _

variable (calls) in
/-- The policies when the waiting calls have gone on. -/
def pending (waiting : List Nat) (policies : List Policy) : List Policy :=
  waiting.foldl (fun policies i => (calls i).engine policies) policies

theorem pending_perm (h : policies.Perm policies') :
    (pending calls waiting policies).Perm (pending calls waiting policies') := by
  induction waiting generalizing policies policies' with
  | nil => exact h
  | cons i waiting ih => exact ih (engine_perm (calls i) h)

/-- A call whose turn it is may go on first. -/
theorem pending_erase {i : Nat} (hi : i ∈ waiting)
    (hturn : ∀ j ∈ waiting.takeWhile (· ≠ i), (calls j).name ≠ (calls i).name)
    (policies : List Policy) : (pending calls waiting policies).Perm
      (pending calls (waiting.erase i) ((calls i).engine policies)) := by
  induction waiting generalizing policies with
  | nil => cases hi
  | cons j waiting ih =>
    by_cases hj : j = i
    · rw [hj, List.erase_cons_head]
      exact List.Perm.refl _
    · have hfirst : (j :: waiting).takeWhile (· ≠ i) = j :: waiting.takeWhile (· ≠ i) :=
        List.takeWhile_cons_of_pos (decide_eq_true hj)
      rw [hfirst] at hturn
      obtain ⟨hname, hturn⟩ := List.forall_mem_cons.mp hturn
      rw [List.erase_cons_tail (by simpa using hj)]
      have hmem := (List.mem_cons.mp hi).resolve_left (Ne.symm hj)
      refine (ih hmem hturn ((calls j).engine policies)).trans ?_
      exact pending_perm (engine_comm (Ne.symm hname) policies)

end Waiting

/-! ## Policies -/

section Policies

open AuthService

variable {s t : AuthService} {policies : List Policy}

/-- The policies are the stored ones, each once. -/
structure Files (s : AuthService) (policies : List Policy) : Prop where
  filed : Filed { s with policies := policies }
  once : (policies.map Policy.name).Nodup

theorem Files.of_docs (h : Files s policies)
    (hdocs : ∀ k, t.systemDb.getDocument "policies" k = s.systemDb.getDocument "policies" k) :
    Files t policies := by
  simp only [getDocument_eq] at hdocs
  refine ⟨⟨fun k d hd => h.filed.stored k d ((hdocs k).symm.trans hd), fun p hp => ?_⟩, h.once⟩
  exact (hdocs _).trans (h.filed.loaded p hp)

theorem Files.perm {policies' : List Policy} (h : Files s policies)
    (hperm : policies.Perm policies') : Files s policies' where
  filed := ⟨fun k d hd => by
      obtain ⟨p, hp, heq⟩ := h.filed.stored k d hd
      exact ⟨p, hperm.mem_iff.mp hp, heq⟩,
    fun p hp => h.filed.loaded p (hperm.mem_iff.mpr hp)⟩
  once := (hperm.map Policy.name).nodup_iff.mp h.once

theorem Files.created {policy : Policy} (h : Files s policies)
    (habsent : s.systemDb.getDocument "policies" (utf8 policy.name) = none)
    (hputs : PutsDoc s t "policies" policy.name (some (policyToDocument policy))) :
    Files t (policies ++ [policy]) := by
  have hdocs := hputs.docs "policies"
  simp only [getDocument_eq, true_and] at hdocs habsent
  refine ⟨⟨fun k d hd => ?_, fun p hp => ?_⟩, ?_⟩
  · rw [hdocs] at hd
    split at hd
    · exact ⟨policy, List.mem_append_right _ (List.mem_singleton_self _),
        (Option.some.inj hd).symm⟩
    · obtain ⟨p, hp, heq⟩ := h.filed.stored k d hd
      exact ⟨p, List.mem_append_left _ hp, heq⟩
  · show (t.systemDb.docs "policies")[utf8 p.name]? = _
    rw [hdocs]
    rcases List.mem_append.mp hp with hp | hp
    · rw [if_neg]
      · exact h.filed.loaded p hp
      · intro hname
        rw [hname] at habsent
        cases habsent.symm.trans (h.filed.loaded p hp)
    · rw [List.mem_singleton.mp hp, if_pos rfl]
  · rw [List.map_append, List.nodup_append]
    refine ⟨h.once, List.nodup_singleton _, ?_⟩
    rintro a ha b hb rfl
    obtain ⟨p, hp, hname⟩ := List.mem_map.mp ha
    have hpolicy : a = policy.name := List.mem_singleton.mp hb
    have hloaded := h.filed.loaded p hp
    rw [hname, hpolicy] at hloaded
    cases habsent.symm.trans hloaded

theorem Files.dropped {name : String} (h : Files s policies)
    (hputs : PutsDoc s t "policies" name none) : Files t (policies.filter (·.name ≠ name)) := by
  have hdocs := hputs.docs "policies"
  simp only [getDocument_eq, true_and] at hdocs
  refine ⟨⟨fun k d hd => ?_, fun p hp => ?_⟩, ?_⟩
  · rw [hdocs] at hd
    split at hd
    · cases hd
    · next hk =>
      obtain ⟨p, hp, rfl⟩ := h.filed.stored k d hd
      refine ⟨p, List.mem_filter.mpr ⟨hp, decide_eq_true fun hname => hk ?_⟩, rfl⟩
      rw [← hname, ← policyToDocument_keyBytes, s.systemDb.keyed hd]
  · obtain ⟨hp, hname⟩ := List.mem_filter.mp hp
    show (t.systemDb.docs "policies")[utf8 p.name]? = _
    rw [hdocs, if_neg]
    · exact h.filed.loaded p hp
    · exact fun heq => of_decide_eq_true hname (utf8_injective heq).symm
  · exact h.once.sublist (List.filter_sublist.map _)

end Policies

/-! ## Runs in which the steps are orderly -/

section Runs

variable {calls : Nat → Call} {s₀ s : State}

/-- The waiting calls, each once. -/
structure Waits (progress : Nat → Progress) (waiting : List Nat) : Prop where
  nodup : waiting.Nodup
  mem : ∀ i, i ∈ waiting ↔ progress i = .stored

theorem Waits.erase {progress : Nat → Progress} {waiting : List Nat} (h : Waits progress waiting)
    (i : Nat) {p' : Progress} (hp' : p' ≠ .stored) :
    Waits (Function.update progress i p') (waiting.erase i) := by
  refine ⟨h.nodup.erase i, fun j => ?_⟩
  rw [h.nodup.mem_erase_iff]
  by_cases hj : j = i
  · rw [hj, Function.update_self]
    exact iff_of_false (fun hne => hne.1 rfl) hp'
  · rw [Function.update_of_ne hj, h.mem]
    exact and_iff_right hj

theorem Waits.append {progress : Nat → Progress} {waiting : List Nat} (h : Waits progress waiting)
    {i : Nat} (hp : progress i ≠ .stored) :
    Waits (Function.update progress i .stored) (waiting ++ [i]) := by
  constructor
  · refine List.nodup_append.mpr ⟨h.nodup, List.nodup_singleton i, ?_⟩
    rintro j hj k hk rfl
    obtain rfl := List.mem_singleton.mp hk
    exact hp ((h.mem j).mp hj)
  · intro j
    rw [List.mem_append, List.mem_singleton]
    by_cases hj : j = i
    · rw [hj, Function.update_self]
      exact iff_of_true (Or.inr rfl) rfl
    · rw [Function.update_of_ne hj, ← h.mem]
      exact or_iff_left hj

/-- What holds between the steps of an orderly run. -/
structure Invariant (calls : Nat → Call) (s₀ s : State) : Prop where
  fits : ∀ i, (calls i).Fits (s.progress i)
  placed : AttributesPlaced s.service
  waits : Waits s.progress s.waiting
  files : Files s.service (pending calls s.waiting s.service.policies)
  attributes : ∀ key attr, Serialized (fun i => (calls i).effect key attr) (s.Succeeded calls)
    (storedAttribute s₀.service key attr) (storedAttribute s.service key attr)

theorem SameStore.attribute {s t : AuthService} (h : SameStore s t) (key attr : String) :
    storedAttribute t key attr = storedAttribute s key attr := by
  unfold storedAttribute
  rw [h.docs]

theorem PutsDoc.attribute {s t : AuthService} {call : Call} {doc : Document}
    (h : PutsDoc s t "collection_attrs" call.name (some doc))
    (hcurrent : ∀ attr, doc.fields.lookup attr =
      call.change attr (storedAttribute s call.name attr)) (key attr : String) :
    storedAttribute t key attr = call.effect key attr (storedAttribute s key attr) := by
  unfold Call.effect
  split
  · next hkey =>
    rw [← hkey, ← hcurrent attr]
    unfold storedAttribute
    rw [h.docs, if_pos ⟨rfl, rfl⟩]
    rfl
  · next hkey =>
    unfold storedAttribute
    rw [h.docs, if_neg fun heq => hkey (utf8_injective heq.2)]

theorem PutsDoc.attribute_of_policy {s t : AuthService} {name : String} {new : Option Document}
    (h : PutsDoc s t "policies" name new) (key attr : String) :
    storedAttribute t key attr = storedAttribute s key attr := by
  unfold storedAttribute
  rw [h.docs, if_neg fun heq => absurd heq.1 (by decide)]

/-- A policy or a failure changes no attribute. -/
theorem Call.Effect.attribute {call : Call} {s t : AuthService} {p p' : Progress}
    (h : call.Effect s t p p') (key attr : String) :
    p.Open ∧ p' = .returned (.ok ()) ∧ call.isAttributes = true ∧
      storedAttribute t key attr = call.effect key attr (storedAttribute s key attr) ∨
    (p' ≠ .returned (.ok ()) ∧ p.Open ∨ p' = p ∨ call.isAttributes = false) ∧
      storedAttribute t key attr = storedAttribute s key attr := by
  cases h with
  | failed p e hopen hsame => exact Or.inr ⟨Or.inl ⟨nofun, hopen⟩, hsame.attribute key attr⟩
  | returned r hsame => exact Or.inr ⟨Or.inr (Or.inl rfl), hsame.attribute key attr⟩
  | created policy hcall _ hputs =>
    exact Or.inr ⟨Or.inl ⟨nofun, trivial⟩, hputs.attribute_of_policy key attr⟩
  | dropped name hcall hputs =>
    exact Or.inr ⟨Or.inl ⟨nofun, trivial⟩, hputs.attribute_of_policy key attr⟩
  | engine hcall hdb _ =>
    refine Or.inr ⟨Or.inr (Or.inr hcall), ?_⟩
    unfold storedAttribute
    rw [hdb]
  | drafted p doc hopen _ hsame =>
    exact Or.inr ⟨Or.inl ⟨nofun, hopen⟩, hsame.attribute key attr⟩
  | missing p doc hopen _ hsame =>
    exact Or.inr ⟨Or.inl ⟨nofun, hopen⟩, hsame.attribute key attr⟩
  | unchanged p hopen hcall hsame hnone =>
    refine Or.inl ⟨hopen, rfl, hcall, (hsame.attribute key attr).trans ?_⟩
    unfold Call.effect
    split
    · next hkey => rw [← hkey, hnone attr]
    · rfl
  | written p doc hopen hcall _ hputs hcurrent =>
    exact Or.inl ⟨hopen, rfl, hcall, hputs.attribute hcurrent key attr⟩

theorem Call.Effect.fits {call : Call} {s t : AuthService} {p p' : Progress}
    (h : call.Effect s t p p') : call.Fits p' := by
  cases h with
  | created policy hcall => exact hcall ▸ trivial
  | dropped name hcall => exact hcall ▸ trivial
  | drafted p doc _ hfits => exact hfits
  | missing p doc _ hfits => exact hfits
  | _ => cases call <;> trivial

theorem Call.Effect.placed {call : Call} {s t : AuthService} {p p' : Progress}
    (h : call.Effect s t p p') (hplaced : AttributesPlaced s) : AttributesPlaced t := by
  have hother : ∀ {name new}, PutsDoc s t "policies" name new → AttributesPlaced t := by
    intro name new hputs key doc hdoc
    rw [hputs.docs, if_neg fun heq => absurd heq.1 (by decide)] at hdoc
    exact hplaced key doc hdoc
  have hsame : SameStore s t → AttributesPlaced t := fun hsame key doc hdoc =>
    hplaced key doc ((hsame.docs _ _).symm.trans hdoc)
  cases h with
  | failed p e _ h => exact hsame h
  | returned r h => exact hsame h
  | created policy _ _ hputs => exact hother hputs
  | dropped name _ hputs => exact hother hputs
  | engine _ hdb _ =>
    intro key doc hdoc
    exact hplaced key doc (hdb ▸ hdoc)
  | drafted p doc _ _ h => exact hsame h
  | missing p doc _ _ h => exact hsame h
  | unchanged p _ _ h _ => exact hsame h
  | written p new _ _ hid hputs _ =>
    intro key doc hdoc
    rw [hputs.docs] at hdoc
    split at hdoc
    · next hkey =>
      obtain rfl := Option.some.inj hdoc
      exact hid.trans (congrArg _ (utf8_injective hkey.2))
    · exact hplaced key doc hdoc

/-- What becomes of the policies; the waiting calls are those of `next`. -/
theorem Call.Effect.files {s t : AuthService} {i : Nat} {waiting : List Nat} {p p' : Progress}
    (h : (calls i).Effect s t p p') (hfiles : Files s (pending calls waiting s.policies))
    (hwaits : i ∈ waiting ↔ p = .stored)
    (hturn : p = .stored → ∀ j ∈ waiting.takeWhile (· ≠ i), (calls j).name ≠ (calls i).name) :
    Files t (pending calls (waitingAfter waiting i p p') t.policies) := by
  -- the call has not waited and does not wait
  have hquiet : ∀ {q}, p ≠ .stored → t.policies = s.policies →
      (∀ k, t.systemDb.getDocument "policies" k = s.systemDb.getDocument "policies" k) →
      q = waiting.erase i → Files t (pending calls q t.policies) := by
    intro q hp hpolicies hdocs hq
    rw [hq, List.erase_of_not_mem fun hi => hp (hwaits.mp hi), hpolicies]
    exact hfiles.of_docs hdocs
  have hopen : p.Open → p ≠ .stored := by
    rintro hp rfl
    exact hp
  have happend : pending calls (waiting ++ [i]) s.policies =
      (calls i).engine (pending calls waiting s.policies) := List.foldl_append
  cases h with
  | failed p e hp h => exact hquiet (hopen hp) h.policies (h.docs _) (by cases p <;> rfl)
  | returned r h => exact hquiet nofun h.policies (h.docs _) rfl
  | created policy hcall habsent hputs =>
    show Files t (pending calls (waiting ++ [i]) t.policies)
    rw [hputs.policies, happend, hcall]
    exact hfiles.created habsent hputs
  | dropped name hcall hputs =>
    show Files t (pending calls (waiting ++ [i]) t.policies)
    rw [hputs.policies, happend, hcall]
    exact hfiles.dropped hputs
  | engine hcall hdb hpolicies =>
    show Files t (pending calls (waiting.erase i) t.policies)
    rw [hpolicies]
    refine (hfiles.of_docs fun k => by rw [hdb]).perm ?_
    exact pending_erase (hwaits.mpr rfl) (hturn rfl) s.policies
  | drafted p doc hp _ h => exact hquiet (hopen hp) h.policies (h.docs _) (by cases p <;> rfl)
  | missing p doc hp _ h => exact hquiet (hopen hp) h.policies (h.docs _) (by cases p <;> rfl)
  | unchanged p hp _ h _ => exact hquiet (hopen hp) h.policies (h.docs _) (by cases p <;> rfl)
  | written p doc hp _ _ hputs _ =>
    refine hquiet (hopen hp) hputs.policies (fun k => ?_) (by cases p <;> rfl)
    exact (hputs.docs _ _).trans (if_neg fun heq => absurd heq.1 (by decide))

theorem Call.Effect.waits {call : Call} {s t : AuthService} {i : Nat} {waiting : List Nat}
    {progress : Nat → Progress} {p' : Progress} (h : call.Effect s t (progress i) p')
    (hwaits : Waits progress waiting) :
    Waits (Function.update progress i p') (waitingAfter waiting i (progress i) p') := by
  generalize hp : progress i = p at h
  cases h with
  | created => exact hwaits.append (by rw [hp]; exact nofun)
  | dropped => exact hwaits.append (by rw [hp]; exact nofun)
  | failed => cases p <;> exact hwaits.erase i nofun
  | returned => exact hwaits.erase i nofun
  | engine => exact hwaits.erase i nofun
  | drafted => cases p <;> exact hwaits.erase i nofun
  | missing => cases p <;> exact hwaits.erase i nofun
  | unchanged => cases p <;> exact hwaits.erase i nofun
  | written => cases p <;> exact hwaits.erase i nofun

variable [External]

theorem Invariant.next (h : Invariant calls s₀ s) {e : Event} (horderly : s.Orderly calls e) :
    Invariant calls s₀ (s.next calls e) := by
  have heffect := step_effect h.placed e.readFails (h.fits e.call) horderly.2
  refine ⟨fun i => ?_, heffect.placed h.placed, heffect.waits h.waits,
    heffect.files h.files (h.waits.mem e.call) horderly.1, fun key attr => ?_⟩
  · show (calls i).Fits (Function.update s.progress e.call _ i)
    by_cases hi : i = e.call
    · rw [hi, Function.update_self]
      exact heffect.fits
    · rw [Function.update_of_ne hi]
      exact h.fits i
  · have hothers : ∀ i, i ≠ e.call →
        ((s.next calls e).Succeeded calls i ↔ s.Succeeded calls i) := by
      intro i hi
      unfold State.Succeeded State.next
      dsimp only
      rw [Function.update_of_ne hi]
    have hself : (s.next calls e).progress e.call =
        ((calls e.call).step e.faults e.readFails s.service (s.progress e.call)).2 :=
      Function.update_self ..
    rcases heffect.attribute key attr with ⟨hopen, hok, hcall, hvalue⟩ | ⟨hsame, hvalue⟩
    · -- the call succeeds now, and comes last in the order
      rw [show storedAttribute (s.next calls e).service key attr = _ from hvalue]
      refine (h.attributes key attr).commit (i := e.call) ?_ fun j => ?_
      · rintro ⟨-, hreturned⟩
        rw [hreturned] at hopen
        exact hopen
      · by_cases hj : j = e.call
        · rw [hj]
          exact iff_of_true ⟨hcall, hself.trans hok⟩ (Or.inr rfl)
        · rw [hothers j hj]
          exact (or_iff_left hj).symm
    · rw [show storedAttribute (s.next calls e).service key attr = _ from hvalue]
      refine (h.attributes key attr).congr fun j => ?_
      by_cases hj : j = e.call
      · rw [hj]
        unfold State.Succeeded
        rw [hself]
        rcases hsame with ⟨hne, hopen⟩ | heq | hcall
        · refine iff_of_false (fun hok => hne hok.2) fun hok => ?_
          rw [hok.2] at hopen
          exact hopen
        · rw [heq]
        · rw [hcall]
          exact iff_of_false (fun hok => Bool.false_ne_true hok.1) fun hok =>
            Bool.false_ne_true hok.1
      · exact hothers j hj

/-- No call has begun, and the policies of the engine are those stored. -/
structure Begins (s : State) : Prop where
  progress : ∀ i, s.progress i = .start
  waiting : s.waiting = []
  placed : AttributesPlaced s.service
  policies : s.service.Filed
  once : (s.service.policies.map Policy.name).Nodup

omit [External] in
theorem Begins.invariant (h : Begins s) : Invariant calls s s where
  fits i := by
    rw [h.progress]
    cases calls i <;> trivial
  placed := h.placed
  waits := by
    rw [h.waiting]
    refine ⟨List.nodup_nil, fun i => iff_of_false (List.not_mem_nil) ?_⟩
    rw [h.progress]
    exact nofun
  files := by
    rw [h.waiting]
    exact ⟨h.policies, h.once⟩
  attributes key attr := Serialized.initial fun i hi => by
    have hok := hi.2
    rw [h.progress] at hok
    cases hok

/-- **Concurrent authorization.** In a run of any calls, whatever the order of their steps, whose
steps are orderly: once all calls that have begun have returned, the policies of the engine are
those stored, and each attribute has the value of some serial order of the successful calls. -/
theorem survives_of_orderly (hbegins : Begins s) (calls : Nat → Call) (events : List Event)
    (horderly : Runs.Meets (State.next calls) (State.Orderly calls) s events)
    (hsettled : (events.foldl (State.next calls) s).Settled) :
    Survives calls s (events.foldl (State.next calls) s) := by
  have hinv := Runs.foldl_invariant (Invariant calls s) (fun _ _ h horderly => h.next horderly)
    hbegins.invariant horderly events (List.prefix_refl _)
  generalize events.foldl (State.next calls) s = t at hsettled hinv
  have hwaiting : t.waiting = [] := by
    refine List.eq_nil_iff_forall_not_mem.mpr fun i hi => ?_
    have hstored := (hinv.waits.mem i).mp hi
    rcases hsettled i with hstart | ⟨r, hr⟩
    · cases hstored.symm.trans hstart
    · cases hstored.symm.trans hr
  have hfiles := hinv.files
  rw [hwaiting] at hfiles
  exact ⟨hfiles.filed, hfiles.once, hinv.attributes⟩

end Runs

end Authorization

/-! ## A dropped policy that stays, an attribute that is lost -/

namespace Curators

open Authorization

local instance : External := .standIn

def idle : State where
  service := ⟨⟨fun _ => none, fun _ => [], fun _ => ∅, ⟨[], fun _ => ∅⟩⟩, []⟩
  progress := fun _ => .start
  waiting := []

theorem idle_begins : Begins idle where
  progress _ := rfl
  waiting := rfl
  placed := nofun
  policies := ⟨nofun, nofun⟩
  once := List.nodup_nil

def step (i : Nat) : Event := ⟨i, .none, false⟩

def everyone : Policy := ⟨"everyone", [], .allow⟩

/-- One call creates a policy, another drops it. -/
def policyCalls (i : Nat) : Call :=
  if i = 0 then .createPolicy everyone else .dropPolicy "everyone"

/-- Two calls set attributes of one collection. -/
def attributeCalls (i : Nat) : Call :=
  .setCollectionAttributes "main" "books" [if i = 0 then ("owner", "ann") else ("level", "secret")]

def after (calls : Nat → Call) (order : List Nat) : State :=
  (order.map step).foldl (State.next calls) idle

/-- The answer of a call; 0 stands for success. -/
def answer (s : State) (i : Nat) : Option Nat :=
  match s.progress i with
  | .returned (.ok ()) => some 0
  | .returned (.error _) => some 1
  | _ => none

theorem started (calls : Nat → Call) (order : List Nat) {i : Nat} (hi : i ∉ order) :
    (after calls order).progress i = .start := by
  have hfoldl : ∀ (s : State), ((order.map step).foldl (State.next calls) s).progress i =
      s.progress i := by
    induction order with
    | nil => exact fun s => rfl
    | cons j order ih =>
      obtain ⟨hj, horder⟩ := not_or.mp (mt List.mem_cons.mpr hi)
      intro s
      exact (ih horder _).trans (Function.update_of_ne hj _ _)
  exact hfoldl idle

theorem settled {calls : Nat → Call} {order : List Nat}
    (h : ∀ i ∈ order, (answer (after calls order) i).isSome) : (after calls order).Settled := by
  intro i
  by_cases hi : i ∈ order
  · have hsome := h i hi
    unfold answer at hsome
    split at hsome
    · next hr => exact Or.inr ⟨_, hr⟩
    · next hr => exact Or.inr ⟨_, hr⟩
    · cases hsome
  · exact Or.inl (started calls order hi)

theorem succeeded_of_answer {s : State} {i : Nat} (h : answer s i = some 0) :
    s.progress i = .returned (.ok ()) := by
  unfold answer at h
  split at h
  · next hr => exact hr
  · cases h
  · cases h

/-- The policy is dropped between the two steps of its creation; a collection's second attributes
are written over its first ones. -/
theorem lost_updates : Begins idle ∧
    (after policyCalls [0, 1, 1, 0]).Settled ∧
    ¬Survives policyCalls idle (after policyCalls [0, 1, 1, 0]) ∧
    (after attributeCalls [0, 1, 0, 0, 1]).Settled ∧
    ¬Survives attributeCalls idle (after attributeCalls [0, 1, 0, 0, 1]) := by
  refine ⟨idle_begins, settled (by decide +kernel), fun h => ?_, settled (by decide +kernel),
    fun h => ?_⟩
  · have hmem : everyone ∈ (after policyCalls [0, 1, 1, 0]).service.policies := by decide +kernel
    have hloaded := congrArg Option.isSome (h.policies.loaded everyone hmem)
    have hnone : ((after policyCalls [0, 1, 1, 0]).service.systemDb.docs
        "policies")[utf8 everyone.name]?.isSome = false := by decide +kernel
    exact Bool.false_ne_true (hnone.symm.trans hloaded)
  · have howner := h.attributes "main:books" "owner"
    have hdone : ∀ i, (after attributeCalls [0, 1, 0, 0, 1]).Succeeded attributeCalls i ↔
        i ∈ [0, 1] := by
      intro i
      constructor
      · rintro ⟨-, hok⟩
        by_contra hi
        have hsubset : [0, 1, 0, 0, 1] ⊆ [0, 1] := by decide
        cases (started attributeCalls _ fun hmem => hi (hsubset hmem)).symm.trans hok
      · intro hi
        refine ⟨rfl, succeeded_of_answer ?_⟩
        revert i
        decide +kernel
    obtain ⟨order, horder, hvalue⟩ :=
      (serialized_iff_permutations (by decide) hdone).mp howner
    have hserial : ∀ order ∈ [0, 1].permutations', (serial (fun i =>
        (attributeCalls i).effect "main:books" "owner") order
          (storedAttribute idle.service "main:books" "owner")).isSome = true := by decide +kernel
    have hlost : (storedAttribute (after attributeCalls [0, 1, 0, 0, 1]).service "main:books"
        "owner").isSome = false := by decide +kernel
    rw [← hvalue, hserial order horder] at hlost
    cases hlost

/-- The owner of a collection is set; a policy is created while another one is dropped. -/
def orderlyCalls (i : Nat) : Call :=
  if i = 0 then .createPolicy everyone else if i = 1 then .dropPolicy "nobody"
  else .setCollectionAttributes "main" "books" [("owner", "ann")]

def isStored : Authorization.Progress → Bool
  | .stored => true
  | _ => false

/-- Its steps are orderly. -/
theorem orderly_run : Runs.Meets (State.next orderlyCalls) (State.Orderly orderlyCalls) idle
    ([2, 2, 2, 0, 1, 0].map step) := by
  have hstart : ∀ order {i}, i ∉ order →
      (after orderlyCalls order).Orderly orderlyCalls (step i) := by
    intro order i hi
    have hprogress := started orderlyCalls order hi
    refine ⟨fun h => (Progress.noConfusion (hprogress.symm.trans h)), ?_⟩
    show Timely _ (orderlyCalls i) _ false ((after orderlyCalls order).progress i)
    rw [hprogress]
    cases orderlyCalls i with
    | removeCollectionAttributes => exact nofun
    | _ => trivial
  have hstored : (after orderlyCalls [2, 2, 2, 0, 1]).progress 0 = .stored := by
    have h : isStored ((after orderlyCalls [2, 2, 2, 0, 1]).progress 0) = true := by
      decide +kernel
    unfold isStored at h
    split at h
    · next hp => exact hp
    · cases h
  refine ⟨hstart [] List.not_mem_nil, ⟨nofun, nofun⟩, ⟨nofun, ⟨?_, ?_⟩⟩,
    hstart [2, 2, 2] (by decide), hstart [2, 2, 2, 0] (by decide), ⟨?_, ?_⟩,
    trivial⟩
  · rintro (hfound | hconflict)
    · cases hfound
    · cases hconflict
  · exact fun _ _ => (current_of_read idle.service "main" "books").1 [("owner", "ann")]
  · exact fun _ => by decide +kernel
  · show Timely (after orderlyCalls [2, 2, 2, 0, 1]).service (orderlyCalls 0) .none false
      ((after orderlyCalls [2, 2, 2, 0, 1]).progress 0)
    rw [hstored]
    trivial

theorem orderly_survives :
    Survives orderlyCalls idle (after orderlyCalls [2, 2, 2, 0, 1, 0]) :=
  survives_of_orderly idle_begins orderlyCalls _ orderly_run (settled (by decide +kernel))

end Curators

end StellarDb
