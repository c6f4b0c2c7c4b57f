import StellarDb.Auth.Policies
import StellarDb.Transaction.Documents
import StellarDb.Transaction.Delete

/-!
# StellarDb — what policies decide

A run of `CREATE POLICY` statements against the decision they ask for: a request is allowed if
some ALLOW policy holds and no DENY policy does. The engine follows it but for conditions `field
IN (v)` with one value: the conversion makes them a single value, which the engine never matches
under `IN`. The order of the policies and a restart make no difference.
-/

namespace StellarDb

open Keyspaces

/-! ## The service -/

structure AuthService where
  systemDb : Database
  /-- The policies of the engine. -/
  policies : List Policy

inductive AuthError where
  | alreadyExists (kind name : String)
  | notFound (kind name : String)
  | invalid (msg : String)
  | internal (error : StorageError)

/-- The documents of `policies` page by page, for at most so many pages. -/
def policyDocuments (db : Database) : Nat → Option String → List Document
  | 0, _ => []
  | pages + 1, after =>
    match db.listDocuments "policies" after 100 with
    | (docs, some cursor) => docs ++ policyDocuments db pages (some cursor)
    | (docs, none) => docs

/-- The documents of a collection page by page, for at most so many pages. -/
def documentPages (db : Database) (collection : String) : Nat → Option String → List Document
  | 0, _ => []
  | pages + 1, after =>
    match db.listDocuments collection after 100 with
    | (docs, some cursor) => docs ++ documentPages db collection pages (some cursor)
    | (docs, none) => docs

namespace AuthService

def createPolicyTyped [External] (f : Faults) (s : AuthService) (policy : Policy) :
    AuthService × Except AuthError Unit :=
  match s.systemDb.createDocument f (policyToDocument policy) with
  | (db, .error e) => ({ s with systemDb := db }, .error (.internal e))
  | (db, .ok false) => ({ s with systemDb := db }, .error (.alreadyExists "policy" policy.name))
  | (db, .ok true) => ({ systemDb := db, policies := s.policies ++ [policy] }, .ok ())

/-- A statement, from its parse tree on. -/
def createPolicy [External] (f : Faults) (s : AuthService) (pair : CreatePolicyPair) :
    AuthService × Except AuthError Unit :=
  s.createPolicyTyped f (parseCreatePolicy pair).toPolicy

/-- Every document is on some page, so there are no more pages than documents and one. -/
def reloadPolicies (s : AuthService) : AuthService :=
  let docs := policyDocuments s.systemDb ((s.systemDb.docs "policies").size + 1) none
  { s with policies := docs.filterMap fun doc => (documentToPolicy doc).toOption }

/-- The service after a list of statements. -/
def run [External] (s : AuthService) (stmts : List (Faults × CreatePolicyPair)) : AuthService :=
  stmts.foldl (fun s stmt => (s.createPolicy stmt.1 stmt.2).1) s

/-- The statements of the list that are answered with success. -/
def created [External] (s : AuthService) : List (Faults × CreatePolicyPair) → List CreatePolicyPair
  | [] => []
  | stmt :: stmts =>
    match s.createPolicy stmt.1 stmt.2 with
    | (t, .ok ()) => stmt.2 :: t.created stmts
    | (t, .error _) => t.created stmts

/-- No policy has been created. -/
structure Fresh (s : AuthService) : Prop where
  engine : s.policies = []
  stored : s.systemDb.docs "policies" = ∅

end AuthService

/-! ## What statements ask for -/

section Meaning

variable (subject : Subject) (action : Action) (resource : Resource)

/-- The condition as it is written. `=` and `!=` have one value. -/
def PolicyConditionPair.Holds (c : PolicyConditionPair) : Prop :=
  let actual := resolveField subject action resource (parsePolicyCondition c).field
  match c.op with
  | .eq => actual = some c.first
  | .ne => actual ≠ some c.first
  | .kwIn => ∃ v ∈ c.first :: c.rest, actual = some v

def CreatePolicyPair.Holds (p : CreatePolicyPair) : Prop :=
  ∀ c ∈ p.conditions, c.Holds subject action resource

/-- Some policy of the list with this effect holds. -/
def SomeHolds (effect : Effect) (policies : List CreatePolicyPair) : Prop :=
  ∃ p ∈ policies, p.effect = effect ∧ p.Holds subject action resource

/-- `field IN (v)` -/
def PolicyConditionPair.OneValueIn (c : PolicyConditionPair) : Prop := c.op = .kwIn ∧ c.rest = []

/-- Some policy of the list with this effect holds that has no condition `field IN (v)`. -/
def SomePlainHolds (effect : Effect) (policies : List CreatePolicyPair) : Prop :=
  ∃ p ∈ policies, p.effect = effect ∧ (∀ c ∈ p.conditions, ¬c.OneValueIn) ∧
    p.Holds subject action resource

/-- Some policy of the list with this effect holds that has a condition `field IN (v)`. -/
def SomeOneValueHolds (effect : Effect) (policies : List CreatePolicyPair) : Prop :=
  ∃ p ∈ policies, p.effect = effect ∧ (∃ c ∈ p.conditions, c.OneValueIn) ∧
    p.Holds subject action resource

theorem someHolds_iff (effect : Effect) (policies : List CreatePolicyPair) :
    SomeHolds subject action resource effect policies ↔
      SomePlainHolds subject action resource effect policies ∨
        SomeOneValueHolds subject action resource effect policies := by
  constructor
  · rintro ⟨p, hp, heffect, hholds⟩
    by_cases hone : ∃ c ∈ p.conditions, c.OneValueIn
    · exact Or.inr ⟨p, hp, heffect, hone, hholds⟩
    · push Not at hone
      exact Or.inl ⟨p, hp, heffect, hone, hholds⟩
  · rintro (⟨p, hp, heffect, -, hholds⟩ | ⟨p, hp, heffect, -, hholds⟩) <;>
      exact ⟨p, hp, heffect, hholds⟩

end Meaning

/-- A single value behind `=` and `!=`. -/
def CreatePolicyPair.WellFormed (p : CreatePolicyPair) : Prop :=
  ∀ c ∈ p.conditions, c.op ≠ .kwIn → c.rest = []

/-! ## Decisions -/

section Decisions

variable {subject : Subject} {action : Action} {resource : Resource}

theorem contains_actual_iff (actual : Option String) (values : List String) :
    (match actual with | some val => values.contains val | none => false) = true ↔
      ∃ v ∈ values, actual = some v := by
  cases actual with
  | none => simp
  | some val => simp only [List.contains_iff_mem, Option.some.injEq, exists_eq_right']

theorem conditionMatches_iff {c : PolicyConditionPair} (hwf : c.op ≠ .kwIn → c.rest = []) :
    conditionMatches subject action resource (parsePolicyCondition c).toCondition = true ↔
      ¬c.OneValueIn ∧ c.Holds subject action resource := by
  obtain ⟨field, op, first, rest⟩ := c
  cases op with
  | ne =>
    obtain rfl : rest = [] := hwf nofun
    show decide (resolveField _ _ _ _ ≠ some first) = true ↔ _ ∧ resolveField _ _ _ _ ≠ some first
    rw [decide_eq_true_iff]
    exact (and_iff_right (by rintro ⟨hin, -⟩; cases hin)).symm
  | eq =>
    obtain rfl : rest = [] := hwf nofun
    show decide (resolveField _ _ _ _ = some first) = true ↔ _ ∧ resolveField _ _ _ _ = some first
    rw [decide_eq_true_iff]
    exact (and_iff_right (by rintro ⟨hin, -⟩; cases hin)).symm
  | kwIn =>
    cases rest with
    | nil => exact iff_of_false Bool.false_ne_true fun h => h.1 ⟨rfl, rfl⟩
    | cons second rest =>
      have hplain : ¬(⟨field, .kwIn, first, second :: rest⟩ : PolicyConditionPair).OneValueIn :=
        fun h => List.cons_ne_nil _ _ h.2
      rw [and_iff_right hplain]
      exact contains_actual_iff _ (first :: second :: rest)

theorem policyMatches_iff {p : CreatePolicyPair} (hwf : p.WellFormed) :
    policyMatches subject action resource (parseCreatePolicy p).toPolicy = true ↔
      (∀ c ∈ p.conditions, ¬c.OneValueIn) ∧ p.Holds subject action resource := by
  unfold policyMatches parseCreatePolicy CreatePolicyAst.toPolicy CreatePolicyPair.Holds
  rw [List.all_eq_true]
  simp only [List.map_map, List.forall_mem_map, ← forall₂_and]
  refine forall₂_congr fun c hc => ?_
  exact conditionMatches_iff (hwf c hc)

theorem evaluateFrom_allowed (hasAllow : Bool) (policies : List Policy) :
    evaluateFrom subject action resource hasAllow policies = .allowed ↔
      (hasAllow = true ∨ ∃ p ∈ policies, p.effect = .allow ∧
        policyMatches subject action resource p = true) ∧
      ∀ p ∈ policies, p.effect = .deny → policyMatches subject action resource p = false := by
  induction policies generalizing hasAllow with
  | nil => cases hasAllow <;> simp [evaluateFrom]
  | cons p policies ih =>
    unfold evaluateFrom
    cases hmatch : policyMatches subject action resource p with
    | false => simp [ih, hmatch]
    | true =>
      cases heffect : p.effect with
      | deny => simp [hmatch, heffect]
      | allow => simp [ih, hmatch, heffect]

/-- Decisions depend on the policies only, not on their order. -/
theorem evaluate_allowed (hroot : subject.userId ≠ "root") (policies : List Policy) :
    evaluate subject action resource policies = .allowed ↔
      (∃ p ∈ policies, p.effect = .allow ∧ policyMatches subject action resource p = true) ∧
      ∀ p ∈ policies, p.effect = .deny → policyMatches subject action resource p = false := by
  rw [evaluate, if_neg hroot, evaluateFrom_allowed]
  simp

theorem evaluate_allowed_congr (hroot : subject.userId ≠ "root") {ps qs : List Policy}
    (h : ∀ p, p ∈ ps ↔ p ∈ qs) : evaluate subject action resource ps = .allowed ↔
      evaluate subject action resource qs = .allowed := by
  rw [evaluate_allowed hroot, evaluate_allowed hroot]
  simp only [h]

/-- The engine on the policies of a list of statements. -/
theorem evaluate_statements (hroot : subject.userId ≠ "root") {stmts : List CreatePolicyPair}
    (hwf : ∀ p ∈ stmts, p.WellFormed) :
    evaluate subject action resource (stmts.map fun p => (parseCreatePolicy p).toPolicy) = .allowed ↔
      SomePlainHolds subject action resource .allow stmts ∧
        ¬SomePlainHolds subject action resource .deny stmts := by
  rw [evaluate_allowed hroot]
  have hsome : ∀ effect, (∃ p ∈ stmts.map fun p => (parseCreatePolicy p).toPolicy,
      p.effect = effect ∧ policyMatches subject action resource p = true) ↔
        SomePlainHolds subject action resource effect stmts := by
    intro effect
    unfold SomePlainHolds
    constructor
    · rintro ⟨_, hmem, heffect, hmatch⟩
      obtain ⟨p, hp, rfl⟩ := List.mem_map.mp hmem
      exact ⟨p, hp, heffect, (policyMatches_iff (hwf p hp)).mp hmatch⟩
    · rintro ⟨p, hp, heffect, hholds⟩
      exact ⟨_, List.mem_map_of_mem hp, heffect, (policyMatches_iff (hwf p hp)).mpr hholds⟩
  refine and_congr (hsome .allow) ?_
  rw [← hsome .deny]
  simp

end Decisions

/-! ## The stored policies -/

/-- The documents from a point of the listing on. -/
theorem documentPages_after {db : Database} {c : String} {rest : List (Bytes × Document)} {pages : Nat}
    (hpages : rest.length < pages) {after : Option String}
    (hpage : db.listDocuments c after 100 = Database.entriesPage rest 100)
    (htail : ∃ front, (db.docs c).toList = front ++ rest) :
    documentPages db c pages after = rest.map (·.2) := by
  induction pages generalizing rest after with
  | zero => omega
  | succ pages ih =>
    unfold documentPages
    rw [hpage, Database.entriesPage]
    by_cases hmore : 100 < rest.length
    · -- the cursor is the last document of the page
      obtain ⟨front, hfront⟩ := htail
      have hne : rest.take 100 ≠ [] := by
        intro hnil
        have hlen := congrArg List.length hnil
        rw [List.length_take, List.length_nil] at hlen
        omega
      have hsplit : rest.take 100 = (rest.take 100).dropLast ++ [(rest.take 100).getLast hne] :=
        (List.dropLast_append_getLast hne).symm
      have hall : (db.docs c).toList =
          (front ++ (rest.take 100).dropLast) ++ (rest.take 100).getLast hne :: rest.drop 100 := by
        rw [hfront, List.append_assoc]
        refine congrArg (front ++ ·) ?_
        rw [List.append_cons, ← hsplit, List.take_append_drop]
      rw [if_pos hmore, List.getLast?_eq_some_getLast hne]
      show (rest.take 100).map (·.2) ++ documentPages db c pages (some _) = rest.map (·.2)
      rw [ih (by rw [List.length_drop]; omega) (Database.listDocuments_after hall 100)
        ⟨_, by rw [hall, List.append_cons]⟩, ← List.map_append, List.take_append_drop]
    · rw [if_neg hmore]

theorem documentPages_eq (db : Database) (c : String) :
    documentPages db c ((db.docs c).size + 1) none = db.storedDocuments c := by
  refine documentPages_after ?_ (Database.listDocuments_none db c 100) ⟨[], rfl⟩
  rw [Std.ExtTreeMap.length_toList]
  omega

theorem policyDocuments_eq_pages (db : Database) (pages : Nat) (after : Option String) :
    policyDocuments db pages after = documentPages db "policies" pages after := by
  induction pages generalizing after with
  | zero => rfl
  | succ pages ih =>
    unfold policyDocuments documentPages
    simp only [ih]

theorem policyDocuments_eq (db : Database) :
    policyDocuments db ((db.docs "policies").size + 1) none = db.storedDocuments "policies" :=
  (policyDocuments_eq_pages ..).trans (documentPages_eq db "policies")

namespace AuthService

variable [External] {s : AuthService}

/-- A call of `create_document` stores the document, or leaves all documents. -/
theorem createDocument_docs (f : Faults) (db : Database) (doc : Document) :
    ((db.createDocument f doc).2 = .ok true ∧ (db.docs doc.collection)[doc.keyBytes]? = none ∧
      ∀ (c : String) (k : Bytes), ((db.createDocument f doc).1.docs c)[k]? =
        if doc.collection = c ∧ doc.keyBytes = k then some doc else (db.docs c)[k]?) ∨
    ((db.createDocument f doc).2 ≠ .ok true ∧
      ∀ c, (db.createDocument f doc).1.docs c = db.docs c) := by
  obtain ⟨db0, hopened, houtcome⟩ := DocCall.create_outcome f db doc
  generalize db.createDocument f doc = answer at houtcome ⊢
  cases houtcome with
  | untouched r _ hr => exact Or.inr ⟨hr, fun c => hopened.docs c⟩
  | violated e _ _ =>
    exact Or.inr ⟨nofun, fun c => (Database.setLocks_docs ..).trans (hopened.docs c)⟩
  | rolledBack r _ _ _ hr =>
    exact Or.inr ⟨hr, fun c => (Database.setLocks_docs ..).trans (hopened.docs c)⟩
  | committed removals hreach _ hcommits _ =>
    refine Or.inl ⟨rfl, ?_, ?_⟩
    · have habsent := hcommits.2.2
      rw [hopened.getDocument, Database.getDocument_eq] at habsent
      exact habsent
    · intro c k
      have hks : ((db0.setLocks doc.collection ((DocCall.create doc).validated db0).1).keyspaces
          doc.collection).isSome := by
        rw [Database.setLocks_isSome]
        exact hreach.1
      refine (DocCall.docs_commitTx db0 (.create doc) removals hks c k).trans ?_
      rw [Database.setLocks_docs, hopened.docs]
      rfl

/-- The stored documents are those of the engine's policies. -/
structure Filed (s : AuthService) : Prop where
  stored : ∀ (k : Bytes) (d : Document), (s.systemDb.docs "policies")[k]? = some d →
    ∃ p ∈ s.policies, d = policyToDocument p
  loaded : ∀ p ∈ s.policies,
    (s.systemDb.docs "policies")[utf8 p.name]? = some (policyToDocument p)

omit [External] in
theorem Fresh.filed (h : s.Fresh) : s.Filed where
  stored k d hd := by
    rw [h.stored] at hd
    cases hd
  loaded p hp := by
    rw [h.engine] at hp
    cases hp

omit [External] in
theorem policyToDocument_id (p : Policy) : (policyToDocument p).id = "policies" ++ ":" ++ p.name :=
  congrArg (· ++ p.name) (show "policies:" = "policies" ++ ":" by decide)

omit [External] in
theorem policyToDocument_collection (p : Policy) : (policyToDocument p).collection = "policies" := by
  unfold Document.collection
  rw [policyToDocument_id]
  have hlist : "policies".toList = ['p', 'o', 'l', 'i', 'c', 'i', 'e', 's'] := by decide
  rw [String.toList_append, String.toList_append, hlist]
  rfl

omit [External] in
theorem policyToDocument_keyBytes (p : Policy) : (policyToDocument p).keyBytes = utf8 p.name := by
  unfold Document.keyBytes Document.key
  rw [policyToDocument_id, splitOnce_append (by decide)]

/-- A statement adds its policy to the engine and the store, or to neither. -/
theorem createPolicyTyped_cases (f : Faults) (s : AuthService) (policy : Policy) :
    ((s.createPolicyTyped f policy).2 = .ok () ∧
      (s.createPolicyTyped f policy).1.policies = s.policies ++ [policy] ∧
      (s.systemDb.docs "policies")[utf8 policy.name]? = none ∧
      ∀ k, ((s.createPolicyTyped f policy).1.systemDb.docs "policies")[k]? =
        if utf8 policy.name = k then some (policyToDocument policy)
        else (s.systemDb.docs "policies")[k]?) ∨
    ((s.createPolicyTyped f policy).2 ≠ .ok () ∧
      (s.createPolicyTyped f policy).1.policies = s.policies ∧
      (s.createPolicyTyped f policy).1.systemDb.docs "policies" = s.systemDb.docs "policies") := by
  have hdocs := createDocument_docs f s.systemDb (policyToDocument policy)
  rw [policyToDocument_collection, policyToDocument_keyBytes] at hdocs
  unfold createPolicyTyped
  rcases hcall : s.systemDb.createDocument f (policyToDocument policy) with ⟨db, r⟩
  rw [hcall] at hdocs
  rcases hdocs with ⟨hr, habsent, hdocs⟩ | ⟨hr, hdocs⟩
  · obtain rfl : r = .ok true := hr
    refine Or.inl ⟨rfl, rfl, habsent, fun k => ?_⟩
    refine (hdocs "policies" k).trans (if_congr (and_iff_right rfl) rfl rfl)
  · match r, hr with
    | .error e, _ => exact Or.inr ⟨nofun, rfl, hdocs "policies"⟩
    | .ok false, _ => exact Or.inr ⟨nofun, rfl, hdocs "policies"⟩
    | .ok true, hr => exact absurd rfl hr

theorem Filed.createPolicyTyped (h : s.Filed) (f : Faults) (policy : Policy) :
    (s.createPolicyTyped f policy).1.Filed := by
  rcases createPolicyTyped_cases f s policy with ⟨-, hengine, habsent, hdocs⟩ | ⟨-, hengine, hdocs⟩
  · refine ⟨fun k d hd => ?_, fun p hp => ?_⟩
    · rw [hdocs] at hd
      rw [hengine]
      split at hd
      · exact ⟨policy, by simp, (Option.some.inj hd).symm⟩
      · obtain ⟨p, hp, rfl⟩ := h.stored k d hd
        exact ⟨p, List.mem_append_left _ hp, rfl⟩
    · rw [hengine] at hp
      rw [hdocs]
      rcases List.mem_append.mp hp with hp | hp
      · rw [if_neg]
        · exact h.loaded p hp
        · intro hname
          rw [hname, h.loaded p hp] at habsent
          cases habsent
      · rw [List.mem_singleton.mp hp, if_pos rfl]
  · exact ⟨fun k d hd => hengine ▸ h.stored k d (hdocs ▸ hd),
      fun p hp => hdocs ▸ h.loaded p (hengine ▸ hp)⟩

/-- The engine has the policies of the statements answered with success. -/
theorem run_policies (s : AuthService) (stmts : List (Faults × CreatePolicyPair)) :
    (s.run stmts).policies =
      s.policies ++ (s.created stmts).map fun p => (parseCreatePolicy p).toPolicy := by
  induction stmts generalizing s with
  | nil => exact (List.append_nil _).symm
  | cons stmt stmts ih =>
    have hcases := createPolicyTyped_cases stmt.1 s (parseCreatePolicy stmt.2).toPolicy
    show ((s.createPolicy stmt.1 stmt.2).1.run stmts).policies = _
    rw [ih, created]
    unfold createPolicy at *
    rcases hcall : s.createPolicyTyped stmt.1 (parseCreatePolicy stmt.2).toPolicy with ⟨t, r⟩
    rw [hcall] at hcases
    rcases hcases with ⟨hr, hengine, -⟩ | ⟨hr, hengine, -⟩
    · obtain rfl : r = .ok () := hr
      have hengine : t.policies = s.policies ++ [(parseCreatePolicy stmt.2).toPolicy] := hengine
      show t.policies ++ _ = s.policies ++ ((stmt.2 :: t.created stmts).map _)
      rw [hengine, List.map_cons, List.append_assoc, List.singleton_append]
    · match r, hr with
      | .error e, _ => exact congrArg (· ++ _) hengine
      | .ok (), hr => exact absurd rfl hr

theorem Filed.run (h : s.Filed) (stmts : List (Faults × CreatePolicyPair)) : (s.run stmts).Filed := by
  induction stmts generalizing s with
  | nil => exact h
  | cons stmt stmts ih => exact ih (h.createPolicyTyped stmt.1 _)

omit [External] in
/-- A restart loads the same policies, in the order of their names. -/
theorem Filed.mem_reloaded (h : s.Filed) (p : Policy) :
    p ∈ s.reloadPolicies.policies ↔ p ∈ s.policies := by
  unfold reloadPolicies
  rw [policyDocuments_eq, List.mem_filterMap]
  constructor
  · rintro ⟨d, hd, hp⟩
    rw [Database.mem_storedDocuments, Database.getDocument_eq] at hd
    obtain ⟨q, hq, rfl⟩ := h.stored d.keyBytes d hd
    rw [documentToPolicy_policyToDocument] at hp
    obtain rfl := Option.some.inj hp
    exact hq
  · intro hp
    refine ⟨policyToDocument p, ?_, ?_⟩
    · rw [Database.mem_storedDocuments, Database.getDocument_eq, policyToDocument_keyBytes]
      exact h.loaded p hp
    · rw [documentToPolicy_policyToDocument]
      rfl

theorem mem_created {stmts : List (Faults × CreatePolicyPair)} {p : CreatePolicyPair}
    (h : p ∈ s.created stmts) : ∃ stmt ∈ stmts, stmt.2 = p := by
  induction stmts generalizing s with
  | nil => cases h
  | cons stmt stmts ih =>
    rw [created] at h
    split at h
    · rcases List.mem_cons.mp h with rfl | h
      · exact ⟨stmt, List.mem_cons_self, rfl⟩
      · obtain ⟨stmt', hstmt', rfl⟩ := ih h
        exact ⟨stmt', List.mem_cons_of_mem _ hstmt', rfl⟩
    · obtain ⟨stmt', hstmt', rfl⟩ := ih h
      exact ⟨stmt', List.mem_cons_of_mem _ hstmt', rfl⟩

/-- Decisions are what the created policies ask for, in every order and after a restart, exactly
if a policy with a condition `field IN (v)` that holds makes no difference. -/
theorem decisions_mean_iff (hfresh : s.Fresh) (stmts : List (Faults × CreatePolicyPair))
    (hwf : ∀ stmt ∈ stmts, stmt.2.WellFormed) {subject : Subject} (hroot : subject.userId ≠ "root")
    (action : Action) (resource : Resource) :
    ((evaluate subject action resource (s.run stmts).policies = .allowed ↔
        SomeHolds subject action resource .allow (s.created stmts) ∧
          ¬SomeHolds subject action resource .deny (s.created stmts)) ∧
      (∀ policies, policies.Perm (s.run stmts).policies →
        (evaluate subject action resource policies = .allowed ↔
          evaluate subject action resource (s.run stmts).policies = .allowed)) ∧
      (∀ p ∈ (s.run stmts).policies, documentToPolicy (policyToDocument p) = .ok p) ∧
      (evaluate subject action resource (s.run stmts).reloadPolicies.policies = .allowed ↔
        evaluate subject action resource (s.run stmts).policies = .allowed)) ↔
    (SomeOneValueHolds subject action resource .deny (s.created stmts) →
      SomePlainHolds subject action resource .deny (s.created stmts) ∨
        ¬SomePlainHolds subject action resource .allow (s.created stmts)) ∧
    (SomeOneValueHolds subject action resource .allow (s.created stmts) →
      SomePlainHolds subject action resource .allow (s.created stmts) ∨
        SomePlainHolds subject action resource .deny (s.created stmts) ∨
          SomeOneValueHolds subject action resource .deny (s.created stmts)) := by
  have hfiled := hfresh.filed.run stmts
  have hcreated : ∀ p ∈ s.created stmts, p.WellFormed := by
    intro p hp
    obtain ⟨stmt, hstmt, rfl⟩ := mem_created hp
    exact hwf stmt hstmt
  have hdecision : evaluate subject action resource (s.run stmts).policies = .allowed ↔
      SomePlainHolds subject action resource .allow (s.created stmts) ∧
        ¬SomePlainHolds subject action resource .deny (s.created stmts) := by
    rw [run_policies, hfresh.engine, List.nil_append]
    exact evaluate_statements hroot hcreated
  have hothers : (∀ policies, policies.Perm (s.run stmts).policies →
        (evaluate subject action resource policies = .allowed ↔
          evaluate subject action resource (s.run stmts).policies = .allowed)) ∧
      (∀ p ∈ (s.run stmts).policies, documentToPolicy (policyToDocument p) = .ok p) ∧
      (evaluate subject action resource (s.run stmts).reloadPolicies.policies = .allowed ↔
        evaluate subject action resource (s.run stmts).policies = .allowed) :=
    ⟨fun _ hperm => evaluate_allowed_congr hroot fun _ => hperm.mem_iff,
      fun p _ => documentToPolicy_policyToDocument p,
      evaluate_allowed_congr hroot hfiled.mem_reloaded⟩
  rw [and_iff_left hothers, hdecision, someHolds_iff, someHolds_iff]
  tauto

end AuthService

/-! ## A DENY policy that never matches -/

namespace Guards

local instance : External := .standIn

/-- A service without policies. -/
def service : AuthService where
  systemDb := ⟨fun _ => none, fun _ => [], fun _ => ∅, ⟨[], fun _ => ∅⟩⟩
  policies := []

theorem service_fresh : service.Fresh := ⟨rfl, rfl⟩

def condition (op : PolicyOpPair) (first : String) (rest : List String) : PolicyConditionPair where
  field := .path "subject" "role"
  op := op
  first := first
  rest := rest

/-- `CREATE POLICY everyone WHEN subject.role != 'none' ALLOW` -/
def everyone : CreatePolicyPair := ⟨"everyone", condition .ne "none" [], [], .allow⟩

/-- `CREATE POLICY no_guests WHEN subject.role IN ('guest') DENY` -/
def noGuests : CreatePolicyPair := ⟨"no_guests", condition .kwIn "guest" [], [], .deny⟩

/-- `CREATE POLICY no_guests WHEN subject.role IN ('guest', 'bot') DENY` -/
def noGuestsOrBots : CreatePolicyPair := ⟨"no_guests", condition .kwIn "guest" ["bot"], [], .deny⟩

def guest : Subject := ⟨"gina", fun attr => if attr = "role" then some "guest" else none⟩

def books : Resource := ⟨"main", some "books", fun _ => none⟩

/-- The statements of one list, without storage faults. -/
def both (deny : CreatePolicyPair) : List (Faults × CreatePolicyPair) :=
  [(.none, everyone), (.none, deny)]

/-- A guest is let in although the DENY policy holds. -/
theorem guest_allowed : service.Fresh ∧ (∀ stmt ∈ both noGuests, stmt.2.WellFormed) ∧
    guest.userId ≠ "root" ∧
      ¬(evaluate guest .select books (service.run (both noGuests)).policies = .allowed ↔
        SomeHolds guest .select books .allow (service.created (both noGuests)) ∧
          ¬SomeHolds guest .select books .deny (service.created (both noGuests))) := by
  refine ⟨service_fresh, ?_, by decide, ?_⟩
  · simp [both, everyone, noGuests, condition, CreatePolicyPair.WellFormed,
      CreatePolicyPair.conditions]
  · have hcreated : service.created (both noGuests) = [everyone, noGuests] := by decide +kernel
    have hallowed : evaluate guest .select books (service.run (both noGuests)).policies =
        .allowed := by decide +kernel
    have hholds : noGuests.Holds guest .select books := by
      intro c hc
      obtain rfl := List.mem_singleton.mp hc
      exact ⟨"guest", List.mem_cons_self, by decide⟩
    intro h
    exact (h.mp hallowed).2 ⟨noGuests, by rw [hcreated]; simp, rfl, hholds⟩

/-- No statement of the list has a condition `role IN (v)`. -/
theorem noOneValue (effect : Effect) :
    ¬SomeOneValueHolds guest .select books effect (service.created (both noGuestsOrBots)) := by
  have hcreated : service.created (both noGuestsOrBots) = [everyone, noGuestsOrBots] := by
    decide +kernel
  rintro ⟨p, hp, -, ⟨c, hc, hop, hrest⟩, -⟩
  rw [hcreated] at hp
  rcases List.mem_cons.mp hp with rfl | hp
  · obtain rfl := List.mem_singleton.mp hc
    cases hop
  · obtain rfl := List.mem_singleton.mp hp
    obtain rfl := List.mem_singleton.mp hc
    cases hrest

/-- With a second value in the list the decision is what the statements ask for. -/
theorem guest_decided :
    evaluate guest .select books (service.run (both noGuestsOrBots)).policies = .allowed ↔
      SomeHolds guest .select books .allow (service.created (both noGuestsOrBots)) ∧
        ¬SomeHolds guest .select books .deny (service.created (both noGuestsOrBots)) := by
  have hwf : ∀ stmt ∈ both noGuestsOrBots, stmt.2.WellFormed := by
    simp [both, everyone, noGuestsOrBots, condition, CreatePolicyPair.WellFormed,
      CreatePolicyPair.conditions]
  have hmean := AuthService.decisions_mean_iff service_fresh (both noGuestsOrBots) hwf
    (show guest.userId ≠ "root" by decide) .select books
  exact (hmean.mpr ⟨fun h => absurd h (noOneValue .deny), fun h => absurd h (noOneValue .allow)⟩).1

end Guards

end StellarDb
