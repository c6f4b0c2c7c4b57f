import StellarDb.Calls

/-!
# StellarDb — policies (`auth/policy_engine.rs`, `auth/service.rs`, `query/parse/stmt/auth.rs`)

A `CREATE POLICY` statement passes through the parser and a conversion into a `Policy`; the policy
is stored as a document of the collection `policies` of the system database, added to the engine,
and read back from the document at the next start. The engine answers a request by walking over
its policies: the first DENY that matches decides, otherwise an ALLOW.
-/

namespace StellarDb

open Keyspaces

/-! ## Requests -/

inductive Action where
  | select | insert | update | delete | create | drop | traverse | search | manage
  deriving DecidableEq

def Action.asStr : Action → String
  | .select => "SELECT"
  | .insert => "INSERT"
  | .update => "UPDATE"
  | .delete => "DELETE"
  | .create => "CREATE"
  | .drop => "DROP"
  | .traverse => "TRAVERSE"
  | .search => "SEARCH"
  | .manage => "MANAGE"

structure Subject where
  userId : String
  attributes : String → Option String

structure Resource where
  database : String
  /-- None means database-level resource. -/
  collection : Option String
  attributes : String → Option String

/-! ## Policies -/

inductive Effect where
  | allow | deny
  deriving DecidableEq

inductive ConditionOp where
  | eq | neq | «in»
  deriving DecidableEq

inductive ConditionValue where
  | single (value : String)
  | list (values : List String)
  deriving DecidableEq

structure Condition where
  field : String
  op : ConditionOp
  value : ConditionValue
  deriving DecidableEq

structure Policy where
  name : String
  conditions : List Condition
  effect : Effect
  deriving DecidableEq

inductive AuthzDecision where
  | allowed
  | denied (policy : Option String)
  deriving DecidableEq

/-! ## The engine -/

section Engine

variable (subject : Subject) (action : Action) (resource : Resource)

def resolveField (field : String) : Option String :=
  if field = "action" then some action.asStr
  else
    match stripPrefix "subject." field with
    | some attr => subject.attributes attr
    | none =>
      match stripPrefix "resource." field with
      | some "database" => some resource.database
      | some "collection" => resource.collection
      | some attr => resource.attributes attr
      | none => none

def conditionMatches (condition : Condition) : Bool :=
  let actual := resolveField subject action resource condition.field
  match condition.op, condition.value with
  | .eq, .single expected => actual = some expected
  | .neq, .single expected => actual ≠ some expected
  | .in, .list expected =>
    match actual with
    | some val => expected.contains val
    | none => false
  -- mismatched combinations never match
  | _, _ => false

def policyMatches (policy : Policy) : Bool :=
  policy.conditions.all (conditionMatches subject action resource)

/-- The walk over the policies; `hasAllow` tells whether an ALLOW has matched so far. -/
def evaluateFrom (hasAllow : Bool) : List Policy → AuthzDecision
  | [] => if hasAllow then .allowed else .denied none
  | policy :: policies =>
    if policyMatches subject action resource policy then
      match policy.effect with
      | .deny => .denied (some policy.name)
      | .allow => evaluateFrom true policies
    else evaluateFrom hasAllow policies

/-- `PolicyEngine::evaluate` -/
def evaluate (policies : List Policy) : AuthzDecision :=
  if subject.userId = "root" then .allowed
  else evaluateFrom subject action resource false policies

end Engine

/-! ## Statements -/

/-- `policy_field` of the grammar. -/
inductive PolicyFieldPair where
  | path (scope attr : String)
  | kwAction
  deriving DecidableEq

/-- `policy_op` -/
inductive PolicyOpPair where
  | ne | eq | kwIn
  deriving DecidableEq

/-- `policy_condition`; its value is one string or a list in parentheses. -/
structure PolicyConditionPair where
  field : PolicyFieldPair
  op : PolicyOpPair
  first : String
  rest : List String
  deriving DecidableEq

/-- `create_policy_stmt` -/
structure CreatePolicyPair where
  name : String
  first : PolicyConditionPair
  rest : List PolicyConditionPair
  effect : Effect
  deriving DecidableEq

structure PolicyConditionAst where
  field : String
  op : String
  values : List String

structure CreatePolicyAst where
  name : String
  conditions : List PolicyConditionAst
  effect : Effect

def parsePolicyCondition (pair : PolicyConditionPair) : PolicyConditionAst where
  field :=
    match pair.field with
    | .kwAction => "action"
    | .path scope attr => scope ++ "." ++ attr
  op :=
    match pair.op with
    | .kwIn => "IN"
    | .ne => "!="
    | .eq => "="
  values := pair.first :: pair.rest

def CreatePolicyPair.conditions (pair : CreatePolicyPair) : List PolicyConditionPair :=
  pair.first :: pair.rest

def parseCreatePolicy (pair : CreatePolicyPair) : CreatePolicyAst where
  name := pair.name
  conditions := pair.conditions.map parsePolicyCondition
  effect := pair.effect

/-- A condition of the statement as the engine takes it (`query/builder/direct.rs`). -/
def PolicyConditionAst.toCondition (c : PolicyConditionAst) : Condition where
  field := c.field
  op :=
    match c.op with
    | "=" => .eq
    | "!=" => .neq
    | "IN" => .in
    | _ => .eq
  value :=
    match c.values with
    | [value] => .single value
    | values => .list values

def CreatePolicyAst.toPolicy (ast : CreatePolicyAst) : Policy where
  name := ast.name
  conditions := ast.conditions.map PolicyConditionAst.toCondition
  effect := ast.effect

/-! ## Documents -/

def Effect.encode : Effect → String
  | .allow => "allow"
  | .deny => "deny"

def ConditionOp.encode : ConditionOp → String
  | .eq => "eq"
  | .neq => "neq"
  | .in => "in"

def conditionToValue (cond : Condition) : Value :=
  .object [("field", .string cond.field), ("op", .string cond.op.encode),
    match cond.value with
    | .single v => ("value", .string v)
    | .list vs => ("values", .array (vs.map .string))]

def policyFields (policy : Policy) : List (String × Value) :=
  [("name", .string policy.name), ("effect", .string policy.effect.encode),
    ("conditions", .array (policy.conditions.map conditionToValue))]

theorem conditionToValue_wf (cond : Condition) : (conditionToValue cond).wf = true := by
  obtain ⟨field, op, value⟩ := cond
  cases value with
  | single v => rfl
  | list vs =>
    show (decide _ && (true && (true && (Value.wf (.array (vs.map .string)) && true)))) = true
    have hvalues : Value.wf (.array (vs.map .string)) = true := by
      rw [Value.wf, Value.wfElems_iff]
      intro v hv
      obtain ⟨s, -, rfl⟩ := List.mem_map.mp hv
      rfl
    rw [hvalues]
    rfl

theorem policyFields_wf (policy : Policy) : (Value.object (policyFields policy)).wf = true := by
  have hconditions : Value.wf (.array (policy.conditions.map conditionToValue)) = true := by
    rw [Value.wf, Value.wfElems_iff]
    intro v hv
    obtain ⟨cond, -, rfl⟩ := List.mem_map.mp hv
    exact conditionToValue_wf cond
  show (decide _ && (true && (true && (Value.wf (.array _) && true)))) = true
  rw [hconditions]
  rfl

def policyToDocument (policy : Policy) : Document where
  id := "policies:" ++ policy.name
  fields := policyFields policy
  wf := policyFields_wf policy

def stringsOf : List Value → Except String (List String)
  | [] => .ok []
  | .string s :: vs => (stringsOf vs).map (s :: ·)
  | _ :: _ => .error "condition 'values' must contain strings"

def valueToCondition (item : Value) : Except String Condition :=
  match item with
  | .object obj => do
    let field ←
      match obj.lookup "field" with
      | some (.string s) => .ok s
      | _ => .error "condition missing 'field'"
    let op ←
      match obj.lookup "op" with
      | some (.string "eq") => .ok .eq
      | some (.string "neq") => .ok .neq
      | some (.string "in") => .ok .in
      | some (.string other) => .error ("invalid condition op: '" ++ other ++ "'")
      | _ => .error "condition missing 'op'"
    let value ←
      match obj.lookup "value", obj.lookup "values" with
      | some (.string v), _ => .ok (.single v)
      | _, some (.array vs) => (stringsOf vs).map .list
      | _, _ => .error "condition missing 'value' or 'values'"
    return ⟨field, op, value⟩
  | _ => .error "condition must be an object"

def documentToPolicy (doc : Document) : Except String Policy := do
  let name ←
    match doc.fields.lookup "name" with
    | some (.string s) => .ok s
    | _ => .error "missing or invalid 'name' field"
  let effect ←
    match doc.fields.lookup "effect" with
    | some (.string "allow") => .ok .allow
    | some (.string "deny") => .ok .deny
    | some (.string other) => .error ("invalid effect: '" ++ other ++ "'")
    | _ => .error "missing or invalid 'effect' field"
  let conditions ←
    match doc.fields.lookup "conditions" with
    | some (.array arr) => arr.mapM valueToCondition
    | some _ => .error "'conditions' must be an array"
    | none => .ok []
  return ⟨name, conditions, effect⟩

theorem stringsOf_strings (vs : List String) : stringsOf (vs.map .string) = .ok vs := by
  induction vs with
  | nil => rfl
  | cons v vs ih => rw [List.map_cons, stringsOf, ih]; rfl

theorem valueToCondition_conditionToValue (cond : Condition) :
    valueToCondition (conditionToValue cond) = .ok cond := by
  obtain ⟨field, op, value⟩ := cond
  cases value with
  | single v => cases op <;> rfl
  | list vs =>
    have hstrings := stringsOf_strings vs
    cases op <;>
      · show (do let value ← (stringsOf (vs.map .string)).map ConditionValue.list; _) = _
        rw [hstrings]
        rfl

/-- A policy read back from its document. -/
theorem documentToPolicy_policyToDocument (policy : Policy) :
    documentToPolicy (policyToDocument policy) = .ok policy := by
  obtain ⟨name, conditions, effect⟩ := policy
  have hconditions : (conditions.map conditionToValue).mapM valueToCondition = .ok conditions := by
    induction conditions with
    | nil => rfl
    | cons cond conditions ih =>
      rw [List.map_cons, List.mapM_cons, valueToCondition_conditionToValue, ih]
      rfl
  cases effect <;>
    · show (do let conditions ← (conditions.map conditionToValue).mapM valueToCondition; _) = _
      rw [hconditions]
      rfl

end StellarDb
