import StellarDb.Lib.Entries
import StellarDb.Lib.Lockstep
import StellarDb.Query.Eval

/-!
# StellarDb — blocks, IF and FOR

`execute/control_flow.rs` over `VarScope`, the stack of variable frames. What an expression or a
statement of another kind does is a `BlockEngine`: it reads the variables and changes the world,
but not the frames.

Beside it stands the meaning by places: `lexBlock` runs a block with an environment that a LET
extends for the statements behind it and FOR for one round of its body. Frames are left as they
were in every case (`executeBlock_vars`). The variables agree as well, but for one statement: a
LET of an IF or a FOR first resolves every subquery of it, also those behind a LET of an inner
block or under a FOR binding, with the variables of the outer LET (`letVar_keepsPlaces`).
-/

namespace StellarDb

open Entries Stateful

/-! ## Variables -/

/-- The frames of variables, the top one and those below it. The root frame is never popped, so
one is always there. -/
structure VarScope where
  top : List (String × Value)
  below : List (List (String × Value))

namespace VarScope

/-- Entering a block. -/
def push (vars : VarScope) : VarScope := ⟨[], vars.top :: vars.below⟩

/-- Leaving a block. -/
def pop (vars : VarScope) : VarScope :=
  match vars.below with
  | [] => vars
  | frame :: below => ⟨frame, below⟩

/-- Into the top frame. -/
def set (vars : VarScope) (name : String) (value : Value) : VarScope :=
  { vars with top := insertEntry vars.top name value }

/-- From the top frame down. -/
def get (vars : VarScope) (name : String) : Option Value :=
  (vars.top :: vars.below).findSome? (·.lookup name)

@[simp] theorem pop_push (vars : VarScope) : vars.push.pop = vars := rfl

@[simp] theorem below_set (vars : VarScope) (name : String) (value : Value) :
    (vars.set name value).below = vars.below := rfl

/-- What has the frames below of a pushed scope is that scope when it is popped. -/
theorem pop_of_below {vars vars' : VarScope} (h : vars'.below = vars.push.below) :
    vars'.pop = vars := by
  unfold pop
  rw [h]
  rfl

end VarScope

/-- The variables that can be read. -/
abbrev VarEnv := String → Option Value

def VarEnv.bind (env : VarEnv) (name : String) (value : Value) : VarEnv :=
  Function.update env name (some value)

namespace VarScope

theorem get_push (vars : VarScope) : vars.push.get = vars.get := by
  funext name
  show (([] : List (String × Value)) :: vars.top :: vars.below).findSome? _ = _
  rfl

theorem get_set (vars : VarScope) (name : String) (value : Value) :
    (vars.set name value).get = VarEnv.bind vars.get name value := by
  funext name'
  unfold get set VarEnv.bind
  rw [List.findSome?_cons, lookup_insertEntry]
  by_cases hname : name = name'
  · rw [if_pos hname, hname, Function.update_self]
  · rw [if_neg hname, Function.update_of_ne (Ne.symm hname), List.findSome?_cons]

end VarScope

/-! ## Statements -/

/-- Result of a statement or block. -/
inductive ControlFlow where
  | value (v : Value)
  | brk
  | cont

mutual

/-- An expression, with IF, FOR, BREAK and CONTINUE apart from all others. -/
inductive CfExpr (φ δ : Type) where
  | leaf (e : φ)
  | ifElse (branches : Branches φ δ)
  | forIn (binding : String) (iterable : CfExpr φ δ) (body : Block φ δ)
  | brk
  | cont

/-- The branches of an IF in order, with the ELSE block or none behind them. -/
inductive Branches (φ δ : Type) where
  | none
  | otherwise (block : Block φ δ)
  | branch (condition : CfExpr φ δ) (block : Block φ δ) (rest : Branches φ δ)

/-- A statement: BEGIN, COMMIT and ROLLBACK; an expression; LET; SELECT and the statements that
change documents; everything else. -/
inductive CfStmt (φ δ : Type) where
  | transaction
  | expr (e : CfExpr φ δ)
  | letVar (name : String) (e : CfExpr φ δ)
  | dml (q : δ)
  | unsupported

inductive Block (φ δ : Type) where
  | nil
  | cons (stmt : CfStmt φ δ) (rest : Block φ δ)

end

variable {φ δ : Type}

namespace Block

/-- A block of one statement. -/
def single (stmt : CfStmt φ δ) : Block φ δ := .cons stmt .nil

end Block

/-- `Expr::If` or `Expr::For`. -/
def CfExpr.isControlFlow : CfExpr φ δ → Bool
  | .ifElse _ | .forIn .. => true
  | _ => false

mutual

def CfExpr.size : CfExpr φ δ → Nat
  | .leaf _ | .brk | .cont => 1
  | .ifElse branches => branches.size + 1
  | .forIn _ iterable body => iterable.size + body.size + 1

def Branches.size : Branches φ δ → Nat
  | .none => 1
  | .otherwise block => block.size + 1
  | .branch condition block rest => condition.size + block.size + rest.size + 1

def CfStmt.size : CfStmt φ δ → Nat
  | .transaction | .dml _ | .unsupported => 1
  | .expr e => e.size + 1
  | .letVar _ e => e.size + 4

def Block.size : Block φ δ → Nat
  | .nil => 1
  | .cons stmt rest => stmt.size + rest.size + 1

end

/-! ## The rest of the engine -/

/-- What stands behind the control flow. Everything reads the variables only; `world` is the
database, the clock and whatever else changes. -/
structure BlockEngine (φ δ W : Type) where
  checkDeadline : W → Except ExecuteError Unit × W
  /-- The expression has a subquery in it. -/
  hasSubquery : φ → Bool
  /-- `resolve_subqueries_in_expr` on an expression that is no IF or FOR. -/
  resolve : φ → VarEnv → W → Except ExecuteError φ × W
  resolve_of_plain : ∀ e, hasSubquery e = false → ∀ env w, resolve e env w = (.ok e, w)
  evalExpr : φ → VarEnv → W → Except ExecuteError Value × W
  /-- `execute_dml_statement` with `rows_to_value`. -/
  executeDml : δ → VarEnv → W → Except ExecuteError Value × W

/-! ## `resolve_subqueries_in_expr` -/

section Resolve

variable {W : Type} (g : BlockEngine φ δ W) (env : VarEnv)

mutual

/-- The subqueries of the expression one after the other; `transform` leaves its shape. -/
def resolveExpr : (e : CfExpr φ δ) →
    Stateful ExecuteError W { e' : CfExpr φ δ // e'.size = e.size }
  | .leaf e => do
    let e' ← Stateful.of (g.resolve e env)
    return ⟨.leaf e', rfl⟩
  | .ifElse branches => do
    let branches' ← resolveBranches branches
    return ⟨.ifElse branches', by simp only [CfExpr.size, branches'.2]⟩
  | .forIn binding iterable body => do
    let iterable' ← resolveExpr iterable
    let body' ← transformBlock body
    return ⟨.forIn binding iterable' body', by simp only [CfExpr.size, iterable'.2, body'.2]⟩
  | .brk => return ⟨.brk, rfl⟩
  | .cont => return ⟨.cont, rfl⟩

def resolveBranches : (bs : Branches φ δ) →
    Stateful ExecuteError W { bs' : Branches φ δ // bs'.size = bs.size }
  | .none => return ⟨.none, rfl⟩
  | .otherwise block => do
    let block' ← transformBlock block
    return ⟨.otherwise block', by simp only [Branches.size, block'.2]⟩
  | .branch condition block rest => do
    let condition' ← resolveExpr condition
    let block' ← transformBlock block
    let rest' ← resolveBranches rest
    return ⟨.branch condition' block' rest', by
      simp only [Branches.size, condition'.2, block'.2, rest'.2]⟩

/-- `transform_block`: only the statements that are expressions. -/
def transformBlock : (b : Block φ δ) →
    Stateful ExecuteError W { b' : Block φ δ // b'.size = b.size }
  | .nil => return ⟨.nil, rfl⟩
  | .cons (.expr e) rest => do
    let e' ← resolveExpr e
    let rest' ← transformBlock rest
    return ⟨.cons (.expr e') rest', by simp only [Block.size, CfStmt.size, e'.2, rest'.2]⟩
  | .cons stmt rest => do
    let rest' ← transformBlock rest
    return ⟨.cons stmt rest', by simp only [Block.size, rest'.2]⟩

end

end Resolve

/-! ## Execution -/

def Value.typeName : Value → String
  | .null => "null"
  | .bool _ => "bool"
  | .int _ => "int"
  | .float _ => "float"
  | .decimal _ => "decimal"
  | .string _ => "string"
  | .array _ => "array"
  | .object _ => "object"
  | .reference _ => "reference"
  | .datetime _ => "datetime"
  | .duration _ => "duration"
  | .bytes _ => "bytes"
  | .range .. => "range"

/-- The numbers from `start` to `stop`, both included. -/
def intsBetween (start stop : Int64) : List Value :=
  (List.range (stop.toInt + 1 - start.toInt).toNat).map fun i =>
    .int (Int64.ofInt (start.toInt + i))

/-- `value_to_iterator` -/
def valueToIterator : Value → Except ExecuteError (List Value)
  | .array items => .ok items
  | .null => .ok []
  | .range (.int start) (.int stop) => .ok (intsBetween start stop)
  | .range _ _ => .error (.other "Range iteration only supports integer bounds")
  | other => .error (.other ("Cannot iterate over " ++ other.typeName))

/-- The world and the variables of a batch. -/
structure BatchState (W : Type) where
  world : W
  vars : VarScope

section Execute

variable {W : Type} (g : BlockEngine φ δ W)

/-- A part of the engine, with the variables that can be read. -/
def inBatch {α : Type} (f : VarEnv → W → Except ExecuteError α × W) :
    Stateful ExecuteError (BatchState W) α :=
  Stateful.of fun s =>
    let r := f s.vars.get s.world
    (r.1, { s with world := r.2 })

def setVar (name : String) (value : Value) : Stateful ExecuteError (BatchState W) Unit :=
  Stateful.of fun s => (.ok (), { s with vars := s.vars.set name value })

/-- A frame around what is run, popped whether it returns a result or an error. -/
def framed {α : Type} (x : Stateful ExecuteError (BatchState W) α) :
    Stateful ExecuteError (BatchState W) α :=
  Stateful.of fun s =>
    let r := x.start { s with vars := s.vars.push }
    (r.1, { r.2 with vars := r.2.vars.pop })

/-- The value a LET binds; BREAK and CONTINUE do not leave its right side. -/
def letValue {S : Type} : ControlFlow → Stateful ExecuteError S Value
  | .value v => return v
  | .brk => throw (.unexpectedExpression "Break in LET")
  | .cont => throw (.unexpectedExpression "Continue in LET")

/-- `eval_expr` on what `resolve_subqueries_in_expr` returned. -/
def evalResolved : CfExpr φ δ → Stateful ExecuteError (BatchState W) Value
  | .leaf e => inBatch (g.evalExpr e)
  | .ifElse _ => throw (.unexpectedExpression "If")
  | .forIn .. => throw (.unexpectedExpression "For")
  | .brk => throw (.unexpectedExpression "Break")
  | .cont => throw (.unexpectedExpression "Continue")

def resolveThenEval (e : CfExpr φ δ) : Stateful ExecuteError (BatchState W) Value := do
  let resolved ← inBatch fun env => (resolveExpr g env e).start
  evalResolved g resolved

/-- The rounds of `eval_for`, each in a frame of its own, with the results so far. -/
def forItems (binding : String) (body : Stateful ExecuteError (BatchState W) ControlFlow) :
    List Value → List Value → Stateful ExecuteError (BatchState W) ControlFlow
  | [], results => return .value (.array results)
  | item :: items, results => do
    inBatch fun _ => g.checkDeadline
    let result ← framed do
      setVar binding item
      body
    match result with
    | .value v => forItems binding body items (results ++ [v])
    | .brk => return .value (.array results)
    | .cont => forItems binding body items results

mutual

/-- `execute_block` -/
def executeBlock (block : Block φ δ) : Stateful ExecuteError (BatchState W) ControlFlow :=
  framed (executeBlockInner block .null)
termination_by (block.size, 1)

/-- `execute_block_inner` with the value of the last statement. -/
def executeBlockInner (block : Block φ δ) (lastValue : Value) :
    Stateful ExecuteError (BatchState W) ControlFlow :=
  match block with
  | .nil => return .value lastValue
  | .cons stmt rest => do
    inBatch fun _ => g.checkDeadline
    match ← executeStatementCf stmt with
    | .value v => executeBlockInner rest v
    | .brk => return .brk
    | .cont => return .cont
termination_by (block.size, 0)
decreasing_by all_goals (simp only [Block.size]; omega)

/-- `execute_statement_cf` -/
def executeStatementCf (stmt : CfStmt φ δ) : Stateful ExecuteError (BatchState W) ControlFlow :=
  match stmt with
  | .transaction =>
    throw (.other "Transaction control is not allowed inside control flow")
  | .expr (.ifElse branches) => evalIf branches
  | .expr (.forIn binding iterable body) => do
    let iterValue ← resolveThenEval g iterable
    match valueToIterator iterValue with
    | .ok items => forItems g binding (executeBlockInner body .null) items []
    | .error e => throw e
  | .expr .brk => return .brk
  | .expr .cont => return .cont
  | .letVar name e => do
    let resolved ← inBatch fun env => (resolveExpr g env e).start
    let value ← (if resolved.1.isControlFlow then
        executeBlock (.single (.expr resolved.1)) >>= letValue
      else evalResolved g resolved.1)
    setVar name value
    return .value .null
  | .expr e => do
    let value ← resolveThenEval g e
    return .value value
  | .dml q => do
    let rows ← inBatch (g.executeDml q)
    return .value rows
  | .unsupported => throw
      (.other "DDL, EXPLAIN, and session configuration are not supported inside control flow")
termination_by (stmt.size, 0)
decreasing_by
  · simp only [CfStmt.size, CfExpr.size]; omega
  · simp only [CfStmt.size, CfExpr.size]; omega
  · simp only [Block.single, Block.size, CfStmt.size, resolved.2]; omega

/-- `eval_if` -/
def evalIf (branches : Branches φ δ) : Stateful ExecuteError (BatchState W) ControlFlow :=
  match branches with
  | .none => return .value .null
  | .otherwise block => executeBlock block
  | .branch condition block rest => do
    inBatch fun _ => g.checkDeadline
    let condVal ← resolveThenEval g condition
    if condVal.isTruthy then executeBlock block else evalIf rest
termination_by (branches.size, 0)
decreasing_by all_goals (simp only [Branches.size]; omega)

end

end Execute

/-! ## The meaning by places -/

section Places

variable {W : Type} (g : BlockEngine φ δ W)

section Share

variable (env : VarEnv)

mutual

/-- The subqueries that see the variables of the whole expression: not those in the body of a FOR,
and in a block only those before its first LET. -/
def shareExpr : (e : CfExpr φ δ) →
    Stateful ExecuteError W { e' : CfExpr φ δ // e'.size = e.size }
  | .leaf e => do
    let e' ← Stateful.of (g.resolve e env)
    return ⟨.leaf e', rfl⟩
  | .ifElse branches => do
    let branches' ← shareBranches branches
    return ⟨.ifElse branches', by simp only [CfExpr.size, branches'.2]⟩
  | .forIn binding iterable body => do
    let iterable' ← shareExpr iterable
    return ⟨.forIn binding iterable' body, by simp only [CfExpr.size, iterable'.2]⟩
  | .brk => return ⟨.brk, rfl⟩
  | .cont => return ⟨.cont, rfl⟩

def shareBranches : (bs : Branches φ δ) →
    Stateful ExecuteError W { bs' : Branches φ δ // bs'.size = bs.size }
  | .none => return ⟨.none, rfl⟩
  | .otherwise block => do
    let block' ← shareBlock block
    return ⟨.otherwise block', by simp only [Branches.size, block'.2]⟩
  | .branch condition block rest => do
    let condition' ← shareExpr condition
    let block' ← shareBlock block
    let rest' ← shareBranches rest
    return ⟨.branch condition' block' rest', by
      simp only [Branches.size, condition'.2, block'.2, rest'.2]⟩

def shareBlock : (b : Block φ δ) →
    Stateful ExecuteError W { b' : Block φ δ // b'.size = b.size }
  | .nil => return ⟨.nil, rfl⟩
  | .cons (.expr e) rest => do
    let e' ← shareExpr e
    let rest' ← shareBlock rest
    return ⟨.cons (.expr e') rest', by simp only [Block.size, CfStmt.size, e'.2, rest'.2]⟩
  | .cons (.letVar name e) rest => return ⟨.cons (.letVar name e) rest, rfl⟩
  | .cons stmt rest => do
    let rest' ← shareBlock rest
    return ⟨.cons stmt rest', by simp only [Block.size, rest'.2]⟩

end

end Share

/-- The world and the variables of a place. -/
structure Place (W : Type) where
  world : W
  env : VarEnv

def atPlace {α : Type} (f : VarEnv → W → Except ExecuteError α × W) :
    Stateful ExecuteError (Place W) α :=
  Stateful.of fun t =>
    let r := f t.env t.world
    (r.1, { t with world := r.2 })

def bindVar (name : String) (value : Value) : Stateful ExecuteError (Place W) Unit :=
  Stateful.of fun t => (.ok (), { t with env := t.env.bind name value })

/-- What is bound inside is not bound outside. -/
def enclosed {α : Type} (y : Stateful ExecuteError (Place W) α) :
    Stateful ExecuteError (Place W) α :=
  Stateful.of fun t =>
    let r := y.start t
    (r.1, { r.2 with env := t.env })

def lexEval : CfExpr φ δ → Stateful ExecuteError (Place W) Value
  | .leaf e => atPlace (g.evalExpr e)
  | .ifElse _ => throw (.unexpectedExpression "If")
  | .forIn .. => throw (.unexpectedExpression "For")
  | .brk => throw (.unexpectedExpression "Break")
  | .cont => throw (.unexpectedExpression "Continue")

def lexResolveThenEval (e : CfExpr φ δ) : Stateful ExecuteError (Place W) Value := do
  let resolved ← atPlace fun env => (resolveExpr g env e).start
  lexEval g resolved

/-- The binding is there for one round and nothing of a round is left for the next. -/
def lexItems (binding : String) (body : Stateful ExecuteError (Place W) ControlFlow) :
    List Value → List Value → Stateful ExecuteError (Place W) ControlFlow
  | [], results => return .value (.array results)
  | item :: items, results => do
    atPlace fun _ => g.checkDeadline
    let result ← enclosed do
      bindVar binding item
      body
    match result with
    | .value v => lexItems binding body items (results ++ [v])
    | .brk => return .value (.array results)
    | .cont => lexItems binding body items results

mutual

def lexBlock (block : Block φ δ) : Stateful ExecuteError (Place W) ControlFlow :=
  enclosed (lexInner block .null)
termination_by (block.size, 1)

/-- A LET is seen by the statements behind it. -/
def lexInner (block : Block φ δ) (lastValue : Value) :
    Stateful ExecuteError (Place W) ControlFlow :=
  match block with
  | .nil => return .value lastValue
  | .cons stmt rest => do
    atPlace fun _ => g.checkDeadline
    match ← lexStatement stmt with
    | .value v => lexInner rest v
    | .brk => return .brk
    | .cont => return .cont
termination_by (block.size, 0)
decreasing_by all_goals (simp only [Block.size]; omega)

def lexStatement (stmt : CfStmt φ δ) : Stateful ExecuteError (Place W) ControlFlow :=
  match stmt with
  | .transaction =>
    throw (.other "Transaction control is not allowed inside control flow")
  | .expr (.ifElse branches) => lexIf branches
  | .expr (.forIn binding iterable body) => do
    let iterValue ← lexResolveThenEval g iterable
    match valueToIterator iterValue with
    | .ok items => lexItems g binding (lexInner body .null) items []
    | .error e => throw e
  | .expr .brk => return .brk
  | .expr .cont => return .cont
  | .letVar name e => do
    -- early, as the code does it, but only where nothing is bound between
    let shared ← atPlace fun env => (shareExpr g env e).start
    let value ← (if shared.1.isControlFlow then
        lexBlock (.single (.expr shared.1)) >>= letValue
      else lexEval g shared.1)
    bindVar name value
    return .value .null
  | .expr e => do
    let value ← lexResolveThenEval g e
    return .value value
  | .dml q => do
    let rows ← atPlace (g.executeDml q)
    return .value rows
  | .unsupported => throw
      (.other "DDL, EXPLAIN, and session configuration are not supported inside control flow")
termination_by (stmt.size, 0)
decreasing_by
  · simp only [CfStmt.size, CfExpr.size]; omega
  · simp only [CfStmt.size, CfExpr.size]; omega
  · simp only [Block.single, Block.size, CfStmt.size, shared.2]; omega

def lexIf (branches : Branches φ δ) : Stateful ExecuteError (Place W) ControlFlow :=
  match branches with
  | .none => return .value .null
  | .otherwise block => lexBlock block
  | .branch condition block rest => do
    atPlace fun _ => g.checkDeadline
    let condVal ← lexResolveThenEval g condition
    if condVal.isTruthy then lexBlock block else lexIf rest
termination_by (branches.size, 0)
decreasing_by all_goals (simp only [Branches.size]; omega)

end

end Places

/-! ## Which LETs keep to the places -/

section Shared

variable (hasSubquery : φ → Bool)

mutual

/-- No subquery in a statement that `transform` reaches. -/
def CfExpr.Plain : CfExpr φ δ → Prop
  | .leaf e => hasSubquery e = false
  | .ifElse branches => branches.Plain
  | .forIn _ iterable body => iterable.Plain ∧ body.Plain
  | .brk | .cont => True

def Branches.Plain : Branches φ δ → Prop
  | .none => True
  | .otherwise block => block.Plain
  | .branch condition block rest => condition.Plain ∧ block.Plain ∧ rest.Plain

def Block.Plain : Block φ δ → Prop
  | .nil => True
  | .cons (.expr e) rest => e.Plain ∧ rest.Plain
  | .cons _ rest => rest.Plain

end

mutual

/-- No subquery in the body of a FOR, and in a block none behind a LET. -/
def CfExpr.Shared : CfExpr φ δ → Prop
  | .leaf _ | .brk | .cont => True
  | .ifElse branches => branches.Shared
  | .forIn _ iterable body => iterable.Shared ∧ body.Plain hasSubquery

def Branches.Shared : Branches φ δ → Prop
  | .none => True
  | .otherwise block => block.Shared
  | .branch condition block rest => condition.Shared ∧ block.Shared ∧ rest.Shared

def Block.Shared : Block φ δ → Prop
  | .nil => True
  | .cons (.expr e) rest => e.Shared ∧ rest.Shared
  | .cons (.letVar _ _) rest => rest.Plain hasSubquery
  | .cons _ rest => rest.Shared

end

mutual

/-- Every LET, at any depth, binds nothing over a subquery of its right side. Conditions and
iterables run no statement. -/
def CfExpr.Tidy : CfExpr φ δ → Prop
  | .leaf _ | .brk | .cont => True
  | .ifElse branches => branches.Tidy
  | .forIn _ _ body => body.Tidy

def Branches.Tidy : Branches φ δ → Prop
  | .none => True
  | .otherwise block => block.Tidy
  | .branch _ block rest => block.Tidy ∧ rest.Tidy

def CfStmt.Tidy : CfStmt φ δ → Prop
  | .transaction | .dml _ | .unsupported => True
  | .expr e => e.Tidy
  | .letVar _ e => e.Shared hasSubquery ∧ e.Tidy

def Block.Tidy : Block φ δ → Prop
  | .nil => True
  | .cons stmt rest => stmt.Tidy ∧ rest.Tidy

end

end Shared

/-! ## Resolving -/

section Resolving

variable {W : Type} (g : BlockEngine φ δ W) (env : VarEnv)

mutual

theorem resolveExpr_plain (e : CfExpr φ δ) (h : e.Plain g.hasSubquery) :
    resolveExpr g env e = pure ⟨e, rfl⟩ := by
  cases e with
  | leaf e =>
    have hleaf : Stateful.of (g.resolve e env) = pure e := by
      funext w
      exact g.resolve_of_plain e h env w
    rw [resolveExpr, hleaf, pure_bind]
  | ifElse branches => rw [resolveExpr, resolveBranches_plain branches h, pure_bind]
  | forIn binding iterable body =>
    rw [resolveExpr, resolveExpr_plain iterable h.1, pure_bind, transformBlock_plain body h.2,
      pure_bind]
  | brk => rfl
  | cont => rfl

theorem resolveBranches_plain (bs : Branches φ δ) (h : bs.Plain g.hasSubquery) :
    resolveBranches g env bs = pure ⟨bs, rfl⟩ := by
  cases bs with
  | none => rfl
  | otherwise block => rw [resolveBranches, transformBlock_plain block h, pure_bind]
  | branch condition block rest =>
    rw [resolveBranches, resolveExpr_plain condition h.1, pure_bind,
      transformBlock_plain block h.2.1, pure_bind, resolveBranches_plain rest h.2.2, pure_bind]

theorem transformBlock_plain (b : Block φ δ) (h : b.Plain g.hasSubquery) :
    transformBlock g env b = pure ⟨b, rfl⟩ := by
  cases b with
  | nil => rfl
  | cons stmt rest =>
    cases stmt with
    | expr e =>
      rw [transformBlock, resolveExpr_plain e h.1, pure_bind, transformBlock_plain rest h.2,
        pure_bind]
    | transaction => rw [transformBlock, transformBlock_plain rest h, pure_bind]; nofun
    | letVar name e => rw [transformBlock, transformBlock_plain rest h, pure_bind]; nofun
    | dml q => rw [transformBlock, transformBlock_plain rest h, pure_bind]; nofun
    | unsupported => rw [transformBlock, transformBlock_plain rest h, pure_bind]; nofun

end

mutual

/-- Where nothing is bound over a subquery, all of them see the variables of the expression. -/
theorem shareExpr_eq (e : CfExpr φ δ) (h : e.Shared g.hasSubquery) :
    shareExpr g env e = resolveExpr g env e := by
  cases e with
  | leaf e => rfl
  | ifElse branches => rw [shareExpr, resolveExpr, shareBranches_eq branches h]
  | forIn binding iterable body =>
    rw [shareExpr, resolveExpr, shareExpr_eq iterable h.1, transformBlock_plain g env body h.2]
    rfl
  | brk => rfl
  | cont => rfl

theorem shareBranches_eq (bs : Branches φ δ) (h : bs.Shared g.hasSubquery) :
    shareBranches g env bs = resolveBranches g env bs := by
  cases bs with
  | none => rfl
  | otherwise block => rw [shareBranches, resolveBranches, shareBlock_eq block h]
  | branch condition block rest =>
    rw [shareBranches, resolveBranches, shareExpr_eq condition h.1, shareBlock_eq block h.2.1,
      shareBranches_eq rest h.2.2]

theorem shareBlock_eq (b : Block φ δ) (h : b.Shared g.hasSubquery) :
    shareBlock g env b = transformBlock g env b := by
  cases b with
  | nil => rfl
  | cons stmt rest =>
    cases stmt with
    | expr e => rw [shareBlock, transformBlock, shareExpr_eq e h.1, shareBlock_eq rest h.2]
    | letVar name e =>
      -- behind the LET there is nothing to resolve
      rw [shareBlock, transformBlock, transformBlock_plain g env rest h, pure_bind]
      nofun
    | transaction => rw [shareBlock, transformBlock, shareBlock_eq rest h] <;> nofun
    | dml q => rw [shareBlock, transformBlock, shareBlock_eq rest h] <;> nofun
    | unsupported => rw [shareBlock, transformBlock, shareBlock_eq rest h] <;> nofun

end

variable (hasSubquery : φ → Bool)

mutual

/-- Resolving does not touch a LET. -/
theorem resolveExpr_tidy (e : CfExpr φ δ) (h : e.Tidy hasSubquery) :
    Yields (fun e' => e'.1.Tidy hasSubquery) (resolveExpr g env e) := by
  cases e with
  | leaf e =>
    refine Yields.bind (P := fun _ => True) (fun _ _ _ => trivial) fun _ _ => ?_
    exact Yields.pure trivial
  | ifElse branches =>
    exact (resolveBranches_tidy branches h).bind fun _ hbs => Yields.pure hbs
  | forIn binding iterable body =>
    refine Yields.bind (P := fun _ => True) (fun _ _ _ => trivial) fun _ _ => ?_
    exact (transformBlock_tidy body h).bind fun _ hbody => Yields.pure hbody
  | brk => exact Yields.pure trivial
  | cont => exact Yields.pure trivial

theorem resolveBranches_tidy (bs : Branches φ δ) (h : bs.Tidy hasSubquery) :
    Yields (fun bs' => bs'.1.Tidy hasSubquery) (resolveBranches g env bs) := by
  cases bs with
  | none => exact Yields.pure trivial
  | otherwise block =>
    exact (transformBlock_tidy block h).bind fun _ hblock => Yields.pure hblock
  | branch condition block rest =>
    refine Yields.bind (P := fun _ => True) (fun _ _ _ => trivial) fun _ _ => ?_
    refine (transformBlock_tidy block h.1).bind fun _ hblock => ?_
    exact (resolveBranches_tidy rest h.2).bind fun _ hrest => Yields.pure ⟨hblock, hrest⟩

theorem transformBlock_tidy (b : Block φ δ) (h : b.Tidy hasSubquery) :
    Yields (fun b' => b'.1.Tidy hasSubquery) (transformBlock g env b) := by
  cases b with
  | nil => exact Yields.pure trivial
  | cons stmt rest =>
    have hrest := transformBlock_tidy rest h.2
    cases stmt with
    | expr e =>
      exact (resolveExpr_tidy e h.1).bind fun _ he =>
        hrest.bind fun _ hrest => Yields.pure ⟨he, hrest⟩
    | transaction => exact hrest.bind fun _ hrest => Yields.pure ⟨trivial, hrest⟩
    | letVar name e => exact hrest.bind fun _ hrest => Yields.pure ⟨h.1, hrest⟩
    | dml q => exact hrest.bind fun _ hrest => Yields.pure ⟨trivial, hrest⟩
    | unsupported => exact hrest.bind fun _ hrest => Yields.pure ⟨trivial, hrest⟩

end

end Resolving

/-! ## Frames -/

section Frames

variable {W : Type}

theorem keeps_below {α : Type} {x : Stateful ExecuteError (BatchState W) α}
    (h : Stateful.Keeps (·.vars) x) : Stateful.Keeps (·.vars.below) x :=
  fun s => congrArg VarScope.below (h s)

theorem keeps_inBatch {α : Type} (f : VarEnv → W → Except ExecuteError α × W) :
    Stateful.Keeps (·.vars) (inBatch f) := fun _ => rfl

theorem keeps_setVar (name : String) (value : Value) :
    Stateful.Keeps (·.vars.below) (setVar name value : Stateful ExecuteError (BatchState W) Unit) :=
  fun _ => rfl

/-- A frame that is left with those below it as they were is popped without a trace. -/
theorem keeps_framed {α : Type} {x : Stateful ExecuteError (BatchState W) α}
    (h : Stateful.Keeps (·.vars.below) x) : Stateful.Keeps (·.vars) (framed x) :=
  fun s => VarScope.pop_of_below (h { s with vars := s.vars.push })

variable (g : BlockEngine φ δ W)

theorem keeps_evalResolved (e : CfExpr φ δ) : Stateful.Keeps (·.vars) (evalResolved g e) := by
  cases e with
  | leaf e => exact keeps_inBatch _
  | ifElse branches => exact Stateful.Keeps.throw _
  | forIn binding iterable body => exact Stateful.Keeps.throw _
  | brk => exact Stateful.Keeps.throw _
  | cont => exact Stateful.Keeps.throw _

theorem keeps_resolveThenEval (e : CfExpr φ δ) : Stateful.Keeps (·.vars) (resolveThenEval g e) :=
  (keeps_inBatch _).bind fun resolved => keeps_evalResolved g resolved

theorem keeps_forItems (binding : String)
    {body : Stateful ExecuteError (BatchState W) ControlFlow}
    (hbody : Stateful.Keeps (·.vars.below) body) (items results : List Value) :
    Stateful.Keeps (·.vars) (forItems g binding body items results) := by
  induction items generalizing results with
  | nil => exact Stateful.Keeps.pure _
  | cons item items ih =>
    unfold forItems
    have hround : Stateful.Keeps (·.vars) (framed do setVar binding item; body) :=
      keeps_framed ((keeps_setVar binding item).bind fun _ => hbody)
    refine (keeps_inBatch _).bind fun _ => hround.bind fun result => ?_
    cases result with
    | value v => exact ih (results ++ [v])
    | brk => exact Stateful.Keeps.pure _
    | cont => exact ih results

mutual

/-- A block leaves the frames as it found them, whatever comes of it. -/
theorem executeBlock_vars (block : Block φ δ) :
    Stateful.Keeps (·.vars) (executeBlock g block) := by
  rw [executeBlock]
  exact keeps_framed (executeBlockInner_below block .null)
termination_by (block.size, 1)

theorem executeBlockInner_below (block : Block φ δ) (lastValue : Value) :
    Stateful.Keeps (·.vars.below) (executeBlockInner g block lastValue) := by
  cases block with
  | nil =>
    rw [executeBlockInner]
    exact Stateful.Keeps.pure _
  | cons stmt rest =>
    rw [executeBlockInner]
    refine (keeps_below (keeps_inBatch _)).bind fun _ => ?_
    refine (executeStatementCf_below stmt).bind fun result => ?_
    cases result with
    | value v => exact executeBlockInner_below rest v
    | brk => exact Stateful.Keeps.pure _
    | cont => exact Stateful.Keeps.pure _
termination_by (block.size, 0)
decreasing_by all_goals (simp only [Block.size]; omega)

/-- A statement changes the top frame at most. -/
theorem executeStatementCf_below (stmt : CfStmt φ δ) :
    Stateful.Keeps (·.vars.below) (executeStatementCf g stmt) := by
  cases stmt with
  | transaction =>
    rw [executeStatementCf]
    exact Stateful.Keeps.throw _
  | expr e =>
    cases e with
    | ifElse branches =>
      rw [executeStatementCf]
      exact keeps_below (evalIf_vars branches)
    | forIn binding iterable body =>
      rw [executeStatementCf]
      refine keeps_below ((keeps_resolveThenEval g iterable).bind fun value => ?_)
      cases valueToIterator value with
      | ok items => exact keeps_forItems g binding (executeBlockInner_below body .null) items []
      | error e => exact Stateful.Keeps.throw _
    | brk =>
      rw [executeStatementCf]
      exact Stateful.Keeps.pure _
    | cont =>
      rw [executeStatementCf]
      exact Stateful.Keeps.pure _
    | leaf e =>
      rw [executeStatementCf]
      · exact keeps_below ((keeps_resolveThenEval g _).bind fun _ => Stateful.Keeps.pure _)
      all_goals exact nofun
  | letVar name e =>
    rw [executeStatementCf]
    refine (keeps_below (keeps_inBatch _)).bind fun resolved => ?_
    refine Stateful.Keeps.bind (keeps_below ?_) fun value =>
      (keeps_setVar name value).bind fun _ => Stateful.Keeps.pure _
    split
    · refine (executeBlock_vars (.single (.expr resolved.1))).bind fun result => ?_
      cases result with
      | value v => exact Stateful.Keeps.pure _
      | brk => exact Stateful.Keeps.throw _
      | cont => exact Stateful.Keeps.throw _
    · exact keeps_evalResolved g resolved.1
  | dml q =>
    rw [executeStatementCf]
    exact keeps_below ((keeps_inBatch _).bind fun _ => Stateful.Keeps.pure _)
  | unsupported =>
    rw [executeStatementCf]
    exact Stateful.Keeps.throw _
termination_by (stmt.size, 0)
decreasing_by
  · simp only [CfStmt.size, CfExpr.size]; omega
  · simp only [CfStmt.size, CfExpr.size]; omega
  · simp only [Block.single, Block.size, CfStmt.size, resolved.2]; omega

theorem evalIf_vars (branches : Branches φ δ) : Stateful.Keeps (·.vars) (evalIf g branches) := by
  cases branches with
  | none =>
    rw [evalIf]
    exact Stateful.Keeps.pure _
  | otherwise block =>
    rw [evalIf]
    exact executeBlock_vars block
  | branch condition block rest =>
    rw [evalIf]
    refine (keeps_inBatch _).bind fun _ => (keeps_resolveThenEval g condition).bind fun value => ?_
    split
    · exact executeBlock_vars block
    · exact evalIf_vars rest
termination_by (branches.size, 0)
decreasing_by all_goals (simp only [Branches.size]; omega)

end

end Frames

/-! ## Visibility -/

section Visibility

variable {W : Type}

/-- The frames show the variables of the place. -/
def Shows (s : BatchState W) (t : Place W) : Prop := s.world = t.world ∧ s.vars.get = t.env

theorem lockstep_inBatch {α : Type} (f : VarEnv → W → Except ExecuteError α × W) :
    Lockstep Shows (inBatch f) (atPlace f) := by
  intro s t h
  have hrun : f s.vars.get s.world = f t.env t.world := by rw [h.1, h.2]
  show (f s.vars.get s.world).1 = (f t.env t.world).1 ∧
    (f s.vars.get s.world).2 = (f t.env t.world).2 ∧ s.vars.get = t.env
  rw [hrun]
  exact ⟨rfl, rfl, h.2⟩

theorem lockstep_setVar (name : String) (value : Value) :
    Lockstep (Shows (W := W)) (setVar name value) (bindVar name value) := by
  intro s t h
  refine ⟨rfl, h.1, ?_⟩
  show (s.vars.set name value).get = t.env.bind name value
  rw [VarScope.get_set, h.2]

/-- A frame shows what it hides from the outside, and is gone afterwards. -/
theorem lockstep_framed {α : Type} {x : Stateful ExecuteError (BatchState W) α}
    {y : Stateful ExecuteError (Place W) α} (h : Lockstep Shows x y)
    (hbelow : Stateful.Keeps (·.vars.below) x) : Lockstep Shows (framed x) (enclosed y) := by
  intro s t hst
  have hpush : Shows { s with vars := s.vars.push } t := ⟨hst.1, VarScope.get_push _ ▸ hst.2⟩
  obtain ⟨hres, hworld, _⟩ := h _ _ hpush
  refine ⟨hres, hworld, ?_⟩
  show (VarScope.pop _).get = t.env
  rw [VarScope.pop_of_below (hbelow { s with vars := s.vars.push })]
  exact hst.2

variable (g : BlockEngine φ δ W)

theorem lockstep_eval (e : CfExpr φ δ) : Lockstep Shows (evalResolved g e) (lexEval g e) := by
  cases e with
  | leaf e => exact lockstep_inBatch _
  | ifElse branches => exact Lockstep.throw _
  | forIn binding iterable body => exact Lockstep.throw _
  | brk => exact Lockstep.throw _
  | cont => exact Lockstep.throw _

theorem lockstep_resolveThenEval (e : CfExpr φ δ) :
    Lockstep Shows (resolveThenEval g e) (lexResolveThenEval g e) :=
  (lockstep_inBatch _).bind fun resolved => lockstep_eval g resolved

theorem lockstep_forItems (binding : String)
    {x : Stateful ExecuteError (BatchState W) ControlFlow}
    {y : Stateful ExecuteError (Place W) ControlFlow} (hxy : Lockstep Shows x y)
    (hbelow : Stateful.Keeps (·.vars.below) x) (items results : List Value) :
    Lockstep Shows (forItems g binding x items results) (lexItems g binding y items results) := by
  induction items generalizing results with
  | nil => exact Lockstep.pure _
  | cons item items ih =>
    unfold forItems lexItems
    have hround : Lockstep Shows (framed do setVar binding item; x)
        (enclosed do bindVar binding item; y) :=
      lockstep_framed ((lockstep_setVar binding item).bind fun _ => hxy)
        ((keeps_setVar binding item).bind fun _ => hbelow)
    refine (lockstep_inBatch _).bind fun _ => hround.bind fun result => ?_
    cases result with
    | value v => exact ih (results ++ [v])
    | brk => exact Lockstep.pure _
    | cont => exact ih results

theorem lockstep_letValue (result : ControlFlow) :
    Lockstep (Shows (W := W)) (letValue result) (letValue result) := by
  cases result with
  | value v => exact Lockstep.pure _
  | brk => exact Lockstep.throw _
  | cont => exact Lockstep.throw _

mutual

theorem lockstep_block (block : Block φ δ) (h : block.Tidy g.hasSubquery) :
    Lockstep Shows (executeBlock g block) (lexBlock g block) := by
  rw [executeBlock, lexBlock]
  exact lockstep_framed (lockstep_inner block .null h) (executeBlockInner_below g block .null)
termination_by (block.size, 1)

theorem lockstep_inner (block : Block φ δ) (lastValue : Value)
    (h : block.Tidy g.hasSubquery) :
    Lockstep Shows (executeBlockInner g block lastValue) (lexInner g block lastValue) := by
  match block, h with
  | .nil, _ =>
    rw [executeBlockInner, lexInner]
    exact Lockstep.pure _
  | .cons stmt rest, h =>
    rw [executeBlockInner, lexInner]
    refine (lockstep_inBatch _).bind fun _ => ?_
    refine (lockstep_statement stmt h.1).bind fun result => ?_
    cases result with
    | value v => exact lockstep_inner rest v h.2
    | brk => exact Lockstep.pure _
    | cont => exact Lockstep.pure _
termination_by (block.size, 0)
decreasing_by all_goals (simp only [Block.size]; omega)

theorem lockstep_statement (stmt : CfStmt φ δ) (h : stmt.Tidy g.hasSubquery) :
    Lockstep Shows (executeStatementCf g stmt) (lexStatement g stmt) := by
  match stmt, h with
  | .transaction, _ =>
    rw [executeStatementCf, lexStatement]
    exact Lockstep.throw _
  | .expr (.ifElse branches), h =>
    rw [executeStatementCf, lexStatement]
    exact lockstep_if branches h
  | .expr (.forIn binding iterable body), h =>
    rw [executeStatementCf, lexStatement]
    refine (lockstep_resolveThenEval g iterable).bind fun value => ?_
    cases valueToIterator value with
    | ok items =>
      exact lockstep_forItems g binding (lockstep_inner body .null h)
        (executeBlockInner_below g body .null) items []
    | error e => exact Lockstep.throw _
  | .expr .brk, _ =>
    rw [executeStatementCf, lexStatement]
    exact Lockstep.pure _
  | .expr .cont, _ =>
    rw [executeStatementCf, lexStatement]
    exact Lockstep.pure _
  | .expr (.leaf e), _ =>
    rw [executeStatementCf, lexStatement]
    · exact (lockstep_resolveThenEval g _).bind fun _ => Lockstep.pure _
    all_goals exact nofun
  | .letVar name e, h =>
    rw [executeStatementCf, lexStatement]
    -- all subqueries of the right side see the variables of the LET
    have hshare : (fun env => (shareExpr g env e).start) = fun env => (resolveExpr g env e).start :=
      funext fun env => by rw [shareExpr_eq g env e h.1]
    rw [hshare]
    have htidy : Yields (fun e' => e'.1.Tidy g.hasSubquery)
        (inBatch fun env => (resolveExpr g env e).start) :=
      fun s => resolveExpr_tidy g s.vars.get g.hasSubquery e h.2 s.world
    refine (lockstep_inBatch _).bind_of_yields htidy fun resolved hresolved => ?_
    refine Lockstep.bind ?_ fun value =>
      (lockstep_setVar name value).bind fun _ => Lockstep.pure _
    split
    · exact (lockstep_block (.single (.expr resolved.1)) ⟨hresolved, trivial⟩).bind
        lockstep_letValue
    · exact lockstep_eval g resolved.1
  | .dml q, _ =>
    rw [executeStatementCf, lexStatement]
    exact (lockstep_inBatch _).bind fun _ => Lockstep.pure _
  | .unsupported, _ =>
    rw [executeStatementCf, lexStatement]
    exact Lockstep.throw _
termination_by (stmt.size, 0)
decreasing_by
  · simp only [CfStmt.size, CfExpr.size]; omega
  · simp only [CfStmt.size, CfExpr.size]; omega
  · simp only [Block.single, Block.size, CfStmt.size, resolved.2]; omega

theorem lockstep_if (branches : Branches φ δ) (h : branches.Tidy g.hasSubquery) :
    Lockstep Shows (evalIf g branches) (lexIf g branches) := by
  match branches, h with
  | .none, _ =>
    rw [evalIf, lexIf]
    exact Lockstep.pure _
  | .otherwise block, h =>
    rw [evalIf, lexIf]
    exact lockstep_block block h
  | .branch condition block rest, h =>
    rw [evalIf, lexIf]
    refine (lockstep_inBatch _).bind fun _ => ?_
    refine (lockstep_resolveThenEval g condition).bind fun value => ?_
    split
    · exact lockstep_block block h.1
    · exact lockstep_if rest h.2
termination_by (branches.size, 0)
decreasing_by all_goals (simp only [Branches.size]; omega)

end

end Visibility

/-! ## A LET that does not -/

section Counting

variable (hasSubquery : φ → Bool)

/-- An engine that counts the subqueries it resolves and lets one deadline check pass. -/
def countingEngine : BlockEngine φ δ (Nat × Nat) where
  checkDeadline w := if w.1 = 0 then (.ok (), (1, w.2)) else (.error (.other "deadline"), w)
  hasSubquery := hasSubquery
  resolve e _ w := (.ok e, if hasSubquery e then (w.1, w.2 + 1) else w)
  resolve_of_plain e h _ w := by rw [h]; rfl
  evalExpr _ _ w := (.ok .null, w)
  executeDml _ _ w := (.ok .null, w)

mutual

/-- The subqueries `resolveExpr` finds. -/
def CfExpr.subqueries : CfExpr φ δ → Nat
  | .leaf e => if hasSubquery e then 1 else 0
  | .ifElse branches => branches.subqueries
  | .forIn _ iterable body => iterable.subqueries + body.subqueries
  | .brk | .cont => 0

def Branches.subqueries : Branches φ δ → Nat
  | .none => 0
  | .otherwise block => block.subqueries
  | .branch condition block rest =>
    condition.subqueries + block.subqueries + rest.subqueries

def Block.subqueries : Block φ δ → Nat
  | .nil => 0
  | .cons (.expr e) rest => e.subqueries + rest.subqueries
  | .cons _ rest => rest.subqueries

end

mutual

/-- The subqueries `shareExpr` finds. -/
def CfExpr.sharedSubqueries : CfExpr φ δ → Nat
  | .leaf e => if hasSubquery e then 1 else 0
  | .ifElse branches => branches.sharedSubqueries
  | .forIn _ iterable _ => iterable.sharedSubqueries
  | .brk | .cont => 0

def Branches.sharedSubqueries : Branches φ δ → Nat
  | .none => 0
  | .otherwise block => block.sharedSubqueries
  | .branch condition block rest =>
    condition.sharedSubqueries + block.sharedSubqueries + rest.sharedSubqueries

def Block.sharedSubqueries : Block φ δ → Nat
  | .nil => 0
  | .cons (.expr e) rest => e.sharedSubqueries + rest.sharedSubqueries
  | .cons (.letVar _ _) _ => 0
  | .cons _ rest => rest.sharedSubqueries

end

mutual

theorem CfExpr.plain_iff (e : CfExpr φ δ) :
    e.Plain hasSubquery ↔ e.subqueries hasSubquery = 0 := by
  cases e with
  | leaf e => simp [CfExpr.Plain, CfExpr.subqueries]
  | ifElse branches => exact Branches.plain_iff branches
  | forIn binding iterable body =>
    have hiterable := CfExpr.plain_iff iterable
    have hbody := Block.plain_iff body
    simp only [CfExpr.Plain, CfExpr.subqueries, hiterable, hbody]
    omega
  | brk => exact ⟨fun _ => rfl, fun _ => trivial⟩
  | cont => exact ⟨fun _ => rfl, fun _ => trivial⟩

theorem Branches.plain_iff (bs : Branches φ δ) :
    bs.Plain hasSubquery ↔ bs.subqueries hasSubquery = 0 := by
  cases bs with
  | none => exact ⟨fun _ => rfl, fun _ => trivial⟩
  | otherwise block => exact Block.plain_iff block
  | branch condition block rest =>
    have hcondition := CfExpr.plain_iff condition
    have hblock := Block.plain_iff block
    have hrest := Branches.plain_iff rest
    simp only [Branches.Plain, Branches.subqueries, hcondition, hblock, hrest]
    omega

theorem Block.plain_iff (b : Block φ δ) :
    b.Plain hasSubquery ↔ b.subqueries hasSubquery = 0 := by
  cases b with
  | nil => exact ⟨fun _ => rfl, fun _ => trivial⟩
  | cons stmt rest =>
    have hrest := Block.plain_iff rest
    cases stmt with
    | expr e =>
      have he := CfExpr.plain_iff e
      simp only [Block.Plain, Block.subqueries, he, hrest]
      omega
    | transaction => exact hrest
    | letVar name e => exact hrest
    | dml q => exact hrest
    | unsupported => exact hrest

end

mutual

/-- Some subqueries are shared, and all of them in an expression of that kind only. -/
theorem CfExpr.shared_count (e : CfExpr φ δ) :
    e.sharedSubqueries hasSubquery ≤ e.subqueries hasSubquery ∧
      (e.Shared hasSubquery ↔ e.sharedSubqueries hasSubquery = e.subqueries hasSubquery) := by
  cases e with
  | leaf e => exact ⟨le_refl _, fun _ => rfl, fun _ => trivial⟩
  | ifElse branches => exact Branches.shared_count branches
  | forIn binding iterable body =>
    have hiterable := CfExpr.shared_count iterable
    have hbody := Block.plain_iff hasSubquery body
    simp only [CfExpr.Shared, CfExpr.sharedSubqueries, CfExpr.subqueries, hiterable.2, hbody]
    omega
  | brk => exact ⟨le_refl _, fun _ => rfl, fun _ => trivial⟩
  | cont => exact ⟨le_refl _, fun _ => rfl, fun _ => trivial⟩

theorem Branches.shared_count (bs : Branches φ δ) :
    bs.sharedSubqueries hasSubquery ≤ bs.subqueries hasSubquery ∧
      (bs.Shared hasSubquery ↔ bs.sharedSubqueries hasSubquery = bs.subqueries hasSubquery) := by
  cases bs with
  | none => exact ⟨le_refl _, fun _ => rfl, fun _ => trivial⟩
  | otherwise block => exact Block.shared_count block
  | branch condition block rest =>
    have hcondition := CfExpr.shared_count condition
    have hblock := Block.shared_count block
    have hrest := Branches.shared_count rest
    simp only [Branches.Shared, Branches.sharedSubqueries, Branches.subqueries, hcondition.2,
      hblock.2, hrest.2]
    omega

theorem Block.shared_count (b : Block φ δ) :
    b.sharedSubqueries hasSubquery ≤ b.subqueries hasSubquery ∧
      (b.Shared hasSubquery ↔ b.sharedSubqueries hasSubquery = b.subqueries hasSubquery) := by
  cases b with
  | nil => exact ⟨le_refl _, fun _ => rfl, fun _ => trivial⟩
  | cons stmt rest =>
    have hrest := Block.shared_count rest
    cases stmt with
    | expr e =>
      have he := CfExpr.shared_count e
      simp only [Block.Shared, Block.sharedSubqueries, Block.subqueries, he.2, hrest.2]
      omega
    | letVar name e =>
      have hplain := Block.plain_iff hasSubquery rest
      simp only [Block.Shared, Block.sharedSubqueries, Block.subqueries, hplain]
      omega
    | transaction => exact hrest
    | dml q => exact hrest
    | unsupported => exact hrest

end

variable (env : VarEnv)

mutual

theorem resolveExpr_counting (e : CfExpr φ δ) (w : Nat × Nat) :
    (resolveExpr (countingEngine hasSubquery) env e).start w =
      (.ok ⟨e, rfl⟩, (w.1, w.2 + e.subqueries hasSubquery)) := by
  cases e with
  | leaf e =>
    rw [resolveExpr, start_bind, start_of]
    show (Except.ok _, if hasSubquery e then (w.1, w.2 + 1) else w) = _
    unfold CfExpr.subqueries
    split <;> rfl
  | ifElse branches =>
    rw [resolveExpr, start_bind, resolveBranches_counting branches w]
    rfl
  | forIn binding iterable body =>
    rw [resolveExpr, start_bind, resolveExpr_counting iterable w]
    dsimp only
    rw [start_bind, transformBlock_counting body]
    simp only [start_pure, CfExpr.subqueries, Nat.add_assoc]
  | brk => rfl
  | cont => rfl

theorem resolveBranches_counting (bs : Branches φ δ) (w : Nat × Nat) :
    (resolveBranches (countingEngine hasSubquery) env bs).start w =
      (.ok ⟨bs, rfl⟩, (w.1, w.2 + bs.subqueries hasSubquery)) := by
  cases bs with
  | none => rfl
  | otherwise block =>
    rw [resolveBranches, start_bind, transformBlock_counting block w]
    rfl
  | branch condition block rest =>
    rw [resolveBranches, start_bind, resolveExpr_counting condition w]
    dsimp only
    rw [start_bind, transformBlock_counting block]
    dsimp only
    rw [start_bind, resolveBranches_counting rest]
    simp only [start_pure, Branches.subqueries, Nat.add_assoc]

theorem transformBlock_counting (b : Block φ δ) (w : Nat × Nat) :
    (transformBlock (countingEngine hasSubquery) env b).start w =
      (.ok ⟨b, rfl⟩, (w.1, w.2 + b.subqueries hasSubquery)) := by
  cases b with
  | nil => rfl
  | cons stmt rest =>
    have hrest := transformBlock_counting rest w
    cases stmt with
    | expr e =>
      rw [transformBlock, start_bind, resolveExpr_counting e w]
      dsimp only
      rw [start_bind, transformBlock_counting rest]
      simp only [start_pure, Block.subqueries, Nat.add_assoc]
    | transaction => rw [transformBlock, start_bind, hrest] <;> first | rfl | nofun
    | letVar name e => rw [transformBlock, start_bind, hrest] <;> first | rfl | nofun
    | dml q => rw [transformBlock, start_bind, hrest] <;> first | rfl | nofun
    | unsupported => rw [transformBlock, start_bind, hrest] <;> first | rfl | nofun

end

mutual

theorem shareExpr_counting (e : CfExpr φ δ) (w : Nat × Nat) :
    (shareExpr (countingEngine hasSubquery) env e).start w =
      (.ok ⟨e, rfl⟩, (w.1, w.2 + e.sharedSubqueries hasSubquery)) := by
  cases e with
  | leaf e =>
    rw [shareExpr, start_bind, start_of]
    show (Except.ok _, if hasSubquery e then (w.1, w.2 + 1) else w) = _
    unfold CfExpr.sharedSubqueries
    split <;> rfl
  | ifElse branches =>
    rw [shareExpr, start_bind, shareBranches_counting branches w]
    rfl
  | forIn binding iterable body =>
    rw [shareExpr, start_bind, shareExpr_counting iterable w]
    rfl
  | brk => rfl
  | cont => rfl

theorem shareBranches_counting (bs : Branches φ δ) (w : Nat × Nat) :
    (shareBranches (countingEngine hasSubquery) env bs).start w =
      (.ok ⟨bs, rfl⟩, (w.1, w.2 + bs.sharedSubqueries hasSubquery)) := by
  cases bs with
  | none => rfl
  | otherwise block =>
    rw [shareBranches, start_bind, shareBlock_counting block w]
    rfl
  | branch condition block rest =>
    rw [shareBranches, start_bind, shareExpr_counting condition w]
    dsimp only
    rw [start_bind, shareBlock_counting block]
    dsimp only
    rw [start_bind, shareBranches_counting rest]
    simp only [start_pure, Branches.sharedSubqueries, Nat.add_assoc]

theorem shareBlock_counting (b : Block φ δ) (w : Nat × Nat) :
    (shareBlock (countingEngine hasSubquery) env b).start w =
      (.ok ⟨b, rfl⟩, (w.1, w.2 + b.sharedSubqueries hasSubquery)) := by
  cases b with
  | nil => rfl
  | cons stmt rest =>
    have hrest := shareBlock_counting rest w
    cases stmt with
    | expr e =>
      rw [shareBlock, start_bind, shareExpr_counting e w]
      dsimp only
      rw [start_bind, shareBlock_counting rest]
      simp only [start_pure, Block.sharedSubqueries, Nat.add_assoc]
    | letVar name e => rfl
    | transaction => rw [shareBlock, start_bind, hrest] <;> first | rfl | nofun
    | dml q => rw [shareBlock, start_bind, hrest] <;> first | rfl | nofun
    | unsupported => rw [shareBlock, start_bind, hrest] <;> first | rfl | nofun

end

end Counting

/-! ## Blocks and the scope -/

section Scope

variable (hasSubquery : φ → Bool)

/-- Whatever the engine, the block does what its places say. -/
def KeepsPlaces (block : Block φ δ) : Prop :=
  ∀ (W : Type) (g : BlockEngine φ δ W), g.hasSubquery = hasSubquery →
    Lockstep Shows (executeBlock g block) (lexBlock g block)

theorem start_inBatch {W α : Type} (f : VarEnv → W → Except ExecuteError α × W)
    (s : BatchState W) :
    (inBatch f).start s = ((f s.vars.get s.world).1, ⟨(f s.vars.get s.world).2, s.vars⟩) := rfl

theorem start_atPlace {W α : Type} (f : VarEnv → W → Except ExecuteError α × W) (t : Place W) :
    (atPlace f).start t = ((f t.env t.world).1, ⟨(f t.env t.world).2, t.env⟩) := rfl

/-- With the counting engine a LET of an IF or a FOR ends behind its subqueries. -/
theorem counting_letVar (name : String) {e : CfExpr φ δ} (he : e.isControlFlow = true)
    (vars : VarScope) :
    ((executeBlock (countingEngine hasSubquery) (.single (.letVar name e))).start
      ⟨(0, 0), vars⟩).2.world = (1, e.subqueries hasSubquery) := by
  have hinner : (executeBlock (countingEngine hasSubquery) (.single (.expr e) : Block φ δ)).start
      ⟨(1, e.subqueries hasSubquery), vars.push⟩ =
        (.error (.other "deadline"), ⟨(1, e.subqueries hasSubquery), vars.push⟩) := by
    rw [executeBlock, Block.single, executeBlockInner]
    rfl
  have hresolve := resolveExpr_counting (δ := δ) hasSubquery vars.push.get e (1, 0)
  rw [Nat.zero_add] at hresolve
  have hstatement : (executeStatementCf (countingEngine hasSubquery)
      (.letVar name e : CfStmt φ δ)).start ⟨(1, 0), vars.push⟩ =
        (.error (.other "deadline"), ⟨(1, e.subqueries hasSubquery), vars.push⟩) := by
    rw [executeStatementCf, start_bind, start_inBatch, hresolve]
    dsimp only
    rw [start_bind, if_pos he, start_bind, hinner]
  rw [executeBlock, Block.single, executeBlockInner]
  show ((executeStatementCf _ _ >>= _).start ⟨(1, 0), vars.push⟩).2.world = _
  rw [start_bind, hstatement]

theorem counting_lexLet (name : String) {e : CfExpr φ δ} (he : e.isControlFlow = true)
    (env : VarEnv) :
    ((lexBlock (countingEngine hasSubquery) (.single (.letVar name e))).start
      ⟨(0, 0), env⟩).2.world = (1, e.sharedSubqueries hasSubquery) := by
  have hinner : (lexBlock (countingEngine hasSubquery) (.single (.expr e) : Block φ δ)).start
      ⟨(1, e.sharedSubqueries hasSubquery), env⟩ =
        (.error (.other "deadline"), ⟨(1, e.sharedSubqueries hasSubquery), env⟩) := by
    rw [lexBlock, Block.single, lexInner]
    rfl
  have hshare := shareExpr_counting (δ := δ) hasSubquery env e (1, 0)
  rw [Nat.zero_add] at hshare
  have hstatement : (lexStatement (countingEngine hasSubquery)
      (.letVar name e : CfStmt φ δ)).start ⟨(1, 0), env⟩ =
        (.error (.other "deadline"), ⟨(1, e.sharedSubqueries hasSubquery), env⟩) := by
    rw [lexStatement, start_bind, start_atPlace, hshare]
    dsimp only
    rw [start_bind, if_pos he, start_bind, hinner]
  rw [lexBlock, Block.single, lexInner]
  show ((lexStatement _ _ >>= _).start ⟨(1, 0), env⟩).2.world = _
  rw [start_bind, hstatement]

theorem letVar_keepsPlaces (name : String) {e : CfExpr φ δ} (htidy : e.Tidy hasSubquery) :
    KeepsPlaces hasSubquery (.single (.letVar name e) : Block φ δ) ↔ e.Shared hasSubquery := by
  constructor
  · intro h
    cases hcf : e.isControlFlow with
    | false => cases e with
      | leaf e => trivial
      | brk => trivial
      | cont => trivial
      | ifElse branches => cases hcf
      | forIn binding iterable body => cases hcf
    | true =>
      -- both runs end at the deadline, with the subqueries they resolved
      have hstep := (h _ (countingEngine hasSubquery) rfl ⟨(0, 0), ⟨[], []⟩⟩ ⟨(0, 0), _⟩
        ⟨rfl, rfl⟩).2.1
      rw [counting_letVar hasSubquery name hcf, counting_lexLet hasSubquery name hcf] at hstep
      exact (e.shared_count hasSubquery).2.mpr (congrArg Prod.snd hstep).symm
  · intro h W g hg
    subst hg
    exact lockstep_block g _ ⟨⟨h, htidy⟩, trivial⟩

/-- The frames are left as they were, whatever a block returns; in a block whose LETs bind nothing
over a subquery of theirs every statement sees what is bound at its place; and a LET that does
bind over a subquery breaks that. -/
theorem executeBlock_scope :
    (∀ (W : Type) (g : BlockEngine φ δ W) (block : Block φ δ) (s : BatchState W),
      ((executeBlock g block).start s).2.vars = s.vars) ∧
    (∀ block : Block φ δ, block.Tidy hasSubquery → KeepsPlaces hasSubquery block) ∧
    (∀ (name : String) (e : CfExpr φ δ), e.Tidy hasSubquery →
      (KeepsPlaces hasSubquery (.single (.letVar name e) : Block φ δ) ↔
        e.Shared hasSubquery)) := by
  refine ⟨fun W g block s => executeBlock_vars g block s, ?_, ?_⟩
  · intro block htidy W g hg
    subst hg
    exact lockstep_block g block htidy
  · exact fun name e htidy => letVar_keepsPlaces hasSubquery name htidy

end Scope

namespace Market

/-- The expressions of a small market: a list, a subquery that reads a variable, a literal. -/
inductive Stall where
  | items (vs : List Value)
  | select (name : String)
  | literal (v : Value)

def isSelect : Stall → Bool
  | .select _ => true
  | _ => false

/-- A subquery finds the value of its variable, or fails without one. -/
def market : BlockEngine Stall Unit Unit where
  checkDeadline w := (.ok (), w)
  hasSubquery := isSelect
  resolve e env w :=
    match e with
    | .select name =>
      match env name with
      | some v => (.ok (.literal (.array [v])), w)
      | none => (.error (.other ("Undefined variable: $" ++ name)), w)
    | other => (.ok other, w)
  resolve_of_plain e h _ _ := by
    cases e with
    | select name => cases h
    | items vs => rfl
    | literal v => rfl
  evalExpr e _ w :=
    match e with
    | .items vs => (.ok (.array vs), w)
    | .literal v => (.ok v, w)
    | .select _ => (.ok .null, w)
  executeDml _ _ w := (.ok (.array []), w)

/-- `FOR $j IN [10] { (SELECT VALUE v FROM t WHERE v = $j) }` -/
def loop : CfExpr Stall Unit :=
  .forIn "j" (.leaf (.items [.int 10])) (.single (.expr (.leaf (.select "j"))))

/-- By itself the loop finds what it looks for; as the value of a LET it does not know `$j`. -/
theorem loop_lost :
    ((executeBlock market (.single (.expr loop))).start ⟨(), ⟨[], []⟩⟩).1 =
        .ok (.value (.array [.array [.int 10]])) ∧
      ((executeBlock market (.single (.letVar "y" loop))).start ⟨(), ⟨[], []⟩⟩).1 =
        .error (.other "Undefined variable: $j") ∧
      ((lexBlock market (.single (.letVar "y" loop))).start ⟨(), fun _ => none⟩).1 =
        .ok (.value .null) ∧
      ¬ ∀ block : Block Stall Unit, KeepsPlaces isSelect block := by
  have hcode : ((executeBlock market (.single (.letVar "y" loop))).start ⟨(), ⟨[], []⟩⟩).1 =
      .error (.other "Undefined variable: $j") := by
    simp only [executeBlock, Block.single, executeBlockInner, executeStatementCf]
    rfl
  have hplace : ((lexBlock market (.single (.letVar "y" loop))).start ⟨(), fun _ => none⟩).1 =
      .ok (.value .null) := by
    have hloop : (lexBlock market (.single (.expr loop))).start ⟨(), fun _ => none⟩ =
        (.ok (.value (.array [.array [.int 10]])), ⟨(), fun _ => none⟩) := by
      simp only [lexBlock, Block.single, loop, lexInner, lexStatement]
      rfl
    have hshare : (shareExpr market (fun _ => none) loop).start () = (.ok ⟨loop, rfl⟩, ()) := rfl
    have hstatement : (lexStatement market (.letVar "y" loop)).start ⟨(), fun _ => none⟩ =
        (.ok (.value .null),
          ⟨(), VarEnv.bind (fun _ => none) "y" (.array [.array [.int 10]])⟩) := by
      rw [lexStatement, start_bind, start_atPlace, hshare]
      dsimp only
      have hcf : loop.isControlFlow = true := rfl
      rw [start_bind, if_pos hcf, start_bind, hloop]
      rfl
    rw [lexBlock, Block.single, lexInner]
    show ((lexStatement market _ >>= _).start ⟨(), fun _ => none⟩).1 = _
    rw [start_bind, hstatement]
    dsimp only
    rw [lexInner]
    rfl
  refine ⟨?_, hcode, hplace, fun h => ?_⟩
  · simp only [executeBlock, Block.single, loop, executeBlockInner, executeStatementCf]
    rfl
  · have hsame := (h (.single (.letVar "y" loop)) Unit market rfl ⟨(), ⟨[], []⟩⟩
      ⟨(), fun _ => none⟩ ⟨rfl, rfl⟩).1
    rw [hcode, hplace] at hsame
    cases hsame

end Market

end StellarDb
