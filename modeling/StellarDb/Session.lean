import StellarDb.Indexes.Exact
import StellarDb.Transaction.Interleaved

/-!
# StellarDb — sessions (`session/manager.rs`, `session/types.rs`)

Between two requests a client's transaction lives in a session of the server. Every method of the
manager holds its lock from beginning to end, so a history is a list of calls:

* `session_buffers`: what is in a session is what its owner has put there since it was begun;
* `changes_are_committed`: only the owner's commit writes to a database;
* `others_leave`: a session stays as its owner left it until it times out.
-/

namespace StellarDb

inductive SessionPrincipal where
  | anonymous
  | authenticated (identity : String)
  deriving DecidableEq

structure SessionOwner where
  principal : SessionPrincipal
  database : String
  deriving DecidableEq

inductive SessionAccessError where
  | principalMismatch
  | databaseMismatch
  | expired

inductive SessionError where
  | access (e : SessionAccessError)
  | transaction (e : TransactionError)

/-- `transaction` goes with the database that it is on, one of `ι`. -/
structure Session (ι : Type) where
  owner : SessionOwner
  transaction : Option (ι × Transaction)
  lastActivity : Nat

/-- With the databases that the transactions are on. -/
structure SessionManager (ι : Type) where
  sessions : String → Option (Session ι)
  transactionTimeout : Nat
  databases : ι → Database

def Transaction.rollback (tx : Transaction) : Transaction × Except TransactionError Unit :=
  match tx.ensureActive with
  | .error e => (tx, .error e)
  | .ok () => (cleared .rolledBack, .ok ())

section

variable {ι : Type}

namespace Session

def validateOwner (session : Session ι) (owner : SessionOwner) : Except SessionAccessError Unit :=
  if session.owner.principal ≠ owner.principal then .error .principalMismatch
  else if session.owner.database ≠ owner.database then .error .databaseMismatch
  else .ok ()

def hasTransaction (session : Session ι) : Bool :=
  session.transaction.any fun t => t.2.state = .active

/-- `Instant::elapsed` is never negative. -/
def isTimedOut (session : Session ι) (now timeout : Nat) : Bool :=
  timeout < now - session.lastActivity

theorem validateOwner_ok_iff {session : Session ι} {owner : SessionOwner} :
    session.validateOwner owner = .ok () ↔ session.owner = owner := by
  obtain ⟨⟨p, d⟩, _⟩ := session
  obtain ⟨p', d'⟩ := owner
  by_cases hp : p = p' <;> by_cases hd : d = d' <;> simp [validateOwner, hp, hd]

end Session

/-! ## The manager -/

namespace SessionManager

def noActiveTransaction : SessionError := .transaction .noActiveTransaction

/-- One round of `begin_transaction`; an id that is taken is drawn again. -/
def beginTransaction (m : SessionManager ι) (storage : ι) (owner : SessionOwner)
    (sessionId : String) (now : Nat) : SessionManager ι × Option String :=
  if (m.sessions sessionId).isSome then (m, none)
  else
    ({ m with
        sessions := Function.update m.sessions sessionId
          (some ⟨owner, some (storage, .new), now⟩) },
      some sessionId)

def validateAccess (m : SessionManager ι) (sessionId : String) (owner : SessionOwner) :
    Except SessionAccessError Unit :=
  match m.sessions sessionId with
  | none => .error .expired
  | some session =>
    match session.validateOwner owner with
    | .error e => .error e
    | .ok () => if session.hasTransaction then .ok () else .error .expired

/-- How `with_transaction`, `commit` and `rollback` get at a session, and what becomes of it. -/
def act {α : Type} (m : SessionManager ι) (sessionId : String) (owner : SessionOwner)
    (f : Session ι → Option (Session ι) × (ι → Database) × Except SessionError α) :
    SessionManager ι × Except SessionError α :=
  match m.sessions sessionId with
  | none => (m, .error noActiveTransaction)
  | some session =>
    match session.validateOwner owner with
    | .error e => (m, .error (.access e))
    | .ok () =>
      ({ m with
          sessions := Function.update m.sessions sessionId (f session).1
          databases := (f session).2.1 },
        (f session).2.2)

def withTransaction {α : Type} (m : SessionManager ι) (sessionId : String) (owner : SessionOwner)
    (now : Nat) (f : Transaction → Transaction × Except TransactionError α) :
    SessionManager ι × Except SessionError α :=
  m.act sessionId owner fun session =>
    let session := { session with lastActivity := now }
    match session.transaction with
    | none => (some session, m.databases, .error noActiveTransaction)
    | some (storage, tx) =>
      if tx.state ≠ .active then
        (some session, m.databases, .error (.transaction .alreadyCompleted))
      else
        (some { session with transaction := some (storage, (f tx).1) }, m.databases,
          (f tx).2.mapError .transaction)

/-- A session whose transaction has ended is removed. -/
def ended (session : Session ι) (storage : ι) (tx : Transaction) :
    Except TransactionError Unit → Option (Session ι)
  | .error _ => some { session with transaction := some (storage, tx) }
  | .ok () => none

def commit [External] [DecidableEq ι] (m : SessionManager ι) (sessionId : String)
    (owner : SessionOwner) (f : BatchFaults) (order : IterOrder) :
    SessionManager ι × Except SessionError Unit :=
  m.act sessionId owner fun session =>
    match session.transaction with
    | none => (some session, m.databases, .error noActiveTransaction)
    | some (storage, tx) =>
      let r := tx.commit f order (m.databases storage)
      (ended session storage r.1.2 r.2, Function.update m.databases storage r.1.1,
        r.2.mapError .transaction)

def rollback (m : SessionManager ι) (sessionId : String) (owner : SessionOwner) :
    SessionManager ι × Except SessionError Unit :=
  m.act sessionId owner fun session =>
    match session.transaction with
    | none => (some session, m.databases, .error noActiveTransaction)
    | some (storage, tx) =>
      let r := tx.rollback
      (ended session storage r.1 r.2, m.databases, r.2.mapError .transaction)

def cleanupTimedOut (m : SessionManager ι) (now : Nat) : SessionManager ι :=
  { m with
    sessions := fun id => (m.sessions id).filter (! ·.isTimedOut now m.transactionTimeout) }

end SessionManager

inductive SessionCall (ι : Type) where
  | beginTransaction (storage : ι) (owner : SessionOwner) (sessionId : String) (now : Nat)
  | withTransaction (sessionId : String) (owner : SessionOwner) (now : Nat)
      (f : Transaction → Transaction × Except TransactionError Unit)
  | commit (sessionId : String) (owner : SessionOwner) (f : BatchFaults) (order : IterOrder)
  | rollback (sessionId : String) (owner : SessionOwner)
  | cleanupTimedOut (now : Nat)

namespace SessionManager

variable [External] [DecidableEq ι]

def step (m : SessionManager ι) : SessionCall ι → SessionManager ι
  | .beginTransaction storage owner id now => (m.beginTransaction storage owner id now).1
  | .withTransaction id owner now f => (m.withTransaction id owner now f).1
  | .commit id owner f order => (m.commit id owner f order).1
  | .rollback id owner => (m.rollback id owner).1
  | .cleanupTimedOut now => m.cleanupTimedOut now

def run (m : SessionManager ι) (calls : List (SessionCall ι)) : SessionManager ι :=
  calls.foldl step m

def new (timeout : Nat) (databases : ι → Database) : SessionManager ι :=
  ⟨fun _ => none, timeout, databases⟩

/-! ## What a call does -/

section Act

omit [External] [DecidableEq ι]

variable {α : Type} {m : SessionManager ι} {id sessionId : String} {owner : SessionOwner}
  {f : Session ι → Option (Session ι) × (ι → Database) × Except SessionError α}

/-- Either the session is not the owner's, and nothing happens, or it is acted on. -/
theorem act_cases (m : SessionManager ι) (id : String) (owner : SessionOwner)
    (f : Session ι → Option (Session ι) × (ι → Database) × Except SessionError α) :
    (m.act id owner f).1 = m ∧ (∀ session, m.sessions id = some session → session.owner ≠ owner) ∨
      ∃ session, m.sessions id = some session ∧ session.owner = owner ∧
        (m.act id owner f).1 = { m with
          sessions := Function.update m.sessions id (f session).1
          databases := (f session).2.1 } := by
  unfold act
  cases hsession : m.sessions id with
  | none => exact Or.inl ⟨rfl, fun _ h => by cases h⟩
  | some session =>
    dsimp only
    cases howner : session.validateOwner owner with
    | error e =>
      refine Or.inl ⟨rfl, fun found h heq => ?_⟩
      rw [← Option.some.inj h, ← Session.validateOwner_ok_iff, howner] at heq
      cases heq
    | ok u => exact Or.inr ⟨session, rfl, Session.validateOwner_ok_iff.mp howner, rfl⟩

/-- A session that is there afterwards was there, and `f` has left it so if it acted on it. -/
theorem act_session {session : Session ι}
    (h : (m.act id owner f).1.sessions sessionId = some session) :
    m.sessions sessionId = some session ∧ (id = sessionId → owner ≠ session.owner) ∨
      ∃ old, id = sessionId ∧ owner = old.owner ∧ m.sessions sessionId = some old ∧
        (f old).1 = some session := by
  rcases act_cases m id owner f with ⟨hsame, hother⟩ | ⟨old, hold, howner, hacted⟩
  · rw [hsame] at h
    refine Or.inl ⟨h, fun hid => ?_⟩
    subst hid
    exact (hother session h).symm
  · rw [hacted] at h
    by_cases hid : id = sessionId
    · subst hid
      dsimp only at h
      rw [Function.update_self] at h
      exact Or.inr ⟨old, rfl, howner.symm, hold, h⟩
    · refine Or.inl ⟨(Function.update_of_ne (Ne.symm hid) ..).symm.trans h, fun heq => ?_⟩
      exact absurd heq hid

/-- Nobody acts on another owner's session. -/
theorem act_leaves {session : Session ι} {timeout : Nat} (h : m.sessions sessionId = some session)
    (htimeout : m.transactionTimeout = timeout)
    (hforeign : id = sessionId → owner ≠ session.owner) :
    (m.act id owner f).1.sessions sessionId = some session ∧
      (m.act id owner f).1.transactionTimeout = timeout := by
  rcases act_cases m id owner f with ⟨hsame, -⟩ | ⟨found, hfound, howner, hacted⟩
  · rw [hsame]
    exact ⟨h, htimeout⟩
  · have hid : sessionId ≠ id := by
      rintro rfl
      rw [hfound] at h
      exact hforeign rfl (by rw [← howner, Option.some.inj h])
    rw [hacted]
    exact ⟨(Function.update_of_ne hid _ _).trans h, htimeout⟩

end Act

theorem commit_error {f : BatchFaults} {order : IterOrder} {db : Database} {tx : Transaction}
    {e : TransactionError} (h : (tx.commit f order db).2 = .error e) :
    (tx.commit f order db).1.2 = tx := by
  unfold Transaction.commit at h ⊢
  by_cases hstate : tx.state ≠ .active
  · rw [if_pos hstate]
  · rw [if_neg hstate] at h ⊢
    cases hops : tx.ops order with
    | error e => rfl
    | ok ops =>
      rw [hops] at h
      dsimp only at h ⊢
      split at h
      · rfl
      · cases h

/-! ## Whole histories -/

variable {m : SessionManager ι} {sessionId : String} {calls after : List (SessionCall ι)}
  {call : SessionCall ι} {storage : ι}

/-- What the call makes of the transaction of a session. -/
def effect (sessionId : String) (owner : SessionOwner) (tx : Transaction) :
    SessionCall ι → Transaction
  | .withTransaction id o _ f => if id = sessionId ∧ o = owner then (f tx).1 else tx
  | _ => tx

/-- What the calls of the owner have made of a new transaction. -/
def buffered (sessionId : String) (owner : SessionOwner) (calls : List (SessionCall ι)) :
    Transaction :=
  calls.foldl (effect sessionId owner) .new

/-- The operations of a request read and buffer; they do not end the transaction. -/
def Buffers : SessionCall ι → Prop
  | .withTransaction _ _ _ f => ∀ tx, tx.state = .active → (f tx).1.state = .active
  | _ => True

/-- The last begin of the session, since which it has been there. -/
def Begun (m : SessionManager ι) (sessionId : String) (owner : SessionOwner) (storage : ι)
    (calls after : List (SessionCall ι)) : Prop :=
  ∃ before now, calls = before ++ .beginTransaction storage owner sessionId now :: after ∧
    (m.run before).sessions sessionId = none ∧ ∀ done, done <+: after →
      ((m.run (before ++ .beginTransaction storage owner sessionId now :: done)).sessions
        sessionId).isSome

theorem run_snoc : m.run (calls ++ [call]) = (m.run calls).step call := by
  unfold run
  rw [List.foldl_append]
  rfl

theorem Begun.snoc {owner : SessionOwner} (h : Begun m sessionId owner storage calls after)
    (hstays : ((m.run (calls ++ [call])).sessions sessionId).isSome) :
    Begun m sessionId owner storage (calls ++ [call]) (after ++ [call]) := by
  obtain ⟨before, now, rfl, hfree, hthere⟩ := h
  refine ⟨before, now, by simp, hfree, fun done hdone => ?_⟩
  rcases List.prefix_concat_iff.mp hdone with rfl | hdone
  · simpa using hstays
  · exact hthere done hdone

omit [External] [DecidableEq ι] in
theorem effect_active {owner : SessionOwner} {tx : Transaction} (hcall : Buffers call)
    (h : tx.state = .active) : (effect sessionId owner tx call).state = .active := by
  cases call with
  | withTransaction id o now f =>
    show (if _ then (f tx).1 else tx).state = _
    split
    · exact hcall tx h
    · exact h
  | _ => exact h

/-- A session that is there after a call has just begun, or was there, and the call has done to its
transaction what it does. -/
theorem step_session
    (hactive : ∀ old, m.sessions sessionId = some old →
      ∃ storage tx, old.transaction = some (storage, tx) ∧ tx.state = .active)
    {session : Session ι} (h : (m.step call).sessions sessionId = some session) :
    (∃ storage now, call = .beginTransaction storage session.owner sessionId now ∧
      m.sessions sessionId = none ∧ session.transaction = some (storage, .new)) ∨
    ∃ old storage tx, m.sessions sessionId = some old ∧ old.transaction = some (storage, tx) ∧
      session.owner = old.owner ∧
      session.transaction = some (storage, effect sessionId old.owner tx call) := by
  have hsame : m.sessions sessionId = some session →
      (∀ tx, effect sessionId session.owner tx call = tx) →
      ∃ old storage tx, m.sessions sessionId = some old ∧ old.transaction = some (storage, tx) ∧
        session.owner = old.owner ∧
        session.transaction = some (storage, effect sessionId old.owner tx call) := by
    intro hold heffect
    obtain ⟨storage, tx, htx, -⟩ := hactive session hold
    exact ⟨session, storage, tx, hold, htx, rfl, by rw [heffect, htx]⟩
  cases call with
  | beginTransaction storage owner id now =>
    change (m.beginTransaction storage owner id now).1.sessions sessionId = _ at h
    unfold beginTransaction at h
    split at h
    · exact Or.inr <| hsame h fun _ => rfl
    · next hfree =>
      by_cases hid : sessionId = id
      · subst hid
        dsimp only at h
        rw [Function.update_self] at h
        obtain rfl := Option.some.inj h
        exact Or.inl ⟨storage, now, rfl, Option.not_isSome_iff_eq_none.mp hfree, rfl⟩
      · exact Or.inr <| hsame ((Function.update_of_ne hid _ _).symm.trans h) fun _ => rfl
  | withTransaction id owner now f =>
    rcases act_session h with ⟨hold, hother⟩ | ⟨old, rfl, rfl, hold, hleft⟩
    · exact Or.inr <| hsame hold fun tx => if_neg fun heq => hother heq.1 heq.2
    · obtain ⟨storage, tx, htx, hstate⟩ := hactive old hold
      dsimp only at hleft
      rw [htx] at hleft
      dsimp only at hleft
      rw [if_neg (not_not.mpr hstate)] at hleft
      obtain rfl := Option.some.inj hleft
      refine Or.inr ⟨old, storage, tx, hold, htx, rfl, ?_⟩
      rw [effect, if_pos ⟨rfl, rfl⟩]
  | commit id owner f order =>
    rcases act_session h with ⟨hold, -⟩ | ⟨old, rfl, rfl, hold, hleft⟩
    · exact Or.inr <| hsame hold fun _ => rfl
    · obtain ⟨storage, tx, htx, -⟩ := hactive old hold
      dsimp only at hleft
      rw [htx] at hleft
      dsimp only at hleft
      cases hr : (tx.commit f order (m.databases storage)).2 with
      | ok u =>
        rw [hr] at hleft
        cases hleft
      | error e =>
        -- the transaction is as it was
        rw [hr, commit_error hr] at hleft
        obtain rfl := Option.some.inj hleft
        exact Or.inr ⟨old, storage, tx, hold, htx, rfl, rfl⟩
  | rollback id owner =>
    rcases act_session h with ⟨hold, -⟩ | ⟨old, rfl, rfl, hold, hleft⟩
    · exact Or.inr <| hsame hold fun _ => rfl
    · obtain ⟨storage, tx, htx, hstate⟩ := hactive old hold
      dsimp only at hleft
      rw [htx] at hleft
      simp [Transaction.rollback, Transaction.ensureActive, hstate, ended] at hleft
  | cleanupTimedOut now =>
    exact Or.inr <| hsame (Option.filter_eq_some_iff.mp h).1 fun _ => rfl

/-- A session was begun by its owner, and its transaction is active and holds what the owner's calls
have put there since, whatever others have called in between. -/
theorem session_buffers (timeout : Nat) (databases : ι → Database)
    (hbuffers : ∀ call ∈ calls, Buffers call) {session : Session ι}
    (h : ((new timeout databases).run calls).sessions sessionId = some session) :
    ∃ storage after, Begun (new timeout databases) sessionId session.owner storage calls after ∧
      session.transaction = some (storage, buffered sessionId session.owner after) ∧
      (buffered sessionId session.owner after).state = .active := by
  induction calls using List.reverseRecOn generalizing session with
  | nil => cases h
  | append_singleton calls call ih =>
    replace ih := @ih fun c hc => hbuffers c (List.mem_append_left _ hc)
    have hcall := hbuffers call List.mem_concat_self
    have hstays : (((new timeout databases).run (calls ++ [call])).sessions sessionId).isSome := by
      rw [h]
      rfl
    rw [run_snoc] at h
    have hactive : ∀ old, ((new timeout databases).run calls).sessions sessionId = some old →
        ∃ storage tx, old.transaction = some (storage, tx) ∧ tx.state = .active := by
      intro old hold
      obtain ⟨storage, after, -, htx, hstate⟩ := ih hold
      exact ⟨storage, _, htx, hstate⟩
    rcases step_session hactive h with
      ⟨storage, now, rfl, hfree, htx⟩ | ⟨old, storage, tx, hold, htx, howner, hnext⟩
    · refine ⟨storage, [], ⟨calls, now, rfl, hfree, fun done hdone => ?_⟩, htx, rfl⟩
      rwa [List.prefix_nil.mp hdone]
    · obtain ⟨storage', after, hbegun, htx', hstate⟩ := ih hold
      obtain ⟨rfl, rfl⟩ := Prod.mk.inj (Option.some.inj (htx.symm.trans htx'))
      have hsnoc : buffered sessionId old.owner (after ++ [call]) =
          effect sessionId old.owner (buffered sessionId old.owner after) call := by
        unfold buffered
        rw [List.foldl_append]
        rfl
      rw [howner]
      refine ⟨storage, after ++ [call], hbegun.snoc hstays, ?_⟩
      rw [hsnoc]
      exact ⟨hnext, effect_active hcall hstate⟩

/-- A commit writes to the database of its session; no other call writes to a database. -/
theorem step_databases (m : SessionManager ι) (call : SessionCall ι) (storage : ι) :
    (m.step call).databases storage = m.databases storage ∨
      ∃ sessionId session f order tx, call = .commit sessionId session.owner f order ∧
        m.sessions sessionId = some session ∧ session.transaction = some (storage, tx) ∧
        (m.step call).databases storage = (tx.commit f order (m.databases storage)).1.1 := by
  cases call with
  | beginTransaction at' owner id now =>
    show (m.beginTransaction at' owner id now).1.databases storage = _ ∨ _
    unfold beginTransaction
    split <;> exact Or.inl rfl
  | withTransaction id owner now f =>
    show (m.withTransaction id owner now f).1.databases storage = _ ∨ _
    unfold withTransaction
    rcases act_cases m id owner _ with ⟨heq, -⟩ | ⟨session, -, -, heq⟩ <;> rw [heq]
    · exact Or.inl rfl
    · dsimp only
      split
      · exact Or.inl rfl
      · split <;> exact Or.inl rfl
  | commit id owner f order =>
    show (m.commit id owner f order).1.databases storage = _ ∨ _
    unfold step commit
    rcases act_cases m id owner _ with ⟨heq, -⟩ | ⟨session, hsession, rfl, heq⟩ <;> rw [heq]
    · exact Or.inl rfl
    · dsimp only
      split
      · exact Or.inl rfl
      · next at' tx htx =>
        by_cases hat : storage = at'
        · subst hat
          refine Or.inr ⟨id, session, f, order, tx, rfl, hsession, htx, ?_⟩
          refine (congrFun (congrArg databases heq) storage).trans ?_
          dsimp only
          rw [htx]
          exact Function.update_self ..
        · exact Or.inl (Function.update_of_ne hat _ _)
  | rollback id owner =>
    show (m.rollback id owner).1.databases storage = _ ∨ _
    unfold rollback
    rcases act_cases m id owner _ with ⟨heq, -⟩ | ⟨session, -, -, heq⟩ <;> rw [heq]
    · exact Or.inl rfl
    · dsimp only
      split <;> exact Or.inl rfl
  | cleanupTimedOut now => exact Or.inl rfl

/-- In every state access is granted to the owner of a session, and to nobody else. -/
theorem validateAccess_iff (timeout : Nat) (databases : ι → Database)
    (hbuffers : ∀ call ∈ calls, Buffers call) (sessionId : String) (owner : SessionOwner) :
    ((new timeout databases).run calls).validateAccess sessionId owner = .ok () ↔
      ∃ session, ((new timeout databases).run calls).sessions sessionId = some session ∧
        session.owner = owner := by
  unfold validateAccess
  cases hsession : ((new timeout databases).run calls).sessions sessionId with
  | none => simp
  | some session =>
    obtain ⟨storage, after, -, htx, hstate⟩ := session_buffers timeout databases hbuffers hsession
    have hhas : session.hasTransaction = true := by
      unfold Session.hasTransaction
      rw [htx]
      exact decide_eq_true hstate
    cases howner : session.validateOwner owner <;>
      simp [howner, hhas, ← Session.validateOwner_ok_iff]

/-- The call is not the owner's, and at a cleanup the session is not idle for too long. -/
def Foreign (sessionId : String) (session : Session ι) (timeout : Nat) : SessionCall ι → Prop
  | .beginTransaction .. => True
  | .withTransaction id owner _ _ | .commit id owner _ _ | .rollback id owner =>
    id = sessionId → owner ≠ session.owner
  | .cleanupTimedOut now => now ≤ session.lastActivity + timeout

/-- A session stays as it is until its owner calls, or a cleanup finds it idle for too long. -/
theorem others_leave (m : SessionManager ι) {session : Session ι}
    (h : m.sessions sessionId = some session)
    (hforeign : ∀ call ∈ calls, Foreign sessionId session m.transactionTimeout call) :
    (m.run calls).sessions sessionId = some session ∧
      (m.run calls).transactionTimeout = m.transactionTimeout := by
  induction calls using List.reverseRecOn with
  | nil => exact ⟨h, rfl⟩
  | append_singleton calls call ih =>
    obtain ⟨hthere, htimeout⟩ := ih fun c hc => hforeign c (List.mem_append_left _ hc)
    have hcall := hforeign call List.mem_concat_self
    rw [run_snoc]
    cases call with
    | beginTransaction storage owner id now =>
      show (beginTransaction ..).1.sessions _ = _ ∧ (beginTransaction ..).1.transactionTimeout = _
      unfold beginTransaction
      split
      · exact ⟨hthere, htimeout⟩
      · next hfree =>
        have hid : sessionId ≠ id := by
          rintro rfl
          rw [hthere] at hfree
          exact hfree rfl
        exact ⟨(Function.update_of_ne hid _ _).trans hthere, htimeout⟩
    | withTransaction id owner now f => exact act_leaves hthere htimeout hcall
    | commit id owner f order => exact act_leaves hthere htimeout hcall
    | rollback id owner => exact act_leaves hthere htimeout hcall
    | cleanupTimedOut now =>
      refine ⟨Option.filter_eq_some_iff.mpr ⟨hthere, ?_⟩, htimeout⟩
      replace hcall : now ≤ session.lastActivity + m.transactionTimeout := hcall
      show (! decide (_ < now - session.lastActivity)) = true
      rw [htimeout, Bool.not_eq_true', decide_eq_false_iff_not]
      omega

/-- What has been committed is gone, whatever is called, until its id is drawn again: no transaction
is applied twice. -/
theorem commits_once (m : SessionManager ι) {owner : SessionOwner} {f : BatchFaults}
    {order : IterOrder} (h : (m.commit sessionId owner f order).2 = .ok ())
    (hbegin : ∀ call ∈ calls, ∀ storage owner now,
      call ≠ .beginTransaction storage owner sessionId now) {α : Type} (owner' : SessionOwner)
    (g : Session ι → Option (Session ι) × (ι → Database) × Except SessionError α) :
    ((m.commit sessionId owner f order).1.run calls).act sessionId owner' g =
      ((m.commit sessionId owner f order).1.run calls, .error noActiveTransaction) := by
  have hgone : ((m.commit sessionId owner f order).1.run calls).sessions sessionId = none := by
    induction calls using List.reverseRecOn with
    | nil =>
      show (m.commit sessionId owner f order).1.sessions sessionId = none
      unfold commit act at h ⊢
      split at h
      · cases h
      · split at h
        · cases h
        · next session _ _ _ =>
          dsimp only at h ⊢
          cases htx : session.transaction with
          | none =>
            rw [htx] at h
            cases h
          | some t =>
            rw [htx] at h
            dsimp only at h ⊢
            rw [Function.update_self]
            cases hr : (Transaction.commit f order (m.databases t.1) t.2).2 with
            | error e =>
              rw [hr] at h
              cases h
            | ok u => rfl
    | append_singleton calls call ih =>
      specialize ih fun c hc => hbegin c (List.mem_append_left _ hc)
      by_contra hthere
      obtain ⟨session, hsession⟩ := Option.ne_none_iff_exists'.mp hthere
      rw [run_snoc] at hsession
      rcases step_session (fun old hold => by rw [ih] at hold; cases hold) hsession with
        ⟨storage, now, hcall, -⟩ | ⟨old, -, -, hold, -⟩
      · exact hbegin call List.mem_concat_self storage _ now hcall
      · rw [ih] at hold
        cases hold
  unfold act
  rw [hgone]

end SessionManager

end

/-! ## Two clients at one desk -/

namespace Desks

open SessionManager Keyspaces

local instance : External := .standIn

def shop : Database where
  keyspaces _ := none
  indexes _ := []
  indexKeyspaces _ := ∅
  edges := ⟨[], fun _ => ∅⟩

theorem shop_indexed : shop.Indexed where
  names := fun _ _ _ h => by cases h
  index := fun _ _ h => by cases h
  markers := fun _ _ => rfl

def ann : SessionOwner := ⟨.authenticated "ann", "shop"⟩

def bob : SessionOwner := ⟨.authenticated "bob", "shop"⟩

def write (id : String) (tx : Transaction) : Transaction × Except TransactionError Unit :=
  match tx.insert ⟨id, [], Value.wf_no_fields⟩ with
  | .ok tx => (tx, .ok ())
  | .error e => (tx, .error e)

theorem write_active (id : String) (tx : Transaction) (h : tx.state = .active) :
    (write id tx).1.state = .active := by
  unfold write
  split
  · next next hnext =>
    unfold Transaction.insert Transaction.ensureActive at hnext
    simp only [h] at hnext
    cases hnext
    exact h
  · exact h

/-- Bob writes into the session that Ann has begun, and Ann does. -/
def visits : List (SessionCall Unit) :=
  [.beginTransaction () ann "desk" 0, .withTransaction "desk" bob 1 (write "slips:first"),
    .withTransaction "desk" ann 2 (write "slips:second"), .cleanupTimedOut 9]

theorem visits_buffer : ∀ call ∈ visits, Buffers call :=
  List.forall_mem_cons.mpr ⟨trivial, List.forall_mem_cons.mpr ⟨write_active _,
    List.forall_mem_cons.mpr ⟨write_active _, List.forall_mem_singleton.mpr trivial⟩⟩⟩

def desk : SessionManager Unit := (new 300 fun _ => shop).run visits

theorem desk_there : ∃ session, desk.sessions "desk" = some session :=
  Option.isSome_iff_exists.mp (by decide +kernel)

theorem visits_access : desk.validateAccess "desk" bob = .ok () ↔
    ∃ session, desk.sessions "desk" = some session ∧ session.owner = bob :=
  validateAccess_iff 300 (fun _ => shop) visits_buffer "desk" bob

def later : List (SessionCall Unit) :=
  [.withTransaction "desk" ann 3 (write "slips:third"), .commit "desk" ann .none .asKept]

theorem desk_closes : ((desk.commit "desk" ann .none .asKept).1.run later).rollback "desk" ann =
    ((desk.commit "desk" ann .none .asKept).1.run later, .error noActiveTransaction) := by
  refine commits_once desk ?_ (fun call hc storage owner now heq => ?_) ann _
  · have hok : (desk.commit "desk" ann .none .asKept).2.toOption = some () := by decide +kernel
    cases hr : (desk.commit "desk" ann .none .asKept).2 with
    | ok u => rfl
    | error e =>
      rw [hr] at hok
      cases hok
  · rcases List.mem_pair.mp hc with rfl | rfl <;> cases heq

theorem bob_leaves : ∃ session, desk.sessions "desk" = some session ∧
    (desk.run [.commit "desk" bob .none .asKept, .cleanupTimedOut 302]).sessions "desk" =
      some session := by
  obtain ⟨session, h⟩ := desk_there
  have howner : (desk.sessions "desk").map (·.owner) = some ann := by decide +kernel
  have hidle : (desk.sessions "desk").map (·.lastActivity) = some 2 := by decide +kernel
  rw [h] at howner hidle
  replace howner : session.owner = ann := Option.some.inj howner
  replace hidle : session.lastActivity = 2 := Option.some.inj hidle
  refine ⟨session, h, (others_leave desk h fun call hcall => ?_).1⟩
  rcases List.mem_pair.mp hcall with rfl | rfl
  · intro _ heq
    rw [howner] at heq
    exact absurd heq (by decide)
  · show 302 ≤ session.lastActivity + 300
    rw [hidle]

end Desks

end StellarDb
