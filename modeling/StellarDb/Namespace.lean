import StellarDb.Lib.Run
import StellarDb.Schema

/-!
# StellarDb — the namespace (`namespace/mod.rs`)

A namespace has the names of its databases (`known`) and the open instances (`databases`), each
behind a lock of its own. `create_database` and `drop_database` hold `known` for writing all the
time; `get_database` lets go of `known` before it takes `databases`, and then opens the directory
of a name that may have been dropped in between.

A lock that is held for writing over several steps is modelled with what its holder has still to
do: at most one call is past `known.write()` (`writer`), and at most one past `databases.write()`
with a directory to open (`opener`). Reading under a lock is one step, which waits for the writer.
-/

namespace StellarDb

open Runs

/-! ## Calls -/

inductive NamespaceCall where
  | getDatabase (name : String)
  | createDatabase (name : String)
  | dropDatabase (name : String)
  deriving DecidableEq

/-- Where a call is that holds no lock: before the lock named, or done. -/
inductive NamespacePoint where
  /-- `get_database` before `databases.read()` -/
  | looking (name : String)
  /-- `get_database` before `known.read()` -/
  | checking (name : String)
  /-- `get_database` before `databases.write()` -/
  | caching (name : String)
  /-- `create_database` before `known.write()` -/
  | creating (name : String)
  /-- `drop_database` before `known.write()` -/
  | dropping (name : String)
  /-- The call holds a lock. -/
  | inside
  | returned
  deriving DecidableEq

/-- Where the holder of `known.write()` is. -/
inductive WriterPoint where
  /-- before `create_dir_all` -/
  | making (name : String)
  /-- before `Database::open` -/
  | opening (name : String)
  /-- before `databases.write()`, with the new instance -/
  | publishing (name : String) (db : Nat)
  /-- before `databases.write()` -/
  | forgetting (name : String)
  /-- before `remove_dir_all` -/
  | deleting (name : String)
  deriving DecidableEq

namespace WriterPoint

/-- The database whose new instance is not published yet. -/
def publishes : WriterPoint → Option String
  | .publishing name _ => some name
  | _ => none

/-- The database that is not known, or not any more. -/
def adds : WriterPoint → Option String
  | .making name | .opening name | .deleting name => some name
  | _ => none

/-- The database that is known. -/
def keeps : WriterPoint → Option String
  | .publishing name _ | .forgetting name => some name
  | _ => none

/-- The database that is not known, and has a directory. -/
def leaves : WriterPoint → Option String
  | .opening name | .deleting name => some name
  | _ => none

end WriterPoint

/-- What began and ended, the end of a call with its answer. -/
inductive NamespaceEvent where
  | started (i : Nat) (call : NamespaceCall)
  | failed (i : Nat) (call : NamespaceCall) (e : StorageError)
  | got (i : Nat) (name : String) (db : Nat)
  | created (i : Nat) (name : String) (db : Nat)
  | dropped (i : Nat) (name : String)

structure NamespaceSystem where
  known : Finset String
  databases : String → Option Nat
  directories : Finset String
  writer : Option (Nat × WriterPoint)
  opener : Option (Nat × String)
  /-- The next instance that is opened. -/
  next : Nat
  calls : Nat → Option NamespacePoint
  /-- The last event first. -/
  events : List NamespaceEvent

/-- What the file system and the storage engine answer. A failing `Database::open` may have made
the directory. -/
inductive FileAnswer where
  | ok
  | failed (e : StorageError) (made : Bool)
  deriving DecidableEq

inductive NamespaceAct where
  | call (i : Nat) (call : NamespaceCall)
  /-- A call without a lock goes on. -/
  | move (i : Nat)
  /-- The holder of `known.write()` goes on. -/
  | write (answer : FileAnswer)
  /-- The holder of `databases.write()` opens the directory. -/
  | openDb (answer : FileAnswer)
  deriving DecidableEq

namespace NamespaceSystem

/-- A namespace as it is opened: the names are those of the directories. -/
def opened (names : Finset String) : NamespaceSystem :=
  ⟨names, fun _ => none, names, none, none, 0, fun _ => none, []⟩

def notFound (name : String) : StorageError := .notFound ("Database '" ++ name ++ "' not found")

def goto (s : NamespaceSystem) (i : Nat) (p : NamespacePoint) : NamespaceSystem :=
  { s with calls := Function.update s.calls i (some p) }

/-- A call returns. -/
def finish (s : NamespaceSystem) (i : Nat) (e : NamespaceEvent) : NamespaceSystem :=
  { s.goto i .returned with events := e :: s.events }

def fail (s : NamespaceSystem) (i : Nat) (call : NamespaceCall) (e : StorageError) :
    NamespaceSystem := s.finish i (.failed i call e)

/-- Up to the first lock. -/
def start (s : NamespaceSystem) (i : Nat) (call : NamespaceCall) : NamespaceSystem :=
  match call with
  | .getDatabase name => s.goto i (.looking name)
  | .createDatabase name =>
    match validateName "database" name with
    | .error e => s.fail i call e
    | .ok () => s.goto i (.creating name)
  | .dropDatabase name =>
    match validateName "database" name with
    | .error e => s.fail i call e
    | .ok () =>
      if name = "_system" then
        s.fail i call (.invalidOperation "Cannot drop system database '_system'")
      else s.goto i (.dropping name)

/-- The next lock of a call, if it is free, and the code under it. -/
def move (s : NamespaceSystem) (i : Nat) : NamespacePoint → NamespaceSystem
  | .looking name =>
    if s.opener.isSome then s
    else
      match s.databases name with
      | some db => s.finish i (.got i name db)
      | none =>
        match validateName "database" name with
        | .error e => s.fail i (.getDatabase name) e
        | .ok () => s.goto i (.checking name)
  | .checking name =>
    if s.writer.isSome then s
    else if name ∈ s.known then s.goto i (.caching name)
    else s.fail i (.getDatabase name) (notFound name)
  | .caching name =>
    if s.opener.isSome then s
    else
      match s.databases name with
      | some db => s.finish i (.got i name db)
      | none => ({ s with opener := some (i, name) } : NamespaceSystem).goto i .inside
  | .creating name =>
    if s.writer.isSome then s
    else if name ∈ s.known then
      s.fail i (.createDatabase name) (.alreadyExists ("Database '" ++ name ++ "'"))
    else ({ s with writer := some (i, .making name) } : NamespaceSystem).goto i .inside
  | .dropping name =>
    if s.writer.isSome then s
    else if name ∈ s.known then
      ({ s with writer := some (i, .forgetting name) } : NamespaceSystem).goto i .inside
    else s.fail i (.dropDatabase name) (notFound name)
  | .inside | .returned => s

/-- The holder of `known.write()` lets go of it. -/
def unlock (s : NamespaceSystem) : NamespaceSystem := { s with writer := none }

/-- The next step under `known.write()`. -/
def write (s : NamespaceSystem) (i : Nat) (answer : FileAnswer) : WriterPoint → NamespaceSystem
  | .making name =>
    match answer with
    | .ok =>
      { s with directories := insert name s.directories, writer := some (i, .opening name) }
    | .failed e _ => s.unlock.fail i (.createDatabase name) e
  | .opening name =>
    match answer with
    | .ok =>
      { s with
        known := insert name s.known
        next := s.next + 1
        writer := some (i, .publishing name s.next) }
    | .failed e _ => s.unlock.fail i (.createDatabase name) e
  | .publishing name db =>
    if s.opener.isSome then s
    else
      ({ s with databases := Function.update s.databases name (some db) } : NamespaceSystem).unlock
        |>.finish i (.created i name db)
  | .forgetting name =>
    if s.opener.isSome then s
    else
      { s with
        databases := Function.update s.databases name none
        known := s.known.erase name
        writer := some (i, .deleting name) }
  | .deleting name =>
    match answer with
    | .ok =>
      ({ s with directories := s.directories.erase name } : NamespaceSystem).unlock
        |>.finish i (.dropped i name)
    | .failed e _ => s.unlock.fail i (.dropDatabase name) e

/-- `Database::open` under `databases.write()`. -/
def openDb (s : NamespaceSystem) (i : Nat) (name : String) (answer : FileAnswer) :
    NamespaceSystem :=
  match answer with
  | .ok =>
    ({ s with
      databases := Function.update s.databases name (some s.next)
      directories := insert name s.directories
      next := s.next + 1
      opener := none } : NamespaceSystem).finish i (.got i name s.next)
  | .failed e made =>
    ({ s with
      directories := if made then insert name s.directories else s.directories
      opener := none } : NamespaceSystem).fail i (.getDatabase name) e

def step (s : NamespaceSystem) : NamespaceAct → NamespaceSystem
  | .call i call =>
    match s.calls i with
    | some _ => s
    | none => ({ s with events := .started i call :: s.events } : NamespaceSystem).start i call
  | .move i =>
    match s.calls i with
    | some p => s.move i p
    | none => s
  | .write answer =>
    match s.writer with
    | some (i, p) => s.write i answer p
    | none => s
  | .openDb answer =>
    match s.opener with
    | some (i, name) => s.openDb i name answer
    | none => s

def run (s : NamespaceSystem) (acts : List NamespaceAct) : NamespaceSystem := acts.foldl step s

end NamespaceSystem

/-! ## What a quiet namespace is to look like -/

/-- The instances of a database that calls returned since it was last created. -/
def handedOut (name : String) : List NamespaceEvent → List Nat
  | [] => []
  | .created _ n db :: events => if n = name then [db] else handedOut name events
  | .got _ n db :: events => if n = name then db :: handedOut name events else handedOut name events
  | _ :: events => handedOut name events

/-- The database was dropped, and not created since. -/
def isGone (name : String) : List NamespaceEvent → Bool
  | [] => false
  | .created _ n _ :: events => n ≠ name && isGone name events
  | .dropped _ n :: events => n = name || isGone name events
  | _ :: events => isGone name events

/-- A `get_database` that started after a `drop_database` had returned succeeded, and the database
was not created in between. -/
def Resurrected (name : String) (events : List NamespaceEvent) : Prop :=
  ∃ later between before earlier i j db,
    events = later ++ .got i name db :: (between ++ .started i (.getDatabase name) ::
      (before ++ .dropped j name :: earlier)) ∧
    ∀ k db', .created k name db' ∉ between ++ before

/-- Every answer of a `get_database` came while its database was there. -/
def Alive (events : List NamespaceEvent) : Prop :=
  ∀ later i name db earlier, events = later ++ .got i name db :: earlier →
    isGone name earlier = false

/-- The event says nothing of instances. -/
def NamespaceEvent.isSilent : NamespaceEvent → Bool
  | .started _ _ | .failed _ _ _ => true
  | _ => false

namespace NamespaceSystem

variable (s : NamespaceSystem)

/-- No call is in progress. -/
def Quiet : Prop :=
  s.writer = none ∧ s.opener = none ∧ ∀ i p, s.calls i = some p → p = .returned

structure Consistent : Prop where
  cached : ∀ name db, s.databases name = some db → name ∈ s.known
  directories : s.known = s.directories
  single : ∀ name, ∀ db ∈ handedOut name s.events, ∀ db' ∈ handedOut name s.events, db = db'
  gone : ∀ name, ¬Resurrected name s.events

/-- The database is known, and no `create_database` is about to publish another instance. -/
def Settled (name : String) : Prop :=
  name ∈ s.known ∧ s.writer.bind (·.2.publishes) ≠ some name

/-- A `get_database` opens a directory only while the database is settled, as it was when the call
looked the name up. `Database::open` succeeds for `create_database`, and `drop_database` can remove
the directory. -/
def Timely (s : NamespaceSystem) : NamespaceAct → Prop
  | .openDb answer =>
    ∀ i name, s.opener = some (i, name) → (∃ e, answer = .failed e false) ∨ s.Settled name
  | .write answer =>
    (∀ i name, s.writer = some (i, .opening name) ∨ s.writer = some (i, .deleting name) →
      answer = .ok)
  | _ => True

/-! ## The invariant -/

/-- The locks, the names, the instances and the directories. -/
structure Stored : Prop where
  cached : ∀ name db, s.databases name = some db → s.Settled name
  missing : ∀ i name, s.opener = some (i, name) → s.databases name = none
  unknown : ∀ name, s.writer.bind (·.2.adds) = some name → name ∉ s.known
  kept : ∀ name, s.writer.bind (·.2.keeps) = some name → name ∈ s.known
  directories : ∀ name, name ∈ s.directories ↔
    name ∈ s.known ∨ s.writer.bind (·.2.leaves) = some name

/-- What the events say of the instances. -/
structure Told : Prop where
  handed : ∀ name, s.Settled name → ∀ db ∈ handedOut name s.events, s.databases name = some db
  single : ∀ name, ∀ db ∈ handedOut name s.events, ∀ db' ∈ handedOut name s.events, db = db'
  gone : ∀ name, isGone name s.events = true → ¬s.Settled name
  alive : Alive s.events

structure Inv : Prop where
  stored : s.Stored
  told : s.Told

variable {s} {i : Nat} {name : String} {db : Nat}

theorem Inv.goto (h : s.Inv) (p : NamespacePoint) : (s.goto i p).Inv :=
  ⟨⟨h.stored.cached, h.stored.missing, h.stored.unknown, h.stored.kept,
      h.stored.directories⟩,
    ⟨h.told.handed, h.told.single, h.told.gone, h.told.alive⟩⟩

/-! ### Events -/

theorem handedOut_silent {e : NamespaceEvent} (he : e.isSilent = true)
    (events : List NamespaceEvent) : handedOut name (e :: events) = handedOut name events := by
  cases e <;> first | rfl | cases he

theorem isGone_silent {e : NamespaceEvent} (he : e.isSilent = true)
    (events : List NamespaceEvent) : isGone name (e :: events) = isGone name events := by
  cases e <;> first | rfl | cases he

theorem Alive.cons {events : List NamespaceEvent} (h : Alive events) {e : NamespaceEvent}
    (he : ∀ i name db, e = .got i name db → isGone name events = false) : Alive (e :: events) := by
  intro later i name db earlier heq
  cases later with
  | nil =>
    obtain ⟨rfl, rfl⟩ := List.cons.inj heq
    exact he i name db rfl
  | cons first later => exact h later i name db earlier (List.cons.inj heq).2

theorem Inv.note (h : s.Inv) {e : NamespaceEvent} (he : e.isSilent = true) :
    ({ s with events := e :: s.events } : NamespaceSystem).Inv := by
  refine ⟨⟨h.stored.cached, h.stored.missing, h.stored.unknown, h.stored.kept,
      h.stored.directories⟩,
    ⟨?_, ?_, ?_, ?_⟩⟩
  · intro name hset db hdb
    rw [handedOut_silent he] at hdb
    exact h.told.handed name hset db hdb
  · intro name
    show ∀ db ∈ handedOut name (e :: s.events), _
    rw [handedOut_silent he]
    exact h.told.single name
  · intro name hgone
    rw [isGone_silent he] at hgone
    exact h.told.gone name hgone
  · exact Alive.cons h.told.alive (by rintro i name db rfl; cases he)

theorem Inv.fail (h : s.Inv) (call : NamespaceCall) (e : StorageError) : (s.fail i call e).Inv :=
  (h.goto .returned).note rfl

/-- A call returns the instance that is in the cache. -/
theorem Inv.got (h : s.Inv) (hdb : s.databases name = some db) :
    (s.finish i (.got i name db)).Inv := by
  have hset := h.stored.cached name db hdb
  have hall : ∀ db' ∈ handedOut name s.events, db' = db := fun db' hmem =>
    Option.some_inj.mp ((h.told.handed name hset db' hmem).symm.trans hdb)
  refine ⟨⟨h.stored.cached, h.stored.missing, h.stored.unknown, h.stored.kept,
      h.stored.directories⟩,
    ⟨?_, ?_, h.told.gone, ?_⟩⟩
  · intro n hn db' hmem
    rw [finish, handedOut] at hmem
    split at hmem
    · next heq =>
      subst heq
      rcases List.mem_cons.mp hmem with rfl | hmem
      · exact hdb
      · exact h.told.handed name hn db' hmem
    · exact h.told.handed n hn db' hmem
  · intro n
    show ∀ d ∈ handedOut n (.got i name db :: s.events),
      ∀ d' ∈ handedOut n (.got i name db :: s.events), d = d'
    rw [handedOut]
    split
    · next heq =>
      subst heq
      have hsame : ∀ d ∈ db :: handedOut name s.events, d = db :=
        List.forall_mem_cons.mpr ⟨rfl, hall⟩
      exact fun d hd d' hd' => (hsame d hd).trans (hsame d' hd').symm
    · exact h.told.single n
  · refine Alive.cons h.told.alive ?_
    rintro _ _ _ ⟨⟩
    exact Bool.eq_false_iff.mpr fun hgone => h.told.gone name hgone hset

/-! ### Steps of `get_database` -/

theorem Inv.enter (h : s.Inv) (hnone : s.databases name = none) :
    ({ s with opener := some (i, name) } : NamespaceSystem).Inv := by
  refine ⟨⟨h.stored.cached, ?_, h.stored.unknown, h.stored.kept,
      h.stored.directories⟩,
    ⟨h.told.handed, h.told.single, h.told.gone, h.told.alive⟩⟩
  rintro _ _ ⟨⟩
  exact hnone

/-- A settled database that is not open is opened. -/
theorem Inv.openDb_ok (h : s.Inv) (hopener : s.opener = some (i, name)) (hset : s.Settled name) :
    (s.openDb i name .ok).Inv := by
  have hnone := h.stored.missing i name hopener
  have hnobody : handedOut name s.events = [] := by
    rw [List.eq_nil_iff_forall_not_mem]
    intro db hdb
    have hsome := h.told.handed name hset db hdb
    rw [hnone] at hsome
    cases hsome
  have hdirs : insert name s.directories = s.directories :=
    Finset.insert_eq_of_mem ((h.stored.directories name).mpr (Or.inl hset.1))
  refine ⟨⟨?_, ?_, h.stored.unknown, h.stored.kept, ?_⟩, ⟨?_, ?_, h.told.gone, ?_⟩⟩
  · intro n db hdb
    by_cases heq : n = name
    · rw [heq]
      exact hset
    · exact h.stored.cached n db ((Function.update_of_ne heq _ _).symm.trans hdb)
  · intro _ _ hnot
    cases hnot
  · show ∀ n, n ∈ insert name s.directories ↔ _
    rw [hdirs]
    exact h.stored.directories
  · intro n hn db hdb
    show Function.update s.databases name (some s.next) n = some db
    replace hdb : db ∈ handedOut n (.got i name s.next :: s.events) := hdb
    rw [handedOut] at hdb
    split at hdb
    · next heq =>
      subst heq
      rw [hnobody, List.mem_singleton] at hdb
      rw [Function.update_self, hdb]
    · next hne =>
      rw [Function.update_of_ne (Ne.symm hne)]
      exact h.told.handed n hn db hdb
  · intro n
    show ∀ d ∈ handedOut n (.got i name s.next :: s.events),
      ∀ d' ∈ handedOut n (.got i name s.next :: s.events), d = d'
    rw [handedOut]
    split
    · next heq =>
      subst heq
      rw [hnobody]
      intro d hd d' hd'
      rw [List.mem_singleton.mp hd, List.mem_singleton.mp hd']
    · exact h.told.single n
  · refine Alive.cons h.told.alive ?_
    rintro _ _ _ ⟨⟩
    exact Bool.eq_false_iff.mpr fun hgone => h.told.gone name hgone hset

theorem Inv.openDb_failed (h : s.Inv) {e : StorageError} {made : Bool} (hset : made = false ∨ s.Settled name) :
    (s.openDb i name (.failed e made)).Inv := by
  have hdirs : (if made then insert name s.directories else s.directories) = s.directories := by
    rcases hset with rfl | hset
    · rfl
    · split
      · exact Finset.insert_eq_of_mem ((h.stored.directories name).mpr (Or.inl hset.1))
      · rfl
  have hclosed : ({ s with opener := none } : NamespaceSystem).Inv :=
    ⟨⟨h.stored.cached, nofun, h.stored.unknown, h.stored.kept,
      h.stored.directories⟩,
      ⟨h.told.handed, h.told.single, h.told.gone, h.told.alive⟩⟩
  rw [openDb, hdirs]
  exact hclosed.fail _ e

/-! ### Steps of `create_database` -/

theorem Inv.make (h : s.Inv) (hwriter : s.writer = none) (hname : name ∉ s.known) :
    ({ s with writer := some (i, .making name) } : NamespaceSystem).Inv := by
  obtain ⟨⟨hcached, hmissing, -, -, hdirs⟩, ⟨hhanded, hsingle, hgone, halive⟩⟩ := h
  simp only [Settled, hwriter] at hcached hhanded hgone hdirs
  refine ⟨⟨hcached, hmissing, ?_, nofun, hdirs⟩, ⟨hhanded, hsingle, hgone, halive⟩⟩
  rintro n ⟨⟩
  exact hname

theorem Inv.unlock_making (h : s.Inv) (hwriter : s.writer = some (i, .making name)) :
    s.unlock.Inv := by
  obtain ⟨⟨hcached, hmissing, -, -, hdirs⟩, ⟨hhanded, hsingle, hgone, halive⟩⟩ := h
  simp only [Settled, hwriter] at hcached hhanded hgone hdirs
  exact ⟨⟨hcached, hmissing, nofun, nofun, hdirs⟩, ⟨hhanded, hsingle, hgone, halive⟩⟩

theorem Inv.made (h : s.Inv) (hwriter : s.writer = some (i, .making name)) :
    (s.write i .ok (.making name)).Inv := by
  obtain ⟨⟨hcached, hmissing, hunknown, -, hdirs⟩, ⟨hhanded, hsingle, hgone, halive⟩⟩ := h
  simp only [Settled, hwriter] at hcached hhanded hgone hdirs hunknown
  refine ⟨⟨hcached, hmissing, hunknown, nofun, fun n => ?_⟩, ⟨hhanded, hsingle, hgone, halive⟩⟩
  show n ∈ insert name s.directories ↔ n ∈ s.known ∨ some name = some n
  rw [Finset.mem_insert, hdirs, Option.some_inj, @eq_comm _ name]
  simp [WriterPoint.leaves, or_comm]

/-- The new instance is not in the cache yet, so nobody is handed another one meanwhile. -/
theorem Inv.openedNew (h : s.Inv) (hwriter : s.writer = some (i, .opening name)) :
    (s.write i .ok (.opening name)).Inv := by
  obtain ⟨⟨hcached, hmissing, hunknown, -, hdirs⟩, ⟨hhanded, hsingle, hgone, halive⟩⟩ := h
  simp only [Settled, hwriter] at hcached hhanded hgone hdirs hunknown
  have hname : name ∉ s.known := hunknown name rfl
  -- settled are the same databases as before: the new one is known, and to be published
  have hset : ∀ n, Settled (s.write i .ok (.opening name)) n ↔ n ∈ s.known := by
    intro n
    show n ∈ insert name s.known ∧ some name ≠ some n ↔ _
    rw [Finset.mem_insert, Ne, Option.some_inj]
    constructor
    · rintro ⟨rfl | hn, hne⟩
      · exact absurd rfl hne
      · exact hn
    · intro hn
      exact ⟨Or.inr hn, fun heq => hname (heq ▸ hn)⟩
  refine ⟨⟨fun n db hdb => (hset n).mpr (hcached n db hdb).1, hmissing, nofun, ?_, fun n => ?_⟩,
    ⟨fun n hn => hhanded n ⟨(hset n).mp hn, nofun⟩, hsingle,
      fun n hn hn' => hgone n hn ⟨(hset n).mp hn', nofun⟩, halive⟩⟩
  · rintro n ⟨⟩
    exact Finset.mem_insert_self _ _
  · show n ∈ s.directories ↔ n ∈ insert name s.known ∨ none = some n
    rw [hdirs, Finset.mem_insert]
    show n ∈ s.known ∨ some name = some n ↔ _
    rw [Option.some_inj]
    simp [or_comm, eq_comm]

theorem Inv.published (h : s.Inv) (hwriter : s.writer = some (i, .publishing name db))
    (hopener : s.opener = none) (answer : FileAnswer) :
    (s.write i answer (.publishing name db)).Inv := by
  obtain ⟨⟨hcached, -, -, hkept, hdirs⟩, ⟨hhanded, hsingle, hgone, halive⟩⟩ := h
  simp only [Settled, hwriter] at hcached hhanded hgone hdirs hkept
  have hname : name ∈ s.known := hkept name rfl
  have hother : ∀ {n}, n ≠ name → (Option.bind (some (i, WriterPoint.publishing name db))
      (·.2.publishes)) ≠ some n := fun hne heq => hne (Option.some_inj.mp heq).symm
  have hwrite : s.write i answer (.publishing name db) =
      (({ s with databases := Function.update s.databases name (some db) } : NamespaceSystem).unlock
        |>.finish i (.created i name db)) := by
    rw [write, hopener]
    rfl
  rw [hwrite]
  refine ⟨⟨?_, ?_, nofun, nofun, hdirs⟩, ⟨?_, ?_, ?_, ?_⟩⟩
  · intro n d hd
    by_cases heq : n = name
    · exact ⟨heq ▸ hname, nofun⟩
    · exact ⟨(hcached n d ((Function.update_of_ne heq _ _).symm.trans hd)).1, nofun⟩
  · intro j n hn
    replace hn : s.opener = some (j, n) := hn
    rw [hopener] at hn
    cases hn
  · intro n hn d hd
    show Function.update s.databases name (some db) n = some d
    replace hd : d ∈ handedOut n (.created i name db :: s.events) := hd
    rw [handedOut] at hd
    split at hd
    · next heq => rw [heq, Function.update_self, List.mem_singleton.mp hd]
    · next hne =>
      rw [Function.update_of_ne (Ne.symm hne)]
      exact hhanded n ⟨hn.1, hother (Ne.symm hne)⟩ d hd
  · intro n
    show ∀ d ∈ handedOut n (.created i name db :: s.events),
      ∀ d' ∈ handedOut n (.created i name db :: s.events), d = d'
    rw [handedOut]
    split
    · intro d hd d' hd'
      rw [List.mem_singleton.mp hd, List.mem_singleton.mp hd']
    · exact hsingle n
  · intro n hn hset
    replace hn : (name ≠ n && isGone n s.events) = true := hn
    rw [Bool.and_eq_true, decide_eq_true_eq] at hn
    exact hgone n hn.2 ⟨hset.1, hother (Ne.symm hn.1)⟩
  · exact Alive.cons halive nofun

/-! ### Steps of `drop_database` -/

theorem Inv.forget (h : s.Inv) (hwriter : s.writer = none) (hname : name ∈ s.known) :
    ({ s with writer := some (i, .forgetting name) } : NamespaceSystem).Inv := by
  obtain ⟨⟨hcached, hmissing, -, -, hdirs⟩, ⟨hhanded, hsingle, hgone, halive⟩⟩ := h
  simp only [Settled, hwriter] at hcached hhanded hgone hdirs
  refine ⟨⟨hcached, hmissing, nofun, ?_, hdirs⟩, ⟨hhanded, hsingle, hgone, halive⟩⟩
  rintro n ⟨⟩
  exact hname

theorem Inv.forgotten (h : s.Inv) (hwriter : s.writer = some (i, .forgetting name))
    (hopener : s.opener = none) (answer : FileAnswer) :
    (s.write i answer (.forgetting name)).Inv := by
  obtain ⟨⟨hcached, -, -, hkept, hdirs⟩, ⟨hhanded, hsingle, hgone, halive⟩⟩ := h
  simp only [Settled, hwriter] at hcached hhanded hgone hdirs hkept
  have hname : name ∈ s.known := hkept name rfl
  have hwrite : s.write i answer (.forgetting name) = { s with
      databases := Function.update s.databases name none
      known := s.known.erase name
      writer := some (i, .deleting name) } := by
    rw [write, hopener]
    rfl
  rw [hwrite]
  refine ⟨⟨?_, ?_, ?_, nofun, ?_⟩, ⟨?_, hsingle, ?_, halive⟩⟩
  · intro n d hd
    replace hd : Function.update s.databases name none n = some d := hd
    by_cases heq : n = name
    · rw [heq, Function.update_self] at hd
      cases hd
    · rw [Function.update_of_ne heq] at hd
      exact ⟨Finset.mem_erase.mpr ⟨heq, (hcached n d hd).1⟩, nofun⟩
  · intro j n hn
    replace hn : s.opener = some (j, n) := hn
    rw [hopener] at hn
    cases hn
  · rintro n ⟨⟩
    exact Finset.notMem_erase _ _
  · intro n
    show n ∈ s.directories ↔ n ∈ s.known.erase name ∨ some name = some n
    rw [hdirs, Finset.mem_erase, Option.some_inj]
    show n ∈ s.known ∨ none = some n ↔ _
    constructor
    · rintro (hn | ⟨⟨⟩⟩)
      by_cases heq : name = n
      · exact Or.inr heq
      · exact Or.inl ⟨Ne.symm heq, hn⟩
    · rintro (⟨-, hn⟩ | rfl)
      · exact Or.inl hn
      · exact Or.inl hname
  · intro n hn d hd
    show Function.update s.databases name none n = some d
    rw [Function.update_of_ne (Finset.ne_of_mem_erase hn.1)]
    exact hhanded n ⟨Finset.mem_of_mem_erase hn.1, nofun⟩ d hd
  · intro n hn hset
    exact hgone n hn ⟨Finset.mem_of_mem_erase hset.1, nofun⟩

theorem Inv.deleted (h : s.Inv) (hwriter : s.writer = some (i, .deleting name)) :
    (s.write i .ok (.deleting name)).Inv := by
  obtain ⟨⟨hcached, hmissing, hunknown, -, hdirs⟩, ⟨hhanded, hsingle, hgone, halive⟩⟩ := h
  simp only [Settled, hwriter] at hcached hhanded hgone hdirs hunknown
  have hname : name ∉ s.known := hunknown name rfl
  refine ⟨⟨hcached, hmissing, nofun, nofun, ?_⟩, ⟨hhanded, hsingle, ?_, Alive.cons halive nofun⟩⟩
  · intro n
    show n ∈ s.directories.erase name ↔ n ∈ s.known ∨ none = some n
    rw [Finset.mem_erase, hdirs]
    show n ≠ name ∧ (n ∈ s.known ∨ some name = some n) ↔ _
    constructor
    · rintro ⟨hne, hn | heq⟩
      · exact Or.inl hn
      · exact absurd (Option.some_inj.mp heq).symm hne
    · rintro (hn | ⟨⟨⟩⟩)
      exact ⟨fun heq => hname (heq ▸ hn), Or.inl hn⟩
  · intro n hn hset
    replace hn : (name = n || isGone n s.events) = true := hn
    rw [Bool.or_eq_true, decide_eq_true_eq] at hn
    rcases hn with heq | hn
    · exact hname (heq ▸ hset.1)
    · exact hgone n hn ⟨hset.1, nofun⟩

/-! ### All steps -/

theorem Inv.start (h : s.Inv) (call : NamespaceCall) : (s.start i call).Inv := by
  cases call with
  | getDatabase name => exact h.goto _
  | createDatabase name =>
    rw [NamespaceSystem.start]
    split
    · exact h.fail _ _
    · exact h.goto _
  | dropDatabase name =>
    rw [NamespaceSystem.start]
    split
    · exact h.fail _ _
    · split
      · exact h.fail _ _
      · exact h.goto _

theorem Inv.move (h : s.Inv) (p : NamespacePoint) : (s.move i p).Inv := by
  cases p with
  | looking name =>
    rw [NamespaceSystem.move]
    split
    · exact h
    · split
      · next db hdb => exact h.got hdb
      · split
        · exact h.fail _ _
        · exact h.goto _
  | checking name =>
    rw [NamespaceSystem.move]
    split
    · exact h
    · split
      · exact h.goto _
      · exact h.fail _ _
  | caching name =>
    rw [NamespaceSystem.move]
    split
    · exact h
    · split
      · next db hdb => exact h.got hdb
      · next hnone => exact (h.enter hnone).goto _
  | creating name =>
    rw [NamespaceSystem.move]
    split
    · exact h
    · next hfree =>
      split
      · exact h.fail _ _
      · next hname => exact (h.make (Option.not_isSome_iff_eq_none.mp hfree) hname).goto _
  | dropping name =>
    rw [NamespaceSystem.move]
    split
    · exact h
    · next hfree =>
      split
      · next hname => exact (h.forget (Option.not_isSome_iff_eq_none.mp hfree) hname).goto _
      · exact h.fail _ _
  | inside => exact h
  | returned => exact h

theorem Inv.write (h : s.Inv) {p : WriterPoint} (hwriter : s.writer = some (i, p))
    {answer : FileAnswer} (htimely : s.Timely (.write answer)) : (s.write i answer p).Inv := by
  cases p with
  | making name =>
    cases answer with
    | ok => exact h.made hwriter
    | failed e made => exact (h.unlock_making hwriter).fail _ e
  | opening name =>
    rw [htimely i name (Or.inl hwriter)]
    exact h.openedNew hwriter
  | publishing name db =>
    cases hopener : s.opener with
    | none => exact h.published hwriter hopener answer
    | some o =>
      rw [NamespaceSystem.write, hopener]
      exact h
  | forgetting name =>
    cases hopener : s.opener with
    | none => exact h.forgotten hwriter hopener answer
    | some o =>
      rw [NamespaceSystem.write, hopener]
      exact h
  | deleting name =>
    rw [htimely i name (Or.inr hwriter)]
    exact h.deleted hwriter

/-- A timely step keeps the invariant. -/
theorem Inv.step (h : s.Inv) {a : NamespaceAct} (htimely : s.Timely a) : (s.step a).Inv := by
  cases a with
  | call i call =>
    rw [NamespaceSystem.step]
    split
    · exact h
    · exact (h.note rfl).start call
  | move i =>
    rw [NamespaceSystem.step]
    split
    · next p _ => exact h.move p
    · exact h
  | write answer =>
    rw [NamespaceSystem.step]
    split
    · next i p hwriter => exact h.write hwriter htimely
    · exact h
  | openDb answer =>
    rw [NamespaceSystem.step]
    split
    · next i name hopener =>
      cases answer with
      | ok =>
        rcases htimely i name hopener with ⟨e, he⟩ | hset
        · cases he
        · exact h.openDb_ok hopener hset
      | failed e made =>
        rcases htimely i name hopener with ⟨e', he⟩ | hset
        · cases he
          exact h.openDb_failed (Or.inl rfl)
        · exact h.openDb_failed (Or.inr hset)
    · exact h

theorem opened_inv (names : Finset String) : (opened names).Inv := by
  refine ⟨⟨nofun, nofun, nofun, nofun, fun n => ?_⟩, ⟨nofun, nofun, nofun, ?_⟩⟩
  · show n ∈ names ↔ n ∈ names ∨ none = some n
    simp
  · intro later _ _ _ _ heq
    exact absurd heq.symm (List.append_ne_nil_of_right_ne_nil _ (List.cons_ne_nil _ _))

end NamespaceSystem

/-- A database that is dropped and not created is gone. -/
theorem isGone_of_dropped {name : String} {j : Nat} {before earlier : List NamespaceEvent}
    (h : ∀ k db, .created k name db ∉ before) :
    isGone name (before ++ .dropped j name :: earlier) = true := by
  induction before with
  | nil =>
    show (decide (name = name) || isGone name earlier) = true
    rw [decide_eq_true rfl, Bool.true_or]
  | cons e before ih =>
    have ih := ih fun k db hmem => h k db (List.mem_cons_of_mem _ hmem)
    cases e with
    | created k n db =>
      show (decide (n ≠ name) && isGone name (before ++ _)) = true
      rw [ih, Bool.and_true, decide_eq_true_eq]
      rintro rfl
      exact h k db List.mem_cons_self
    | dropped k n =>
      show (decide (n = name) || isGone name (before ++ _)) = true
      rw [ih, Bool.or_true]
    | _ => exact ih

theorem not_resurrected {events : List NamespaceEvent} (h : Alive events) (name : String) :
    ¬Resurrected name events := by
  rintro ⟨later, between, before, earlier, i, j, db, rfl, hnot⟩
  have halive := h later i name db _ rfl
  have hgone : isGone name ((between ++ .started i (.getDatabase name) :: before) ++
      .dropped j name :: earlier) = true := by
    refine isGone_of_dropped fun k db' hmem => hnot k db' ?_
    rcases List.mem_append.mp hmem with hmem | hmem
    · exact List.mem_append_left _ hmem
    · rcases List.mem_cons.mp hmem with heq | hmem
      · cases heq
      · exact List.mem_append_right _ hmem
  rw [List.append_assoc, List.cons_append, halive] at hgone
  cases hgone

namespace NamespaceSystem

theorem Inv.consistent {s : NamespaceSystem} (h : s.Inv) (hquiet : s.Quiet) : s.Consistent where
  cached name db hdb := (h.stored.cached name db hdb).1
  directories := by
    ext name
    rw [h.stored.directories, hquiet.1]
    exact (or_iff_left nofun).symm
  single := h.told.single
  gone := not_resurrected h.told.alive

/-- In every run of timely steps, the names, the instances and the directories agree whenever no
call is in progress, no database has two instances, and no dropped database comes back. -/
theorem namespace_consistent (names : Finset String) {acts : List NamespaceAct}
    (hmeets : Meets step Timely (opened names) acts) :
    ∀ done, done <+: acts → Quiet (run (opened names) done) →
      Consistent (run (opened names) done) := fun done hdone hquiet =>
  (foldl_invariant Inv (fun _ _ h htimely => h.step htimely) (opened_inv names) hmeets done
    hdone).consistent hquiet

end NamespaceSystem

namespace Shops

open NamespaceSystem

def names : Finset String := {"shop"}

theorem quiet_of_calls {s : NamespaceSystem} (n : Nat) (hwriter : s.writer = none)
    (hopener : s.opener = none) (hdone : ∀ i < n, s.calls i = some .returned)
    (hrest : ∀ i, s.calls (i + n) = none) : Quiet s := by
  refine ⟨hwriter, hopener, fun i p hp => ?_⟩
  rcases Nat.lt_or_ge i n with hlt | hge
  · exact Option.some_inj.mp (hp.symm.trans (hdone i hlt))
  · have hnone := hrest (i - n)
    rw [Nat.sub_add_cancel hge, hp] at hnone
    cases hnone

/-- The database is opened, and then dropped. -/
def orderly : List NamespaceAct :=
  [.call 0 (.getDatabase "shop"), .move 0, .move 0, .move 0, .openDb .ok,
    .call 1 (.dropDatabase "shop"), .move 1, .write .ok, .write .ok]

theorem orderly_consistent : NamespaceSystem.Consistent (run (opened names) orderly) := by
  have hmeets : Meets step Timely (opened names) orderly := by
    refine ⟨trivial, trivial, trivial, trivial, ?_, trivial, trivial, fun _ _ _ => rfl,
      fun _ _ _ => rfl, trivial⟩
    rintro i name hopener
    have hshop : (opened names |>.step (.call 0 (.getDatabase "shop")) |>.step (.move 0)
        |>.step (.move 0) |>.step (.move 0)).opener = some (0, "shop") := by decide +kernel
    rw [hshop] at hopener
    cases hopener
    exact Or.inr ⟨by decide +kernel, by decide +kernel⟩
  exact namespace_consistent names hmeets orderly (List.prefix_refl _)
    (quiet_of_calls 2 (by decide +kernel) (by decide +kernel) (by decide +kernel) fun _ => rfl)

/-- The database is dropped after one call has looked its name up; that call then makes the
directory again, and a later one is handed the instance. -/
def overtaken : List NamespaceAct :=
  [.call 0 (.getDatabase "shop"), .move 0, .move 0,
    .call 1 (.dropDatabase "shop"), .move 1, .write .ok, .write .ok,
    .move 0, .openDb .ok, .call 2 (.getDatabase "shop"), .move 2]

theorem overtaken_inconsistent : Quiet (run (opened names) overtaken) ∧
    (run (opened names) overtaken).databases "shop" = some 0 ∧
    "shop" ∉ (run (opened names) overtaken).known ∧
    Resurrected "shop" (run (opened names) overtaken).events ∧
    ¬NamespaceSystem.Consistent (run (opened names) overtaken) := by
  have hcached : (run (opened names) overtaken).databases "shop" = some 0 := by decide +kernel
  have hunknown : "shop" ∉ (run (opened names) overtaken).known := by decide +kernel
  refine ⟨?_, hcached, hunknown, ?_, fun h => hunknown (h.cached "shop" 0 hcached)⟩
  · exact quiet_of_calls 3 (by decide +kernel) (by decide +kernel) (by decide +kernel) fun _ => rfl
  · refine ⟨[], [], [.got 0 "shop" 0], [.started 1 (.dropDatabase "shop"),
      .started 0 (.getDatabase "shop")], 2, 1, 0, rfl, ?_⟩
    intro k db hmem
    rcases List.mem_singleton.mp hmem with ⟨⟩

end Shops

end StellarDb
