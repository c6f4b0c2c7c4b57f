import StellarDb.Batch.Documents
import StellarDb.Batch.Phases
import StellarDb.Lib.Run
import StellarDb.Lib.Serial
import StellarDb.Transaction.Commit

/-!
# StellarDb — transactions side by side (`transaction/types.rs`, `storage/database/batch.rs`)

A transaction reads through its buffer from storage and writes to its buffer; its writes may depend
on what it has read. Its commit is a batch: each operation is collapsed, each mutation is prepared,
and then one storage transaction has all writes. Steps of several transactions come in any order,
with one step for each read and write, each collapsed operation, each prepared mutation and the
storage transaction. The last is one step because it reads no document, so that the storage engine
finds no conflict between two of them; it may answer anything here.

A commit is like the whole transaction done at that moment if what it has read from storage is
still as it was read (`TxSystem.commits_serialized`). Nothing checks this, and an update can be lost
(`Registers.slip_lost`).
-/

namespace StellarDb

open Keyspaces Database Runs Serials

/-! ## Programs -/

/-- What a transaction does, as a function of what it has read. -/
inductive TxProgram where
  | get (collection key : String) (next : Option Document → TxProgram)
  | insert (doc : Document) (next : TxProgram)
  | update (doc : Document) (next : TxProgram)
  | delete (collection key : String) (next : TxProgram)
  | commit

/-- The documents there are. -/
abbrev Contents := String → String → Option Document

def Database.contents (db : Database) : Contents := fun c k => db.getDocument c (utf8 k)

namespace Transaction

/-- `get` with given stored documents. -/
def getFrom (tx : Transaction) (stored : Contents) (collection key : String) :
    Except TransactionError (Option Document) := do
  tx.ensureActive
  match tx.pendingWrites.lookup (encodeDocKey collection key) with
  | some (.insert doc) => return some doc
  | some .delete => return none
  | none => return stored collection key

theorem get_eq_getFrom (tx : Transaction) (db : Database) (c k : String) :
    tx.get db c k = tx.getFrom db.contents c k := rfl

end Transaction

namespace TxProgram

/-- The buffer at the end of a program that reads from given stored documents. -/
def replay (stored : Contents) : Transaction → TxProgram → Except TransactionError Transaction
  | tx, .get c k next => tx.getFrom stored c k >>= fun doc => replay stored tx (next doc)
  | tx, .insert doc next => tx.insert doc >>= fun tx => replay stored tx next
  | tx, .update doc next => tx.update doc >>= fun tx => replay stored tx next
  | tx, .delete c k next => tx.delete c k >>= fun tx => replay stored tx next
  | tx, .commit => .ok tx

/-- What a transaction that succeeds makes of the documents when it is alone. -/
def effect (order : IterOrder) (p : TxProgram) (stored : Contents) : Contents :=
  match p.replay stored .new >>= fun tx => tx.ops order with
  | .ok ops => fun c k => docAfter ops c k (stored c k)
  | .error _ => stored

end TxProgram

/-! ## Steps -/

/-- A read that the buffer did not answer. -/
structure StorageRead where
  collection : String
  key : String
  result : Option Document

/-- Where a transaction is. -/
inductive TxPoint where
  | running (tx : Transaction) (rest : TxProgram)
  | collapsing (rest : List WriteOp) (st : Collapsed)
  | preparing (st : Collapsed) (rest : List PendingDocMutation) (prepared : PreparedBatch)
  | committed
  | failed (e : TransactionError)

/-- A transaction, with what it has read from storage so far. -/
structure TxCall where
  point : TxPoint
  reads : List StorageRead

def TxCall.start (p : TxProgram) : TxCall := ⟨.running .new p, []⟩

/-- A step of one transaction, with what the storage engine answers. -/
structure TxAct (ι : Type) where
  who : ι
  faults : Faults
  batch : BatchFaults

structure TxSystem (ι : Type) where
  db : Database
  calls : ι → TxCall
  /-- The order in which a transaction's hash maps are read. -/
  orders : ι → IterOrder

namespace TxSystem

variable {ι : Type} [DecidableEq ι]

/-- A transaction goes on, with one more read of storage or none. -/
def goto (s : TxSystem ι) (i : ι) (db : Database) (point : TxPoint)
    (read : Option StorageRead) : TxSystem ι :=
  { s with
    db := db
    calls := Function.update s.calls i ⟨point, (s.calls i).reads ++ read.toList⟩ }

/-- After a write to the buffer. -/
def buffered (s : TxSystem ι) (i : ι) (next : TxProgram) :
    Except TransactionError Transaction → TxSystem ι
  | .ok tx => s.goto i s.db (.running tx next) none
  | .error e => s.goto i s.db (.failed e) none

/-- The read of storage that a `get` makes. -/
def readOf (s : TxSystem ι) (tx : Transaction) (c k : String) : Option StorageRead :=
  match tx.pendingWrites.lookup (encodeDocKey c k) with
  | some _ => none
  | none => some ⟨c, k, s.db.contents c k⟩

variable [External]

def step (s : TxSystem ι) (a : TxAct ι) : TxSystem ι :=
  match (s.calls a.who).point with
  | .running tx (.get c k next) =>
    match tx.get s.db c k with
    | .ok doc => s.goto a.who s.db (.running tx (next doc)) (s.readOf tx c k)
    | .error e => s.goto a.who s.db (.failed e) none
  | .running tx (.insert doc next) => s.buffered a.who next (tx.insert doc)
  | .running tx (.update doc next) => s.buffered a.who next (tx.update doc)
  | .running tx (.delete c k next) => s.buffered a.who next (tx.delete c k)
  | .running tx .commit =>
    match tx.ops (s.orders a.who) with
    | .error e => s.goto a.who s.db (.failed e) none
    | .ok [] => s.goto a.who s.db .committed none
    | .ok ops => s.goto a.who s.db (.collapsing ops ⟨[], [], []⟩) none
  | .collapsing (op :: rest) st =>
    match s.db.collapseOp a.faults st op with
    | (db, .ok st) => s.goto a.who db (.collapsing rest st) none
    | (db, .error e) => s.goto a.who db (.failed (.storage e)) none
  | .collapsing [] st => s.goto a.who s.db (.preparing st st.mutations ⟨[], []⟩) none
  | .preparing st (m :: rest) prepared =>
    match s.db.prepareMutation a.faults prepared m with
    | (db, .ok prepared) => s.goto a.who db (.preparing st rest prepared) none
    | (db, .error e) => s.goto a.who db (.failed (.storage e)) none
  | .preparing st [] prepared =>
    match s.db.commitBatch a.batch prepared st with
    | (db, .ok ()) => s.goto a.who db .committed none
    | (db, .error e) => s.goto a.who db (.failed (.storage e)) none
  | .committed => s
  | .failed _ => s

def run (s : TxSystem ι) (acts : List (TxAct ι)) : TxSystem ι := acts.foldl step s

omit [External] in
/-- All transactions at their beginning. -/
def start (db : Database) (orders : ι → IterOrder) (programs : ι → TxProgram) : TxSystem ι :=
  ⟨db, fun i => .start (programs i), orders⟩

omit [External] [DecidableEq ι] in
def Committed (s : TxSystem ι) (i : ι) : Prop := (s.calls i).point = .committed

/-! ## The condition -/

omit [External] [DecidableEq ι] in
/-- What the transaction has read is stored as it was read. -/
def ReadsFresh (s : TxSystem ι) (i : ι) : Prop :=
  ∀ r ∈ (s.calls i).reads, s.db.contents r.collection r.key = r.result

omit [External] [DecidableEq ι] in
/-- When a transaction commits, the documents that it has read are as they were read, and those it
deletes that its batch did not find are still not there. -/
def Fresh (s : TxSystem ι) (a : TxAct ι) : Prop :=
  match (s.calls a.who).point with
  | .running tx .commit => tx.ops (s.orders a.who) = .ok [] → s.ReadsFresh a.who
  | .preparing st [] _ => a.batch.commit = .committed → s.ReadsFresh a.who ∧
      ∀ m ∈ st.mutations, m.initialDoc = none → m.currentDoc = none →
        s.db.contents m.collection m.key = none
  | _ => True

end TxSystem

/-! ## What a transaction has done so far -/

/-- The transaction `p` is where it says, and on stored documents that agree with what it has read
it would be there too. -/
inductive Follows (order : IterOrder) (p : TxProgram) : TxCall → Prop where
  | running (tx rest reads)
      (hreplay : ∀ stored : Contents, (∀ r ∈ reads, stored r.collection r.key = r.result) →
        p.replay stored .new = rest.replay stored tx) :
      Follows order p ⟨.running tx rest, reads⟩
  | collapsing (tx done rest st reads) (hops : tx.ops order = .ok (done ++ rest))
      (hreplay : ∀ stored : Contents, (∀ r ∈ reads, stored r.collection r.key = r.result) →
        p.replay stored .new = .ok tx)
      (hnet : ∀ db, NetOf db done st) :
      Follows order p ⟨.collapsing rest st, reads⟩
  | preparing (tx ops st done rest prepared reads) (hops : tx.ops order = .ok ops)
      (hreplay : ∀ stored : Contents, (∀ r ∈ reads, stored r.collection r.key = r.result) →
        p.replay stored .new = .ok tx)
      (hnet : ∀ db, NetOf db ops st) (hsplit : st.mutations = done ++ rest)
      (hprepared : PreparedFrom done prepared) :
      Follows order p ⟨.preparing st rest prepared, reads⟩
  | committed (reads) : Follows order p ⟨.committed, reads⟩
  | failed (e reads) : Follows order p ⟨.failed e, reads⟩

theorem Follows.start (order : IterOrder) (p : TxProgram) : Follows order p (.start p) :=
  .running _ _ _ fun _ _ => rfl

/-- The effect of a transaction whose buffer is known. -/
theorem TxProgram.effect_of_ops {order : IterOrder} {p : TxProgram} {stored : Contents}
    {tx : Transaction} {ops : List WriteOp} (hreplay : p.replay stored .new = .ok tx)
    (hops : tx.ops order = .ok ops) :
    p.effect order stored = fun c k => docAfter ops c k (stored c k) := by
  have hbind : (p.replay stored .new >>= fun tx => tx.ops order) = .ok ops := by
    rw [hreplay]
    exact hops
  unfold effect
  rw [hbind]

namespace TxSystem

variable {ι : Type} [DecidableEq ι]

/-- The transactions that have committed account for all changes. -/
structure Accounted (programs : ι → TxProgram) (first : Contents) (s : TxSystem ι) : Prop where
  follows : ∀ i, Follows (s.orders i) (programs i) (s.calls i)
  serialized : Serialized (fun i => (programs i).effect (s.orders i)) s.Committed first s.db.contents

variable {programs : ι → TxProgram} {first : Contents} {s : TxSystem ι} {i : ι}

theorem goto_follows (hs : s.Accounted programs first) {db : Database} {point : TxPoint}
    {read : Option StorageRead}
    (h : Follows (s.orders i) (programs i) ⟨point, (s.calls i).reads ++ read.toList⟩) (j : ι) :
    Follows ((s.goto i db point read).orders j) (programs j) ((s.goto i db point read).calls j) := by
  show Follows (s.orders j) (programs j) (Function.update s.calls i _ j)
  by_cases hj : j = i
  · subst hj
    rw [Function.update_self]
    exact h
  · rw [Function.update_of_ne hj]
    exact hs.follows j

theorem goto_committed_iff {db : Database} {point : TxPoint} {read : Option StorageRead} (j : ι) :
    (s.goto i db point read).Committed j ↔
      if j = i then point = .committed else s.Committed j := by
  show (Function.update s.calls i _ j).point = .committed ↔ _
  by_cases hj : j = i
  · subst hj
    rw [Function.update_self, if_pos rfl]
  · rw [Function.update_of_ne hj, if_neg hj]
    exact Iff.rfl

/-- A step that changes no document and does not commit. -/
theorem Accounted.goto_same (hs : s.Accounted programs first) (hopen : ¬s.Committed i)
    {db : Database} (hsame : SameDocuments s.db db) {point : TxPoint} {read : Option StorageRead}
    (h : Follows (s.orders i) (programs i) ⟨point, (s.calls i).reads ++ read.toList⟩)
    (hpoint : point ≠ .committed) :
    (s.goto i db point read).Accounted programs first where
  follows := goto_follows hs h
  serialized := by
    have hcontents : db.contents = s.db.contents := funext fun c => funext fun k => hsame c _
    show Serialized _ _ first db.contents
    rw [hcontents]
    refine hs.serialized.congr fun j => ?_
    rw [goto_committed_iff]
    split
    · next hj =>
      subst hj
      exact iff_of_false hpoint hopen
    · exact Iff.rfl

/-- A step that commits with the effect of the transaction. -/
theorem Accounted.goto_commit (hs : s.Accounted programs first) (hopen : ¬s.Committed i)
    {db : Database} (heffect : db.contents = (programs i).effect (s.orders i) s.db.contents) :
    (s.goto i db .committed none).Accounted programs first where
  follows := goto_follows hs (.committed _)
  serialized := by
    show Serialized _ _ first db.contents
    rw [heffect]
    refine hs.serialized.commit hopen fun j => ?_
    rw [goto_committed_iff]
    by_cases hj : j = i
    · rw [if_pos hj]
      exact iff_of_true rfl (Or.inr hj)
    · rw [if_neg hj]
      exact ⟨Or.inl, fun h => h.resolve_right hj⟩

omit [DecidableEq ι] in
/-- Stored documents that agree with the read give what the transaction got. -/
theorem getFrom_of_agrees {tx : Transaction} {c k : String} {doc : Option Document}
    (hget : tx.get s.db c k = .ok doc) {stored : Contents}
    (hagree : ∀ r ∈ (s.readOf tx c k).toList, stored r.collection r.key = r.result) :
    tx.getFrom stored c k = .ok doc := by
  rw [tx.get_eq_getFrom] at hget
  unfold Transaction.getFrom at hget ⊢
  unfold readOf at hagree
  cases hlookup : tx.pendingWrites.lookup (encodeDocKey c k) with
  | some w =>
    rw [hlookup] at hget
    cases w <;> exact hget
  | none =>
    rw [hlookup] at hget hagree
    have hstored : stored c k = s.db.contents c k := hagree _ (List.mem_singleton.mpr rfl)
    rw [hstored]
    exact hget

theorem Accounted.buffered (hs : s.Accounted programs first) (hopen : ¬s.Committed i)
    {next : TxProgram} {r : Except TransactionError Transaction}
    (hreplay : ∀ stored : Contents, (∀ q ∈ (s.calls i).reads, stored q.collection q.key = q.result) →
      (programs i).replay stored .new = r >>= fun tx => next.replay stored tx) :
    (s.buffered i next r).Accounted programs first := by
  cases r with
  | error e =>
    exact hs.goto_same hopen (.refl s.db) (.failed e _) nofun
  | ok tx =>
    refine hs.goto_same hopen (.refl s.db) (.running _ _ _ fun stored hreads => ?_) nofun
    exact hreplay stored fun q hq => hreads q (List.mem_append_left _ hq)

variable [External]

theorem Accounted.step (hs : s.Accounted programs first) {a : TxAct ι} (hfresh : s.Fresh a) :
    (s.step a).Accounted programs first := by
  have hfollows := hs.follows a.who
  have hnil : ∀ {α : Type} (l : List α), l ++ (none : Option α).toList = l := fun l => l.append_nil
  unfold Fresh ReadsFresh at hfresh
  unfold TxSystem.step
  have hopen : ∀ {point reads}, s.calls a.who = ⟨point, reads⟩ → point ≠ .committed →
      ¬s.Committed a.who := fun hcall hne hcommitted => hne (by
    unfold Committed at hcommitted
    rwa [hcall] at hcommitted)
  generalize hcall : s.calls a.who = call at hfollows hfresh
  cases hfollows with
  | committed reads => exact hs
  | failed e reads => exact hs
  | running tx rest reads hreplay =>
    replace hopen := hopen hcall nofun
    have hreads : (s.calls a.who).reads = reads := by rw [hcall]
    cases rest with
    | get c k next =>
      dsimp only
      cases hget : tx.get s.db c k with
      | error e => exact hs.goto_same hopen (.refl s.db) (.failed e _) nofun
      | ok doc =>
        refine hs.goto_same hopen (.refl s.db) (.running _ _ _ fun stored hagree => ?_) nofun
        rw [hreads] at hagree
        rw [hreplay stored fun r hr => hagree r (List.mem_append_left _ hr)]
        show (tx.getFrom stored c k >>= fun doc => (next doc).replay stored tx) = _
        rw [getFrom_of_agrees hget fun r hr => hagree r (List.mem_append_right _ hr)]
        rfl
    | insert doc next => exact hs.buffered hopen fun stored hagree => hreplay stored (hreads ▸ hagree)
    | update doc next => exact hs.buffered hopen fun stored hagree => hreplay stored (hreads ▸ hagree)
    | delete c k next => exact hs.buffered hopen fun stored hagree => hreplay stored (hreads ▸ hagree)
    | commit =>
      dsimp only
      cases hops : tx.ops (s.orders a.who) with
      | error e => exact hs.goto_same hopen (.refl s.db) (.failed e _) nofun
      | ok ops =>
        cases ops with
        | nil =>
          -- nothing to write: the effect is none
          refine hs.goto_commit hopen ?_
          rw [TxProgram.effect_of_ops (hreplay _ fun r hr => hfresh hops r (hreads ▸ hr)) hops]
          rfl
        | cons op ops =>
          refine hs.goto_same hopen (.refl s.db)
            (.collapsing tx [] _ _ _ hops (fun stored hagree => ?_) fun db => .nil db) nofun
          rw [hreads, hnil] at hagree
          exact hreplay stored hagree
  | collapsing tx done rest st reads hops hreplay hnet =>
    replace hopen := hopen hcall nofun
    have hreads : (s.calls a.who).reads ++ (none : Option StorageRead).toList = reads := by
      rw [hcall, hnil]
    cases rest with
    | nil =>
      refine hs.goto_same hopen (.refl s.db) ?_ nofun
      rw [hreads]
      rw [List.append_nil] at hops
      exact .preparing tx done st [] _ _ _ hops hreplay hnet rfl .nil
    | cons op rest =>
      have hsame := collapseOp_same a.faults s.db st op
      dsimp only
      rcases hcollapse : s.db.collapseOp a.faults st op with ⟨db, e | st'⟩
      · rw [hcollapse] at hsame
        exact hs.goto_same hopen hsame (.failed _ _) nofun
      · rw [hcollapse] at hsame
        refine hs.goto_same hopen hsame ?_ nofun
        have hnet' : NetOf s.db (done ++ [op]) st' :=
          collapseOp_net (Opens.refl s.db) (hnet s.db) (by rw [hcollapse])
        rw [hreads]
        exact .collapsing tx (done ++ [op]) rest st' _ (by simpa using hops) hreplay
          fun db => hnet'.of_any db
  | preparing tx ops st done rest prepared reads hops hreplay hnet hsplit hprepared =>
    replace hopen := hopen hcall nofun
    have hreads : (s.calls a.who).reads ++ (none : Option StorageRead).toList = reads := by
      rw [hcall, hnil]
    cases rest with
    | cons m rest =>
      obtain ⟨hsame, hok⟩ := prepareMutation_phase a.faults s.db prepared m
      dsimp only
      rcases hprepare : s.db.prepareMutation a.faults prepared m with ⟨db, e | prepared'⟩
      · rw [hprepare] at hsame
        exact hs.goto_same hopen hsame (.failed _ _) nofun
      · rw [hprepare] at hsame hok
        refine hs.goto_same hopen hsame ?_ nofun
        rw [hreads]
        exact .preparing tx ops st (done ++ [m]) rest prepared' _ hops hreplay hnet
          (by simpa using hsplit) (hok prepared' rfl done hprepared)
    | nil =>
      dsimp only
      rw [List.append_nil] at hsplit
      rcases hcommit : s.db.commitBatch a.batch prepared st with ⟨db, e | u⟩
      · refine hs.goto_same hopen ?_ (.failed _ _) nofun
        have hfailed : (s.db.commitBatch a.batch prepared st).2 ≠ .ok () := by
          rw [hcommit]
          nofun
        have hsame := commitBatch_same hfailed
        rwa [hcommit] at hsame
      · refine hs.goto_commit hopen ?_
        have hcommitted : a.batch.commit = .committed := committed_of_commitBatch hcommit
        obtain ⟨hread, hmissing⟩ := hfresh hcommitted
        rw [TxProgram.effect_of_ops (hreplay _ fun r hr => hread r hr) hops]
        funext c k
        have hdoc := commitBatch_getDocument (hnet s.db) (by rwa [hsplit]) hmissing
          (show (s.db.commitBatch a.batch prepared st).2 = .ok () by rw [hcommit]) c k
        rwa [hcommit] at hdoc

theorem step_orders (s : TxSystem ι) (a : TxAct ι) : (s.step a).orders = s.orders := by
  have hbuffered : ∀ next r, (s.buffered a.who next r).orders = s.orders := by
    intro next r
    cases r <;> rfl
  unfold step
  split
  · split <;> rfl
  · exact hbuffered ..
  · exact hbuffered ..
  · exact hbuffered ..
  · split <;> rfl
  · split <;> rfl
  · rfl
  · split <;> rfl
  · split <;> rfl
  · rfl
  · rfl

/-- If what a transaction has read is fresh whenever it commits, the transactions that have
committed are serialized. -/
theorem commits_serialized (db : Database) (orders : ι → IterOrder) (programs : ι → TxProgram)
    {acts : List (TxAct ι)} (h : Meets step Fresh (start db orders programs) acts) :
    ∀ done, done <+: acts →
      Serialized (fun i => (programs i).effect (orders i))
        ((start db orders programs).run done).Committed db.contents
        ((start db orders programs).run done).db.contents := by
  intro done hdone
  have hinv := foldl_invariant (fun s => s.orders = orders ∧ s.Accounted programs db.contents)
    (fun s a hs hfresh => ⟨(step_orders s a).trans hs.1, hs.2.step hfresh⟩)
    ⟨rfl, ⟨fun i => .start _ _, .initial fun i => nofun⟩⟩ h done hdone
  obtain ⟨horders, haccounted⟩ := hinv
  have hserialized := haccounted.serialized
  rw [horders] at hserialized
  exact hserialized

end TxSystem

/-- Two transactions that both commit, each with fresh reads, leave the documents that they leave
one after the other. -/
theorem transactions_serialized [External] (db : Database) (orders : Fin 2 → IterOrder)
    (programs : Fin 2 → TxProgram) {acts : List (TxAct (Fin 2))}
    (h : Meets TxSystem.step TxSystem.Fresh (TxSystem.start db orders programs) acts) :
    ∀ done, done <+: acts →
      (∀ i, ((TxSystem.start db orders programs).run done).Committed i) →
      ∃ i j, i ≠ j ∧ ((TxSystem.start db orders programs).run done).db.contents =
        (programs j).effect (orders j) ((programs i).effect (orders i) db.contents) := by
  intro done hdone hcommitted
  have hserialized := TxSystem.commits_serialized db orders programs h done hdone
  have hnodup : [(0 : Fin 2), 1].Nodup := by decide
  obtain ⟨order, hperm, hfinal⟩ := (serialized_iff_permutations hnodup
    fun i => iff_of_true (hcommitted i) (by fin_cases i <;> decide)).mp hserialized
  have hcases : ∀ order ∈ [(0 : Fin 2), 1].permutations', order = [0, 1] ∨ order = [1, 0] := by
    decide
  rcases hcases order hperm with rfl | rfl
  · exact ⟨0, 1, by decide, hfinal.symm⟩
  · exact ⟨1, 0, by decide, hfinal.symm⟩

/-! ## Alone -/

section Alone

variable [External]

namespace TxProgram

/-- A program run by the calls of the source, up to its commit. -/
def exec (f : BatchFaults) (order : IterOrder) (db : Database) :
    Transaction → TxProgram → (Database × Transaction) × Except TransactionError Unit
  | tx, .get c k next =>
    match tx.get db c k with
    | .error e => ((db, tx), .error e)
    | .ok doc => exec f order db tx (next doc)
  | tx, .insert doc next =>
    match tx.insert doc with
    | .error e => ((db, tx), .error e)
    | .ok tx => exec f order db tx next
  | tx, .update doc next =>
    match tx.update doc with
    | .error e => ((db, tx), .error e)
    | .ok tx => exec f order db tx next
  | tx, .delete c k next =>
    match tx.delete c k with
    | .error e => ((db, tx), .error e)
    | .ok tx => exec f order db tx next
  | tx, .commit => Transaction.commit f order db tx

theorem commit_contents {f : BatchFaults} {order : IterOrder} {db : Database} {tx : Transaction}
    (h : (Transaction.commit f order db tx).2 = .ok ()) :
    ∃ ops, tx.ops order = .ok ops ∧ (Transaction.commit f order db tx).1.1.contents =
      fun c k => docAfter ops c k (db.contents c k) := by
  unfold Transaction.commit at h ⊢
  split at h
  · cases h
  · next hactive =>
    rw [if_neg hactive]
    cases hops : tx.ops order with
    | error e =>
      rw [hops] at h
      cases h
    | ok ops =>
      rw [hops] at h
      refine ⟨ops, rfl, ?_⟩
      dsimp only at h ⊢
      have hdocs := atomicWriteBatch_getDocument f db ops
      rcases hbatch : db.atomicWriteBatch f ops with ⟨db', e | u⟩
      · rw [hbatch] at h
        cases h
      · rw [hbatch] at hdocs
        funext c k
        exact (hdocs c k).trans (if_pos rfl)

/-- A commit that fails leaves the documents. -/
theorem commit_failed_contents {f : BatchFaults} {order : IterOrder} {db : Database}
    {tx : Transaction} (h : (Transaction.commit f order db tx).2 ≠ .ok ()) :
    (Transaction.commit f order db tx).1.1.contents = db.contents := by
  unfold Transaction.commit at h ⊢
  split
  · rfl
  · next hactive =>
    rw [if_neg hactive] at h
    cases hops : tx.ops order with
    | error e => rfl
    | ok ops =>
      rw [hops] at h
      dsimp only at h ⊢
      have hdocs := atomicWriteBatch_getDocument f db ops
      rcases hbatch : db.atomicWriteBatch f ops with ⟨db', e | u⟩
      · rw [hbatch] at hdocs
        funext c k
        exact (hdocs c k).trans (if_neg fun hok => by cases hok)
      · rw [hbatch] at h
        exact absurd rfl h

/-- A program that runs alone replays, and its commit has the effect of its operations, or it fails
and leaves the documents. -/
theorem exec_replays (f : BatchFaults) (order : IterOrder) (db : Database) (p : TxProgram)
    (tx : Transaction) :
    ((p.exec f order db tx).2 = .ok () → ∃ tx' ops, p.replay db.contents tx = .ok tx' ∧
      tx'.ops order = .ok ops ∧
      (p.exec f order db tx).1.1.contents = fun c k => docAfter ops c k (db.contents c k)) ∧
    ((p.exec f order db tx).2 ≠ .ok () → (p.exec f order db tx).1.1.contents = db.contents) := by
  induction p generalizing tx with
  | get c k next ih =>
    unfold exec replay
    rw [← tx.get_eq_getFrom]
    cases tx.get db c k with
    | error e => exact ⟨fun h => (by cases h), fun _ => rfl⟩
    | ok doc => exact ih doc tx
  | insert doc next ih =>
    unfold exec replay
    cases tx.insert doc with
    | error e => exact ⟨fun h => (by cases h), fun _ => rfl⟩
    | ok tx1 => exact ih tx1
  | update doc next ih =>
    unfold exec replay
    cases tx.update doc with
    | error e => exact ⟨fun h => (by cases h), fun _ => rfl⟩
    | ok tx1 => exact ih tx1
  | delete c k next ih =>
    unfold exec replay
    cases tx.delete c k with
    | error e => exact ⟨fun h => (by cases h), fun _ => rfl⟩
    | ok tx1 => exact ih tx1
  | commit =>
    refine ⟨fun h => ?_, commit_failed_contents⟩
    obtain ⟨ops, hops, hcontents⟩ := commit_contents h
    exact ⟨tx, ops, rfl, hops, hcontents⟩

end TxProgram

/-- A transaction with what the storage engine answers to its commit. -/
structure TxRun where
  program : TxProgram
  order : IterOrder
  faults : BatchFaults

/-- Transactions one after the other, with those that succeed. -/
def serially : Database → List TxRun → Database × List TxRun
  | db, [] => (db, [])
  | db, t :: ts =>
    let r := t.program.exec t.faults t.order db .new
    let rest := serially r.1.1 ts
    match r.2 with
    | .ok () => (rest.1, t :: rest.2)
    | .error _ => rest

/-- Transactions that run one after the other have the effects of those that succeed. -/
theorem serially_contents (db : Database) (ts : List TxRun) :
    (serially db ts).1.contents =
      (serially db ts).2.foldl (fun docs t => t.program.effect t.order docs) db.contents := by
  induction ts generalizing db with
  | nil => rfl
  | cons t ts ih =>
    obtain ⟨hok, herror⟩ := t.program.exec_replays t.faults t.order db .new
    unfold serially
    dsimp only
    cases hr : (t.program.exec t.faults t.order db .new).2 with
    | ok u =>
      obtain ⟨tx, ops, htx, hops, hcontents⟩ := hok hr
      show (serially _ ts).1.contents = (serially _ ts).2.foldl _ (t.program.effect t.order _)
      rw [ih, hcontents, TxProgram.effect_of_ops htx hops]
    | error e =>
      show (serially _ ts).1.contents = (serially _ ts).2.foldl _ _
      rw [ih, herror fun h => by rw [hr] at h; cases h]

end Alone

/-! ## Two slips -/

namespace Registers

local instance : External := .standIn

def slip (id : String) : Document := ⟨id, [], Value.wf_no_fields⟩

/-- Nothing is stored. -/
def empty : Database where
  keyspaces _ := none
  indexes _ := []
  indexKeyspaces _ := ∅
  edges := ⟨[], fun _ => ∅⟩

/-- Put the first slip, or behind it the second one. -/
def putSlip : TxProgram :=
  .get "slips" "first" fun
    | none => .insert (slip "slips:first") .commit
    | some _ => .insert (slip "slips:second") .commit

def act (who : Fin 2) : TxAct (Fin 2) := ⟨who, .none, .none⟩

/-- Read, write, turn to the commit, collapse twice, prepare, commit. -/
def all (who : Fin 2) : List (TxAct (Fin 2)) := List.replicate 7 (act who)

/-- Both transactions put a slip. -/
def both (_ : Fin 2) : TxProgram := putSlip

def begun : TxSystem (Fin 2) := TxSystem.start empty (fun _ => .asKept) both

/-- Both read before one of them commits. -/
def bothRead : List (TxAct (Fin 2)) := act 0 :: act 1 :: (all 0).tail ++ (all 1).tail

/-- Both have committed, and the second slip is missing. -/
theorem slip_lost : (∀ i, (begun.run bothRead).Committed i) ∧
    ¬ ∃ i j, i ≠ j ∧ (begun.run bothRead).db.contents =
      (both j).effect .asKept ((both i).effect .asKept empty.contents) := by
  have hpoint : ∀ i : Fin 2, (match ((begun.run bothRead).calls i).point with
      | .committed => true
      | _ => false) = true := by decide +kernel
  refine ⟨fun i => ?_, ?_⟩
  · have hi := hpoint i
    unfold TxSystem.Committed
    split at hi
    · assumption
    · cases hi
  · rintro ⟨i, j, -, h⟩
    have hsecond := congrArg (fun stored : Contents => (stored "slips" "second").isSome) h
    revert hsecond
    show ¬ ((begun.run bothRead).db.contents "slips" "second").isSome =
      (putSlip.effect .asKept (putSlip.effect .asKept empty.contents) "slips" "second").isSome
    decide +kernel

/-- All that was read was missing and still is, and nothing is deleted. -/
def nothingRead (s : TxSystem (Fin 2)) (a : TxAct (Fin 2)) : Bool :=
  let reads := (s.calls a.who).reads.all fun r =>
    r.result.isNone && (s.db.contents r.collection r.key).isNone
  match (s.calls a.who).point with
  | .running _ .commit => reads
  | .preparing st [] _ => reads && st.mutations.all (·.currentDoc.isSome)
  | _ => true

theorem fresh_of_nothingRead (s : TxSystem (Fin 2)) (a : TxAct (Fin 2))
    (h : nothingRead s a = true) : s.Fresh a := by
  have hreads : ((s.calls a.who).reads.all fun r =>
      r.result.isNone && (s.db.contents r.collection r.key).isNone) = true →
      s.ReadsFresh a.who := by
    intro hall r hr
    have hboth := List.all_eq_true.mp hall r hr
    simp only [Bool.and_eq_true, Option.isNone_iff_eq_none] at hboth
    rw [hboth.1, hboth.2]
  unfold nothingRead at h
  unfold TxSystem.Fresh
  split
  · next tx hpoint =>
    rw [hpoint] at h
    exact fun _ => hreads h
  · next st prepared hpoint =>
    rw [hpoint] at h
    obtain ⟨hall, hcurrent⟩ := Bool.and_eq_true_iff.mp h
    refine fun _ => ⟨hreads hall, fun m hm _ hnone => ?_⟩
    have hsome := List.all_eq_true.mp hcurrent m hm
    rw [hnone] at hsome
    cases hsome
  · trivial

/-- The second transaction looks for another slip and puts the second one. -/
def programs (i : Fin 2) : TxProgram :=
  if i = 0 then putSlip
  else .get "slips" "third" fun _ => .insert (slip "slips:second") .commit

/-- Both read first, and neither writes what the other one has read. -/
theorem apart_serialized :
    ∃ i j, i ≠ j ∧ ((TxSystem.start empty (fun _ => .asKept) programs).run bothRead).db.contents =
      (programs j).effect .asKept ((programs i).effect .asKept empty.contents) := by
  have hpoint : ∀ i : Fin 2, (match (((TxSystem.start empty (fun _ => .asKept) programs).run
        bothRead).calls i).point with
      | .committed => true
      | _ => false) = true := by decide +kernel
  have hmeets : Meets TxSystem.step (fun s a => nothingRead s a = true)
      (TxSystem.start empty (fun _ => .asKept) programs) bothRead := by decide +kernel
  refine transactions_serialized empty (fun _ => .asKept) programs
    (hmeets.mono fresh_of_nothingRead) bothRead (List.prefix_refl _) fun i => ?_
  have hi := hpoint i
  unfold TxSystem.Committed
  split at hi
  · assumption
  · cases hi

end Registers

end StellarDb
