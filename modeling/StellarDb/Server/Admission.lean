import Mathlib.Algebra.Order.Field.Basic
import Mathlib.Data.Rat.Cast.Order
import Mathlib.Tactic.Linarith
import Mathlib.Tactic.NormNum
import Mathlib.Tactic.Positivity
import Mathlib.Tactic.Ring
import StellarDb.Lib.Entries

/-!
# StellarDb — admission of one client's requests

Each client address has a token bucket (`try_take_client_login_token`,
`try_take_client_query_token`). A call reads the clock first and takes the lock later, so the
times a bucket is refilled with need not ascend, and what a bucket holds by its stamp is not
what it holds now.

`TokenBucket.level` is what a bucket has to spend at a moment. It gains at most `rate` per
second, and a call whose stamp is `Timely` takes from it at least what it grants; a window that
starts with a full bucket can then spend no more than the burst and what the window adds
(`granted_le`). A stamp that is old by the time the lock is taken gives credit twice: to this
call's refill, or above the cap, and again to the next one.
-/

namespace StellarDb

open Entries

/-- `Instant`: nanoseconds since the process started. -/
abbrev Instant := Nat

/-- A moment in seconds. -/
def Instant.secs (t : Instant) : ℚ := (t : ℚ) / 10 ^ 9

inductive IpAddr where
  | v4 (octets : BitVec 32)
  | v6 (segments : BitVec 128)
deriving DecidableEq, Repr

/-- The derived order: addresses of version 4 come first. -/
def IpAddr.le : IpAddr → IpAddr → Bool
  | .v4 a, .v4 b => a.toNat ≤ b.toNat
  | .v4 _, .v6 _ => true
  | .v6 _, .v4 _ => false
  | .v6 a, .v6 b => a.toNat ≤ b.toNat

/-- The limits of `AdmissionConfig` on a single client. -/
structure AdmissionConfig where
  loginClientRatePerSecond : ℚ
  loginClientBurst : Nat
  maxLoginClients : Nat
  loginClientRetention : Nat
  queryClientRatePerSecond : ℚ
  queryClientBurst : Nat
  maxQueryClients : Nat
  queryClientRetention : Nat

structure TokenBucket where
  tokens : ℚ
  lastRefill : Instant
deriving DecidableEq

structure ClientOrder where
  lastSeen : Instant
  generation : Nat
  client : IpAddr
deriving DecidableEq

/-- The derived order of the heap's entries. -/
def ClientOrder.le (a b : ClientOrder) : Bool :=
  a.lastSeen < b.lastSeen || a.lastSeen = b.lastSeen &&
    (a.generation < b.generation || a.generation = b.generation && a.client.le b.client)

structure ClientBucket where
  bucket : TokenBucket
  lastSeen : Instant
  generation : Nat

/-- The heap `order` is kept as the list of its entries in the order they leave it. -/
structure ClientLimiterState where
  buckets : List (IpAddr × ClientBucket)
  order : List ClientOrder
  nextGeneration : Nat

/-! ## The functions of the limiter -/

/-- `take_token`: the refill first, then the token. -/
def takeToken (bucket : TokenBucket) (rate : ℚ) (burst : Nat) (now : Instant) :
    Bool × TokenBucket :=
  -- `duration_since` saturates, as the subtraction of `Nat` does
  let elapsed := Instant.secs (now - bucket.lastRefill)
  let tokens := min (bucket.tokens + elapsed * rate) burst
  if tokens < 1 then (false, ⟨tokens, now⟩) else (true, ⟨tokens - 1, now⟩)

/-- The push of the heap. -/
def pushOrder (o : ClientOrder) : List ClientOrder → List ClientOrder
  | [] => [o]
  | a :: order => if o.le a then o :: a :: order else a :: pushOrder o order

namespace ClientLimiterState

/-- `ClientLimiterState::default`. -/
def empty : ClientLimiterState := ⟨[], [], 0⟩

def rebuildClientOrder (state : ClientLimiterState) : ClientLimiterState :=
  { state with
    order := (state.buckets.map fun e => ⟨e.2.lastSeen, e.2.generation, e.1⟩).foldr pushOrder [] }

def compactClientOrderIfNeeded (state : ClientLimiterState) : ClientLimiterState :=
  let threshold := max (state.buckets.length * 4) 64
  if threshold < state.order.length then state.rebuildClientOrder else state

/-- The generation `touch_client_bucket` gives, and the state with the counter that gave it. -/
def nextTouch (state : ClientLimiterState) : ClientLimiterState :=
  let generation := (state.nextGeneration + 1) % 2 ^ 64
  if generation = 0 then
    { state.rebuildClientOrder with nextGeneration := state.buckets.length + 1 }
  else { state with nextGeneration := generation }

def touchClientBucket (state : ClientLimiterState) (client : IpAddr) (now : Instant) :
    ClientLimiterState :=
  let state := state.nextTouch
  let generation := state.nextGeneration
  let buckets :=
    match state.buckets.lookup client with
    | some entry =>
      insertEntry state.buckets client { entry with lastSeen := now, generation := generation }
    | none => state.buckets
  compactClientOrderIfNeeded
    { state with buckets := buckets, order := pushOrder ⟨now, generation, client⟩ state.order }

/-- The loop of `prune_client_buckets`, on the entries in the order they leave the heap. -/
def pruneLoop (now : Instant) (retention : Nat) :
    List ClientOrder → List (IpAddr × ClientBucket) →
      List (IpAddr × ClientBucket) × List ClientOrder
  | [], buckets => (buckets, [])
  | candidate :: order, buckets =>
    match buckets.lookup candidate.client with
    | none => pruneLoop now retention order buckets
    | some entry =>
      if entry.generation ≠ candidate.generation then pruneLoop now retention order buckets
      else if now - candidate.lastSeen < retention then (buckets, candidate :: order)
      else pruneLoop now retention order (eraseEntry buckets candidate.client)

def pruneClientBuckets (state : ClientLimiterState) (now : Instant) (retention : Nat) :
    ClientLimiterState :=
  let pruned := pruneLoop now retention state.order state.buckets
  compactClientOrderIfNeeded { state with buckets := pruned.1, order := pruned.2 }

/-- The loop of `evict_oldest_client_bucket`. -/
def evictLoop : List ClientOrder → List (IpAddr × ClientBucket) →
    Bool × List (IpAddr × ClientBucket) × List ClientOrder
  | [], buckets => (false, buckets, [])
  | candidate :: order, buckets =>
    match buckets.lookup candidate.client with
    | none => evictLoop order buckets
    | some entry =>
      if entry.generation ≠ candidate.generation then evictLoop order buckets
      else (true, eraseEntry buckets candidate.client, order)

def evictOldestClientBucket (state : ClientLimiterState) : Bool × ClientLimiterState :=
  let evicted := evictLoop state.order state.buckets
  (evicted.1, { state with buckets := evicted.2.1, order := evicted.2.2 })

/-- The loop before an insertion, with as many rounds as the heap has entries: each round takes
one out, and with none left nothing can be evicted. -/
def makeRoom (maxClients : Nat) : Nat → ClientLimiterState → Bool × ClientLimiterState
  | 0, state => (state.buckets.length < maxClients, state)
  | n + 1, state =>
    if state.buckets.length < maxClients then (true, state)
    else
      match state.evictOldestClientBucket with
      | (true, state) => makeRoom maxClients n state
      | (false, state) => (false, state)

/-- The two functions differ in nothing but the limits they read. -/
def tryTakeClientToken (rate : ℚ) (burst maxClients retention : Nat) (state : ClientLimiterState)
    (client : IpAddr) (now : Instant) : Bool × ClientLimiterState :=
  let state := state.pruneClientBuckets now retention
  match state.buckets.lookup client with
  | some entry =>
    let taken := takeToken entry.bucket rate burst now
    let buckets := insertEntry state.buckets client { entry with bucket := taken.2 }
    (taken.1, { state with buckets := buckets }.touchClientBucket client now)
  | none =>
    match state.makeRoom maxClients state.order.length with
    | (false, state) => (false, state)
    | (true, state) =>
      -- `saturating_sub`: a burst of zero still grants the first call
      let entry : ClientBucket := ⟨⟨((burst - 1 : Nat) : ℚ), now⟩, now, 0⟩
      (true, { state with buckets := insertEntry state.buckets client entry }.touchClientBucket
        client now)

end ClientLimiterState

inductive ClientLimiter where
  | login
  | query
deriving DecidableEq, Repr

namespace AdmissionConfig

variable (config : AdmissionConfig)

def tryTakeClientLoginToken (state : ClientLimiterState) (client : IpAddr) (now : Instant) :
    Bool × ClientLimiterState :=
  if config.maxLoginClients = 0 then (true, state)
  else state.tryTakeClientToken config.loginClientRatePerSecond config.loginClientBurst
    config.maxLoginClients config.loginClientRetention client now

def tryTakeClientQueryToken (state : ClientLimiterState) (client : IpAddr) (now : Instant) :
    Bool × ClientLimiterState :=
  state.tryTakeClientToken config.queryClientRatePerSecond config.queryClientBurst
    config.maxQueryClients config.queryClientRetention client now

def rate : ClientLimiter → ℚ
  | .login => config.loginClientRatePerSecond
  | .query => config.queryClientRatePerSecond

def burst : ClientLimiter → Nat
  | .login => config.loginClientBurst
  | .query => config.queryClientBurst

def retention : ClientLimiter → Nat
  | .login => config.loginClientRetention
  | .query => config.queryClientRetention

def tryTake : ClientLimiter → ClientLimiterState → IpAddr → Instant → Bool × ClientLimiterState
  | .login => config.tryTakeClientLoginToken
  | .query => config.tryTakeClientQueryToken

end AdmissionConfig

/-! ## Concurrent calls -/

/-- One limiter with the calls that have read the clock and wait for its lock. -/
structure Admitting where
  clock : Instant
  waiting : List (IpAddr × Instant)
  limiter : ClientLimiterState

inductive AdmitStep where
  | advance (elapsed : Nat)
  | readClock (client : IpAddr)
  | enter (i : Nat)

/-- A call that has run its critical section: the limiter it found, the clock it read, the time
it ran at and its answer. -/
structure TokenCall where
  before : ClientLimiterState
  client : IpAddr
  now : Instant
  time : Instant
  allowed : Bool

namespace Admitting

variable (config : AdmissionConfig) (limiter : ClientLimiter)

/-- A start at any time, with no call and no bucket. -/
def start (clock : Instant) : Admitting := ⟨clock, [], .empty⟩

def step (s : Admitting) : AdmitStep → Admitting × Option TokenCall
  | .advance elapsed => ({ s with clock := s.clock + elapsed }, none)
  | .readClock client => ({ s with waiting := s.waiting ++ [(client, s.clock)] }, none)
  | .enter i =>
    match s.waiting[i]? with
    | none => (s, none)
    | some (client, now) =>
      let taken := config.tryTake limiter s.limiter client now
      ({ s with waiting := s.waiting.eraseIdx i, limiter := taken.2 },
        some ⟨s.limiter, client, now, s.clock, taken.1⟩)

/-- The calls of a run in the order of their critical sections. -/
def calls (s : Admitting) : List AdmitStep → List TokenCall
  | [] => []
  | act :: acts =>
    let next := s.step config limiter act
    next.2.toList ++ calls next.1 acts

end Admitting

/-! ## What the limiter does to a bucket -/

namespace ClientLimiterState

/-- The tokens of a client. -/
def bucketOf (state : ClientLimiterState) (client : IpAddr) : Option TokenBucket :=
  (state.buckets.lookup client).map (·.bucket)

@[simp]
theorem buckets_rebuildClientOrder (state : ClientLimiterState) :
    state.rebuildClientOrder.buckets = state.buckets := rfl

@[simp]
theorem buckets_compactClientOrderIfNeeded (state : ClientLimiterState) :
    state.compactClientOrderIfNeeded.buckets = state.buckets := by
  unfold compactClientOrderIfNeeded
  dsimp only
  split <;> rfl

@[simp]
theorem buckets_nextTouch (state : ClientLimiterState) :
    state.nextTouch.buckets = state.buckets := by
  unfold nextTouch
  dsimp only
  split <;> rfl

/-- A touch moves a client in the order and leaves the tokens of all. -/
theorem bucketOf_touchClientBucket (state : ClientLimiterState) (client client' : IpAddr)
    (now : Instant) :
    (state.touchClientBucket client now).bucketOf client' = state.bucketOf client' := by
  unfold bucketOf touchClientBucket
  simp only [buckets_compactClientOrderIfNeeded, buckets_nextTouch]
  cases hentry : state.buckets.lookup client with
  | none => rfl
  | some entry =>
    show ((insertEntry state.buckets client _).lookup client').map _ = _
    rw [lookup_insertEntry]
    by_cases hc : client = client'
    · rw [if_pos hc, ← hc, hentry]
      rfl
    · rw [if_neg hc]

/-- Pruning and evicting take buckets out and change none. -/
def Sheds (before after : ClientLimiterState) : Prop :=
  ∀ client, after.bucketOf client = before.bucketOf client ∨ after.bucketOf client = none

theorem Sheds.trans {a b c : ClientLimiterState} (hab : Sheds a b) (hbc : Sheds b c) :
    Sheds a c := by
  intro client
  rcases hbc client with h | h
  · rw [h]
    exact hab client
  · exact Or.inr h

/-- What is still there is as it was. -/
theorem Sheds.bucketOf_eq {a b : ClientLimiterState} (h : Sheds a b) {client : IpAddr}
    (hsome : (b.bucketOf client).isSome) : b.bucketOf client = a.bucketOf client := by
  rcases h client with h | h
  · exact h
  · rw [h] at hsome
    cases hsome

theorem lookup_pruneLoop (now : Instant) (retention : Nat) (order : List ClientOrder)
    (buckets : List (IpAddr × ClientBucket)) (client : IpAddr) :
    (pruneLoop now retention order buckets).1.lookup client = buckets.lookup client ∨
      (pruneLoop now retention order buckets).1.lookup client = none := by
  induction order generalizing buckets with
  | nil => exact Or.inl rfl
  | cons candidate order ih =>
    unfold pruneLoop
    split
    · exact ih buckets
    · split
      · exact ih buckets
      · split
        · exact Or.inl rfl
        · -- the candidate's bucket goes; the others are looked up as before
          rcases ih (eraseEntry buckets candidate.client) with h | h
          · rw [h, lookup_eraseEntry]
            split
            · exact Or.inr rfl
            · exact Or.inl rfl
          · exact Or.inr h

theorem sheds_pruneClientBuckets (state : ClientLimiterState) (now : Instant) (retention : Nat) :
    Sheds state (state.pruneClientBuckets now retention) := by
  intro client
  unfold bucketOf pruneClientBuckets
  simp only [buckets_compactClientOrderIfNeeded]
  rcases lookup_pruneLoop now retention state.order state.buckets client with h | h
  · exact Or.inl (by rw [h])
  · exact Or.inr (by rw [h]; rfl)

theorem lookup_evictLoop (order : List ClientOrder) (buckets : List (IpAddr × ClientBucket))
    (client : IpAddr) :
    (evictLoop order buckets).2.1.lookup client = buckets.lookup client ∨
      (evictLoop order buckets).2.1.lookup client = none := by
  induction order with
  | nil => exact Or.inl rfl
  | cons candidate order ih =>
    unfold evictLoop
    split
    · exact ih
    · split
      · exact ih
      · show (eraseEntry buckets candidate.client).lookup client = _ ∨ _
        rw [lookup_eraseEntry]
        split
        · exact Or.inr rfl
        · exact Or.inl rfl

theorem sheds_evictOldestClientBucket (state : ClientLimiterState) :
    Sheds state state.evictOldestClientBucket.2 := by
  intro client
  unfold bucketOf evictOldestClientBucket
  dsimp only
  rcases lookup_evictLoop state.order state.buckets client with h | h
  · exact Or.inl (by rw [h])
  · exact Or.inr (by rw [h]; rfl)

theorem sheds_makeRoom (maxClients n : Nat) (state : ClientLimiterState) :
    Sheds state (state.makeRoom maxClients n).2 := by
  induction n generalizing state with
  | zero => exact fun _ => Or.inl rfl
  | succ n ih =>
    unfold makeRoom
    split
    · exact fun _ => Or.inl rfl
    · have hevict := sheds_evictOldestClientBucket state
      split
      · rename_i next hnext
        rw [hnext] at hevict
        exact hevict.trans (ih next)
      · rename_i next hnext
        rw [hnext] at hevict
        exact hevict

/-- Each round of evictions takes an entry out of the heap. -/
theorem length_evictOldestClientBucket {state next : ClientLimiterState}
    (h : state.evictOldestClientBucket = (true, next)) :
    next.order.length < state.order.length := by
  have hloop : ∀ order : List ClientOrder, (evictLoop order state.buckets).1 = true →
      (evictLoop order state.buckets).2.2.length < order.length := by
    intro order
    induction order with
    | nil => exact nofun
    | cons candidate order ih =>
      unfold evictLoop
      split
      · exact fun h => (ih h).trans (Nat.lt_succ_self _)
      · split
        · exact fun h => (ih h).trans (Nat.lt_succ_self _)
        · exact fun _ => Nat.lt_succ_self _
  have hfst := congrArg Prod.fst h
  have hsnd := congrArg (fun r => r.2.order.length) h
  have hless := hloop state.order hfst
  unfold evictOldestClientBucket at hsnd
  dsimp only at hsnd
  omega

/-- The rounds `tryTakeClientToken` gives the loop are enough: more change nothing. -/
theorem makeRoom_of_le (maxClients n : Nat) (state : ClientLimiterState)
    (hn : state.order.length ≤ n) :
    state.makeRoom maxClients n = state.makeRoom maxClients state.order.length := by
  suffices h : ∀ (n m : Nat) (state : ClientLimiterState), state.order.length ≤ n →
      state.order.length ≤ m → state.makeRoom maxClients n = state.makeRoom maxClients m from
    h n _ state hn (le_refl _)
  -- out of rounds the heap is empty, and an eviction from it fails and changes nothing
  have hempty : ∀ (m : Nat) (state : ClientLimiterState), state.order = [] →
      state.makeRoom maxClients 0 = state.makeRoom maxClients m := by
    intro m state horder
    cases m with
    | zero => rfl
    | succ m =>
      have hevict : state.evictOldestClientBucket = (false, state) := by
        unfold evictOldestClientBucket
        rw [horder]
        show (false, ({ state with order := [] } : ClientLimiterState)) = _
        rw [← horder]
      unfold makeRoom
      rw [hevict]
      by_cases hlt : state.buckets.length < maxClients
      · rw [if_pos hlt, decide_eq_true hlt]
      · rw [if_neg hlt, decide_eq_false hlt]
  intro n
  induction n with
  | zero =>
    intro m state h _
    exact hempty m state (List.length_eq_zero_iff.mp (Nat.le_zero.mp h))
  | succ n ih =>
    intro m state hn hm
    cases m with
    | zero => exact (hempty (n + 1) state (List.length_eq_zero_iff.mp (Nat.le_zero.mp hm))).symm
    | succ m =>
      unfold makeRoom
      split
      · rfl
      · split
        · rename_i next hnext
          have hless := length_evictOldestClientBucket hnext
          exact ih m next (by omega) (by omega)
        · rfl

/-- A call of another client takes from the bucket at most all of it. -/
theorem sheds_of_other {rate : ℚ} {burst maxClients retention : Nat} {state : ClientLimiterState}
    {client client' : IpAddr} {now : Instant} (hne : client ≠ client') :
    (state.tryTakeClientToken rate burst maxClients retention client now).2.bucketOf client' =
        state.bucketOf client' ∨
      (state.tryTakeClientToken rate burst maxClients retention client now).2.bucketOf client' =
        none := by
  have hprune := sheds_pruneClientBuckets state now retention
  unfold tryTakeClientToken
  dsimp only
  generalize state.pruneClientBuckets now retention = pruned at hprune ⊢
  have hinsert : ∀ (s : ClientLimiterState) (entry : ClientBucket),
      (touchClientBucket { s with buckets := insertEntry s.buckets client entry } client
        now).bucketOf client' = s.bucketOf client' := by
    intro s entry
    rw [bucketOf_touchClientBucket]
    unfold bucketOf
    dsimp only
    rw [lookup_insertEntry, if_neg hne]
  split
  · rw [hinsert]
    exact hprune client'
  · have hroom := hprune.trans (sheds_makeRoom maxClients pruned.order.length pruned)
    split
    · rename_i next hnext
      rw [hnext] at hroom
      exact hroom client'
    · rename_i next hnext
      rw [hnext] at hroom
      rw [hinsert]
      exact hroom client'

/-- A call whose bucket pruning left takes its token from it. -/
theorem tryTake_of_some (rate : ℚ) (burst maxClients : Nat) {retention : Nat}
    {state : ClientLimiterState} {client : IpAddr} {now : Instant} {bucket : TokenBucket}
    (hbucket : (state.pruneClientBuckets now retention).bucketOf client = some bucket) :
    (state.tryTakeClientToken rate burst maxClients retention client now).1 =
        (takeToken bucket rate burst now).1 ∧
      (state.tryTakeClientToken rate burst maxClients retention client now).2.bucketOf client =
        some (takeToken bucket rate burst now).2 := by
  unfold tryTakeClientToken
  dsimp only
  generalize state.pruneClientBuckets now retention = pruned at hbucket ⊢
  obtain ⟨entry, hentry, hb⟩ := Option.map_eq_some_iff.mp hbucket
  subst hb
  rw [hentry]
  dsimp only
  refine ⟨rfl, ?_⟩
  rw [bucketOf_touchClientBucket]
  unfold bucketOf
  dsimp only
  rw [lookup_insertEntry, if_pos rfl]
  rfl

/-- A call without a bucket gets a new one with a token less than the burst, or is refused. -/
theorem tryTake_of_none {rate : ℚ} {burst maxClients retention : Nat} {state : ClientLimiterState}
    {client : IpAddr} {now : Instant} (hnone : state.bucketOf client = none) :
    ((state.tryTakeClientToken rate burst maxClients retention client now).1 = true ∧
      (state.tryTakeClientToken rate burst maxClients retention client now).2.bucketOf client =
        some ⟨((burst - 1 : Nat) : ℚ), now⟩) ∨
    ((state.tryTakeClientToken rate burst maxClients retention client now).1 = false ∧
      (state.tryTakeClientToken rate burst maxClients retention client now).2.bucketOf client =
        none) := by
  have hpruned : (state.pruneClientBuckets now retention).bucketOf client = none := by
    rcases sheds_pruneClientBuckets state now retention client with h | h
    · exact h.trans hnone
    · exact h
  unfold tryTakeClientToken
  dsimp only
  generalize state.pruneClientBuckets now retention = pruned at hpruned ⊢
  have hlookup : pruned.buckets.lookup client = none := Option.map_eq_none_iff.mp hpruned
  rw [hlookup]
  dsimp only
  have hroom := sheds_makeRoom maxClients pruned.order.length pruned client
  rw [hpruned, or_self] at hroom
  split
  · rename_i next hnext
    rw [hnext] at hroom
    exact Or.inr ⟨rfl, hroom⟩
  · refine Or.inl ⟨rfl, ?_⟩
    rw [bucketOf_touchClientBucket]
    unfold bucketOf
    dsimp only
    rw [lookup_insertEntry, if_pos rfl]
    rfl

end ClientLimiterState

/-! ## What a bucket has to spend -/

theorem Instant.secs_add (a b : Nat) : Instant.secs (a + b) = Instant.secs a + Instant.secs b := by
  unfold Instant.secs
  push_cast
  ring

theorem Instant.secs_nonneg (t : Instant) : 0 ≤ t.secs := by
  unfold Instant.secs
  positivity

theorem Instant.secs_le {a b : Instant} (h : a ≤ b) : a.secs ≤ b.secs := by
  unfold Instant.secs
  gcongr

namespace TokenBucket

variable (rate : ℚ) (burst : Nat)

/-- What a refill at this time leaves in the bucket; a client without one has a full one. -/
def level (bucket : Option TokenBucket) (time : Instant) : ℚ :=
  match bucket with
  | none => burst
  | some b => min (b.tokens + Instant.secs (time - b.lastRefill) * rate) burst

theorem level_le_burst (bucket : Option TokenBucket) (time : Instant) :
    level rate burst bucket time ≤ burst := by
  unfold level
  split
  · exact le_refl _
  · exact min_le_right _ _

variable {rate}

/-- Time adds at most the rate. -/
theorem level_advance (hrate : 0 ≤ rate) (bucket : Option TokenBucket) (time : Instant)
    (elapsed : Nat) :
    level rate burst bucket (time + elapsed) ≤
      level rate burst bucket time + rate * Instant.secs elapsed := by
  have hgain : 0 ≤ rate * Instant.secs elapsed :=
    mul_nonneg hrate (Instant.secs_nonneg elapsed)
  unfold level
  split
  · linarith
  · rename_i b
    have hsecs : Instant.secs (time + elapsed - b.lastRefill) ≤
        Instant.secs (time - b.lastRefill) + Instant.secs elapsed := by
      rw [← Instant.secs_add]
      exact Instant.secs_le (add_tsub_le_tsub_add)
    have hmul := mul_le_mul_of_nonneg_right hsecs hrate
    rw [← min_add_add_right]
    refine min_le_min ?_ ?_
    · linarith
    · linarith

/-- The clock of a call was read when it runs, or late enough for its refill: no earlier than
the last refill, and the bucket is not full since. Without a rate every reading will do. -/
def Timely (rate : ℚ) (burst : Nat) (bucket : Option TokenBucket) (now time : Instant) : Prop :=
  rate = 0 ∨ now = time ∨ ∃ b ∈ bucket, b.lastRefill ≤ now ∧
    b.tokens + Instant.secs (time - b.lastRefill) * rate ≤ burst

instance (rate : ℚ) (burst : Nat) (bucket : Option TokenBucket) (now time : Instant) :
    Decidable (Timely rate burst bucket now time) :=
  inferInstanceAs (Decidable (_ ∨ _ ∨ ∃ b ∈ bucket, _ ∧ _))

/-- One token is taken at most, and only from one that is there. -/
theorem takeToken_spec (bucket : TokenBucket) (rate : ℚ) (now : Instant) :
    let refilled := min (bucket.tokens + Instant.secs (now - bucket.lastRefill) * rate) burst
    let taken := takeToken bucket rate burst now
    taken.2.lastRefill = now ∧ taken.2.tokens = refilled - (if taken.1 then 1 else 0) ∧
      (taken.1 = true → 0 ≤ taken.2.tokens) := by
  intro refilled taken
  unfold taken takeToken
  dsimp only
  split
  · exact ⟨rfl, (sub_zero _).symm, nofun⟩
  · rename_i h
    refine ⟨rfl, rfl, fun _ => ?_⟩
    show 0 ≤ min _ _ - (1 : ℚ)
    linarith [not_lt.mp h]

/-- A timely call takes from the bucket what it grants. -/
theorem level_takeToken {bucket : TokenBucket} {now time : Instant} (hnow : now ≤ time)
    (htimely : Timely rate burst (some bucket) now time) :
    (if (takeToken bucket rate burst now).1 then 1 else 0 : ℚ) +
        level rate burst (some (takeToken bucket rate burst now).2) time ≤
      level rate burst (some bucket) time := by
  obtain ⟨hlast, htokens, _⟩ := takeToken_spec burst bucket rate now
  have hlevel : level rate burst (some (takeToken bucket rate burst now).2) time ≤
      (takeToken bucket rate burst now).2.tokens + Instant.secs (time - now) * rate := by
    rw [level, hlast]
    exact min_le_left _ _
  rw [htokens] at hlevel
  have hcredit : min (bucket.tokens + Instant.secs (now - bucket.lastRefill) * rate) burst +
      Instant.secs (time - now) * rate ≤ level rate burst (some bucket) time := by
    unfold level
    dsimp only
    rcases htimely with hzero | htime | ⟨b, hb, hafter, hroom⟩
    · -- nothing is ever refilled
      rw [hzero, mul_zero, mul_zero, mul_zero, add_zero]
    · rw [htime, Nat.sub_self]
      show _ + Instant.secs 0 * rate ≤ _
      rw [show Instant.secs 0 = 0 from by norm_num [Instant.secs], zero_mul, add_zero]
    · -- the two parts of the refill make up the whole of it
      cases hb
      have hparts : Instant.secs (now - bucket.lastRefill) + Instant.secs (time - now) =
          Instant.secs (time - bucket.lastRefill) := by
        rw [← Instant.secs_add]
        exact congrArg Instant.secs
          ((Nat.add_comm _ _).trans (Nat.sub_add_sub_cancel hnow hafter))
      rw [min_eq_left hroom, ← hparts, add_mul]
      have hleft := min_le_left
        (bucket.tokens + Instant.secs (now - bucket.lastRefill) * rate) (burst : ℚ)
      linarith
  linarith

/-- A timely first call takes its token from a full bucket. -/
theorem level_first (hburst : 1 ≤ burst) {now time : Instant}
    (htimely : Timely rate burst none now time) :
    1 + level rate burst (some ⟨((burst - 1 : Nat) : ℚ), now⟩) time ≤
      level rate burst none time := by
  have hlevel : level rate burst (some ⟨((burst - 1 : Nat) : ℚ), now⟩) time ≤
      ((burst - 1 : Nat) : ℚ) + Instant.secs (time - now) * rate := min_le_left _ _
  have hcredit : Instant.secs (time - now) * rate = 0 := by
    rcases htimely with hzero | htime | ⟨b, hb, _⟩
    · rw [hzero, mul_zero]
    · rw [htime, Nat.sub_self]
      show Instant.secs 0 * rate = 0
      rw [show Instant.secs 0 = 0 from by norm_num [Instant.secs], zero_mul]
    · cases hb
  have hcast : ((burst - 1 : Nat) : ℚ) = burst - 1 := by
    rw [Nat.cast_sub hburst, Nat.cast_one]
  show 1 + _ ≤ (burst : ℚ)
  linarith

end TokenBucket

/-! ## Windows -/

namespace TokenCall

variable (config : AdmissionConfig) (limiter : ClientLimiter) (client : IpAddr)

/-- The critical section runs in `[s, s + T]`. -/
def Within (s T : ℚ) (call : TokenCall) : Prop := s ≤ call.time.secs ∧ call.time.secs ≤ s + T

instance (s T : ℚ) (call : TokenCall) : Decidable (call.Within s T) := instDecidableAnd

/-- The call neither prunes nor evicts the client's bucket. -/
def Keeps (call : TokenCall) : Prop :=
  (call.before.bucketOf client).isSome →
    ((call.before.pruneClientBuckets call.now (config.retention limiter)).bucketOf client).isSome ∧
      ((config.tryTake limiter call.before call.client call.now).2.bucketOf client).isSome

/-- The call is limited at all, and its clock is read late enough. -/
def Timely (call : TokenCall) : Prop :=
  (limiter = .login → config.maxLoginClients ≠ 0) ∧
    TokenBucket.Timely (config.rate limiter) (config.burst limiter)
      (call.before.bucketOf call.client) call.now call.time

instance (call : TokenCall) : Decidable (call.Keeps config limiter client) :=
  inferInstanceAs (Decidable (_ → _ ∧ _))

instance (call : TokenCall) : Decidable (call.Timely config limiter) := instDecidableAnd

/-- The calls of the client in the window that were allowed. -/
def granted (s T : ℚ) (calls : List TokenCall) : Nat :=
  calls.countP fun call => call.client = client ∧ call.Within s T ∧ call.allowed

end TokenCall

/-- Both functions take their token from the same limits, but for a login limit that is off. -/
theorem AdmissionConfig.tryTake_eq (config : AdmissionConfig) (limiter : ClientLimiter)
    (hon : limiter = .login → config.maxLoginClients ≠ 0) :
    ∃ maxClients, config.tryTake limiter = fun state => state.tryTakeClientToken
      (config.rate limiter) (config.burst limiter) maxClients (config.retention limiter) := by
  cases limiter with
  | login =>
    refine ⟨config.maxLoginClients, ?_⟩
    funext state client now
    exact if_neg (hon rfl)
  | query => exact ⟨config.maxQueryClients, rfl⟩

namespace Admitting

open TokenBucket

variable {config : AdmissionConfig} {limiter : ClientLimiter} {client : IpAddr} {s T : ℚ}

/-- What the client can still spend. -/
def level (config : AdmissionConfig) (limiter : ClientLimiter) (client : IpAddr)
    (sys : Admitting) : ℚ :=
  TokenBucket.level (config.rate limiter) (config.burst limiter) (sys.limiter.bucketOf client)
    sys.clock

/-- With `granted` calls allowed in the window so far: before it nothing is spent, and in it
what was spent and what is left are no more than a burst and what the window added. -/
structure Bounded (config : AdmissionConfig) (limiter : ClientLimiter) (client : IpAddr)
    (s T : ℚ) (granted : Nat) (sys : Admitting) : Prop where
  read : ∀ call ∈ sys.waiting, call.2 ≤ sys.clock
  unspent : sys.clock.secs < s → granted = 0
  spent : s ≤ sys.clock.secs → sys.clock.secs ≤ s + T →
    granted + sys.level config limiter client ≤
      config.burst limiter + config.rate limiter * (sys.clock.secs - s)
  total : (granted : ℚ) ≤ config.burst limiter + config.rate limiter * T

theorem Bounded.start (clock : Instant) (hrate : 0 ≤ config.rate limiter) (hT : 0 ≤ T) :
    Bounded config limiter client s T 0 (start clock) where
  read := nofun
  unspent _ := rfl
  spent hs _ := by
    have hlevel := level_le_burst (config.rate limiter) (config.burst limiter)
      ((Admitting.start clock).limiter.bucketOf client) clock
    have hgain := mul_nonneg hrate (sub_nonneg.mpr hs)
    show ((0 : Nat) : ℚ) + TokenBucket.level _ _ _ clock ≤ _
    push_cast
    linarith
  total := by
    have hgain := mul_nonneg hrate hT
    push_cast
    positivity

theorem Bounded.advance {granted : Nat} {sys : Admitting} (hrate : 0 ≤ config.rate limiter)
    (h : Bounded config limiter client s T granted sys) (elapsed : Nat) :
    Bounded config limiter client s T granted { sys with clock := sys.clock + elapsed } where
  read call hcall := (h.read call hcall).trans (Nat.le_add_right _ _)
  unspent hs := by
    refine h.unspent (lt_of_le_of_lt ?_ hs)
    exact Instant.secs_le (Nat.le_add_right _ _)
  spent hs hT := by
    have hsecs := Instant.secs_add sys.clock elapsed
    have helapsed := Instant.secs_nonneg elapsed
    show (granted : ℚ) + TokenBucket.level _ _ _ (sys.clock + elapsed) ≤ _
    change s ≤ Instant.secs (sys.clock + elapsed) at hs
    change Instant.secs (sys.clock + elapsed) ≤ s + T at hT
    show _ ≤ _ + config.rate limiter * (Instant.secs (sys.clock + elapsed) - s)
    rcases lt_or_ge sys.clock.secs s with hbefore | hafter
    · -- the window opens meanwhile, and the bucket is full at most
      rw [h.unspent hbefore, Nat.cast_zero, zero_add]
      have hlevel := level_le_burst (config.rate limiter) (config.burst limiter)
        (sys.limiter.bucketOf client) (sys.clock + elapsed)
      have hgain := mul_nonneg hrate (sub_nonneg.mpr hs)
      linarith
    · have hlevel := level_advance (config.burst limiter) hrate (sys.limiter.bucketOf client)
        sys.clock elapsed
      have hspent := h.spent hafter (by linarith)
      unfold level at hspent
      rw [hsecs]
      linarith
  total := h.total

/-- A step that changes the bucket spends what it grants. -/
theorem Bounded.enter {granted g : Nat} {sys next : Admitting}
    (h : Bounded config limiter client s T granted sys) (hrate : 0 ≤ config.rate limiter)
    (hclock : next.clock = sys.clock) (hread : ∀ call ∈ next.waiting, call.2 ≤ next.clock)
    (hout : ¬ (s ≤ sys.clock.secs ∧ sys.clock.secs ≤ s + T) → g = 0)
    (hin : s ≤ sys.clock.secs → sys.clock.secs ≤ s + T →
      g + next.level config limiter client ≤ sys.level config limiter client ∧
        (g ≠ 0 → 0 ≤ next.level config limiter client)) :
    Bounded config limiter client s T (granted + g) next where
  read := hread
  unspent hs := by
    rw [hclock] at hs
    rw [h.unspent hs, hout fun hw => absurd hw.1 (not_le.mpr hs)]
  spent hs hT := by
    rw [hclock] at hs hT ⊢
    have hspent := h.spent hs hT
    have hstep := (hin hs hT).1
    push_cast
    linarith
  total := by
    by_cases hg : g = 0
    · rw [hg, Nat.add_zero]
      exact h.total
    · have hwin := not_imp_comm.mp hout hg
      obtain ⟨hstep, hnonneg⟩ := hin hwin.1 hwin.2
      have hspent := h.spent hwin.1 hwin.2
      have hlevel := hnonneg hg
      have hgain : config.rate limiter * (sys.clock.secs - s) ≤ config.rate limiter * T :=
        mul_le_mul_of_nonneg_left (by linarith) hrate
      push_cast
      linarith

/-- What a token call of the client does to its level. -/
theorem level_ownCall (hburst : 1 ≤ config.burst limiter) (hrate : 0 ≤ config.rate limiter)
    {call : TokenCall} (hnow : call.now ≤ call.time) (htimely : call.Timely config limiter)
    (hkeeps : call.Keeps config limiter call.client) :
    let taken := config.tryTake limiter call.before call.client call.now
    let after := TokenBucket.level (config.rate limiter) (config.burst limiter)
      (taken.2.bucketOf call.client) call.time
    (if taken.1 then 1 else 0 : ℚ) + after ≤
        TokenBucket.level (config.rate limiter) (config.burst limiter)
          (call.before.bucketOf call.client) call.time ∧
      (taken.1 = true → 0 ≤ after) := by
  intro taken after
  obtain ⟨maxClients, heq⟩ := config.tryTake_eq limiter htimely.1
  have htaken : taken = call.before.tryTakeClientToken (config.rate limiter)
      (config.burst limiter) maxClients (config.retention limiter) call.client call.now :=
    congrFun (congrFun (congrFun heq call.before) call.client) call.now
  -- tokens that are not negative and a rate that is not give a level that is not
  have hnonneg : ∀ b : TokenBucket, 0 ≤ b.tokens →
      0 ≤ TokenBucket.level (config.rate limiter) (config.burst limiter) (some b) call.time := by
    intro b hb
    have hrefill := mul_nonneg (Instant.secs_nonneg (call.time - b.lastRefill)) hrate
    exact le_min (by linarith) (Nat.cast_nonneg _)
  have htime := htimely.2
  cases hbefore : call.before.bucketOf call.client with
  | none =>
    rw [hbefore] at htime
    unfold after
    rw [htaken]
    rcases ClientLimiterState.tryTake_of_none hbefore with ⟨hgrant, hnew⟩ | ⟨hrefuse, hnew⟩
    · rw [hgrant, hnew, if_pos rfl]
      exact ⟨level_first _ hburst htime, fun _ => hnonneg _ (Nat.cast_nonneg _)⟩
    · rw [hrefuse, hnew]
      exact ⟨by simp, nofun⟩
  | some bucket =>
    rw [hbefore] at htime
    -- pruning keeps the bucket, and what it keeps it does not change
    have hpruned := (ClientLimiterState.sheds_pruneClientBuckets call.before call.now
      (config.retention limiter)).bucketOf_eq (hkeeps (by rw [hbefore]; rfl)).1
    rw [hbefore] at hpruned
    obtain ⟨hfst, hsnd⟩ := ClientLimiterState.tryTake_of_some (config.rate limiter)
      (config.burst limiter) maxClients hpruned
    unfold after
    rw [htaken, hfst, hsnd]
    refine ⟨level_takeToken _ hnow htime, fun hgrant => hnonneg _ ?_⟩
    exact (takeToken_spec _ bucket _ call.now).2.2 hgrant

/-- A call of another client leaves the bucket or takes all of it. -/
theorem tryTake_other (config : AdmissionConfig) (limiter : ClientLimiter)
    (state : ClientLimiterState) {client client' : IpAddr} (now : Instant)
    (hne : client ≠ client') :
    (config.tryTake limiter state client now).2.bucketOf client' = state.bucketOf client' ∨
      (config.tryTake limiter state client now).2.bucketOf client' = none := by
  cases limiter with
  | query => exact ClientLimiterState.sheds_of_other hne
  | login =>
    show (config.tryTakeClientLoginToken state client now).2.bucketOf client' = _ ∨
      (config.tryTakeClientLoginToken state client now).2.bucketOf client' = none
    unfold AdmissionConfig.tryTakeClientLoginToken
    split
    · exact Or.inl rfl
    · exact ClientLimiterState.sheds_of_other hne

/-- One step. Only a timely call of the client inside the window counts against the bound. -/
theorem Bounded.step {granted : Nat} {sys : Admitting}
    (h : Bounded config limiter client s T granted sys) (hburst : 1 ≤ config.burst limiter)
    (hrate : 0 ≤ config.rate limiter) (act : AdmitStep)
    (hkeeps : ∀ call ∈ (sys.step config limiter act).2, call.Within s T →
      call.Keeps config limiter client)
    (htimely : ∀ call ∈ (sys.step config limiter act).2, call.client = client →
      call.Within s T → call.Timely config limiter) :
    Bounded config limiter client s T
      (granted + TokenCall.granted client s T (sys.step config limiter act).2.toList)
      (sys.step config limiter act).1 := by
  cases act with
  | advance elapsed => exact h.advance hrate elapsed
  | readClock client' =>
    refine ⟨fun call hcall => ?_, h.unspent, h.spent, h.total⟩
    rcases List.mem_append.mp hcall with hold | hnew
    · exact h.read call hold
    · rw [List.mem_singleton.mp hnew]
      exact le_refl _
  | enter i =>
    cases hcall : sys.waiting[i]? with
    | none =>
      have hstep : sys.step config limiter (.enter i) = (sys, none) := by
        simp only [Admitting.step, hcall]
      rw [hstep]
      exact h
    | some entry =>
      obtain ⟨client', now⟩ := entry
      have hstep : sys.step config limiter (.enter i) =
          (⟨sys.clock, sys.waiting.eraseIdx i,
              (config.tryTake limiter sys.limiter client' now).2⟩,
            some ⟨sys.limiter, client', now, sys.clock,
              (config.tryTake limiter sys.limiter client' now).1⟩) := by
        simp only [Admitting.step, hcall]
      rw [hstep] at hkeeps htimely ⊢
      simp only [Option.mem_some_iff, forall_eq'] at hkeeps htimely
      have hnow : now ≤ sys.clock := h.read _ (List.mem_of_getElem? hcall)
      have hread : ∀ call ∈ sys.waiting.eraseIdx i, call.2 ≤ sys.clock :=
        fun call hmem => h.read call (List.mem_of_mem_eraseIdx hmem)
      refine h.enter hrate rfl hread (fun hout => ?_) (fun hs hT => ?_)
      · -- outside the window no call counts
        refine List.countP_eq_zero.mpr fun call hmem => ?_
        rw [Option.toList_some, List.mem_singleton] at hmem
        subst hmem
        exact fun hcount => hout (of_decide_eq_true hcount).2.1
      · have hwithin : s ≤ sys.clock.secs ∧ sys.clock.secs ≤ s + T := ⟨hs, hT⟩
        by_cases hown : client' = client
        · subst hown
          obtain ⟨hspend, hnonneg⟩ := level_ownCall hburst hrate hnow (htimely rfl hwithin)
            (hkeeps hwithin)
          -- the call counts when it is allowed
          have hcount : TokenCall.granted client' s T
              (some (⟨sys.limiter, client', now, sys.clock,
                (config.tryTake limiter sys.limiter client' now).1⟩ : TokenCall)).toList =
              if (config.tryTake limiter sys.limiter client' now).1 then 1 else 0 := by
            unfold TokenCall.granted
            rw [Option.toList_some, List.countP_singleton]
            refine if_congr ?_ rfl rfl
            rw [decide_eq_true_iff]
            exact ⟨fun hc => hc.2.2, fun hc => ⟨rfl, hwithin, hc⟩⟩
          rw [hcount]
          refine ⟨?_, fun hne => hnonneg ?_⟩
          · push_cast
            exact hspend
          · by_contra hrefused
            exact hne (if_neg hrefused)
        · have hcount : TokenCall.granted client s T
              (some (⟨sys.limiter, client', now, sys.clock,
                (config.tryTake limiter sys.limiter client' now).1⟩ : TokenCall)).toList = 0 := by
            refine List.countP_eq_zero.mpr fun call hmem => ?_
            rw [Option.toList_some, List.mem_singleton] at hmem
            subst hmem
            exact fun hcount => hown (of_decide_eq_true hcount).1
          rw [hcount]
          -- the call of another client finds the bucket and leaves it
          have hsame : (config.tryTake limiter sys.limiter client' now).2.bucketOf client =
              sys.limiter.bucketOf client := by
            rcases tryTake_other config limiter sys.limiter now hown with hsame | hgone
            · exact hsame
            · cases hbefore : sys.limiter.bucketOf client with
              | none => exact hgone
              | some bucket =>
                have hthere := (hkeeps hwithin (by rw [hbefore]; rfl)).2
                rw [hgone] at hthere
                cases hthere
          refine ⟨?_, fun hne => absurd rfl hne⟩
          unfold level
          rw [hsame]
          push_cast
          linarith

/-- A whole run. -/
theorem Bounded.run {granted : Nat} {sys : Admitting}
    (h : Bounded config limiter client s T granted sys) (hburst : 1 ≤ config.burst limiter)
    (hrate : 0 ≤ config.rate limiter) (acts : List AdmitStep)
    (hkeeps : ∀ call ∈ sys.calls config limiter acts, call.Within s T →
      call.Keeps config limiter client)
    (htimely : ∀ call ∈ sys.calls config limiter acts, call.client = client →
      call.Within s T → call.Timely config limiter) :
    ((granted + TokenCall.granted client s T (sys.calls config limiter acts) : Nat) : ℚ) ≤
      config.burst limiter + config.rate limiter * T := by
  induction acts generalizing granted sys with
  | nil => exact h.total
  | cons act acts ih =>
    unfold calls at hkeeps htimely ⊢
    have hstep := h.step hburst hrate act
      (fun call hcall => hkeeps call (List.mem_append_left _ (Option.mem_toList.mpr hcall)))
      (fun call hcall => htimely call (List.mem_append_left _ (Option.mem_toList.mpr hcall)))
    have hrest := ih hstep (fun call hcall => hkeeps call (List.mem_append_right _ hcall))
      (fun call hcall => htimely call (List.mem_append_right _ hcall))
    rw [Nat.add_assoc] at hrest
    show ((granted + List.countP _ (_ ++ _) : Nat) : ℚ) ≤ _
    rw [List.countP_append]
    exact hrest

end Admitting

/-! ## The rate limit -/

/-- In a window without a late stamp a client is allowed a burst and what the rate adds. -/
theorem AdmissionConfig.granted_le (config : AdmissionConfig) (limiter : ClientLimiter)
    (clock : Instant) (acts : List AdmitStep) (client : IpAddr) (s T : ℚ)
    (hburst : 1 ≤ config.burst limiter) (hrate : 0 ≤ config.rate limiter) (hT : 0 ≤ T)
    (hkeeps : ∀ call ∈ (Admitting.start clock).calls config limiter acts, call.Within s T →
      call.Keeps config limiter client)
    (htimely : ∀ call ∈ (Admitting.start clock).calls config limiter acts,
      call.client = client → call.Within s T → call.Timely config limiter) :
    (TokenCall.granted client s T ((Admitting.start clock).calls config limiter acts) : ℚ) ≤
      config.burst limiter + config.rate limiter * T := by
  have hrun := (Admitting.Bounded.start clock hrate hT).run hburst hrate acts hkeeps htimely
  rw [Nat.zero_add] at hrun
  exact hrun

namespace Turnstile

/-- A token a second, and no more than one saved. -/
def gate : AdmissionConfig := ⟨1, 1, 8, 600 * 10 ^ 9, 1, 1, 8, 600 * 10 ^ 9⟩

def walker : IpAddr := .v4 1

/-- The clock read again and again at the gate. -/
def orderly : List AdmitStep :=
  [.readClock walker, .enter 0, .readClock walker, .enter 0, .advance (10 ^ 9),
    .readClock walker, .enter 0]

/-- A call that reads the clock early and comes to the lock ten seconds later, between two
others. -/
def belated : List AdmitStep :=
  [.readClock walker, .advance (10 * 10 ^ 9), .readClock walker, .enter 1, .enter 0,
    .readClock walker, .enter 0]

theorem orderly_granted :
    (TokenCall.granted walker 0 1 ((Admitting.start 0).calls gate .query orderly) : ℚ) ≤
      gate.burst .query + gate.rate .query * 1 :=
  gate.granted_le .query 0 orderly walker 0 1 (le_refl _) (by decide +kernel) (by decide +kernel)
    (by decide +kernel) (by decide +kernel)

/-- The refill time goes back to the early reading, and the ten seconds are credited again: two
calls in one moment, where one token is all there can be. -/
theorem belated_exceeds :
    ¬ ∀ (config : AdmissionConfig) (limiter : ClientLimiter) (clock : Instant)
      (acts : List AdmitStep) (client : IpAddr) (s T : ℚ),
      (limiter = .login → config.maxLoginClients ≠ 0) →
      1 ≤ config.burst limiter → 0 ≤ config.rate limiter → 0 ≤ T →
      (∀ call ∈ (Admitting.start clock).calls config limiter acts,
        call.Keeps config limiter client) →
      (TokenCall.granted client s T ((Admitting.start clock).calls config limiter acts) : ℚ) ≤
        config.burst limiter + config.rate limiter * T := by
  intro hclaim
  have hbound := hclaim gate .query 0 belated walker 10 0 nofun (le_refl _) (by decide +kernel)
    (le_refl _) (by decide +kernel)
  exact absurd hbound (by decide +kernel)

end Turnstile

end StellarDb
