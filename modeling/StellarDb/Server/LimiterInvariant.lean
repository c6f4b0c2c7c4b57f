import StellarDb.Server.Admission

/-!
# StellarDb — the buckets and the order of a client limiter

A limiter keeps its buckets in a map and, for each touch of a bucket, an entry in a heap by the
time of the touch. Entries are not taken out when a bucket is touched again: an entry counts only
while its generation is the one of the bucket.

`Represented` is what ties the two together. Generations are given out once, so of the entries of
a bucket exactly one counts, and it has the time the bucket was last seen; entries leave the heap by
time, so the first that counts is of a bucket that was not seen for longest (`evictLoop_spec`). Each
call keeps this, and with it the bounds of the map and of the heap (`limiter_represented`).
-/

namespace StellarDb

open Entries

/-- The entry of a bucket that counts. -/
def orderOf (e : IpAddr × ClientBucket) : ClientOrder := ⟨e.2.lastSeen, e.2.generation, e.1⟩

/-- The order has an entry for each bucket, and no generation twice. -/
structure Represented (buckets : List (IpAddr × ClientBucket)) (order : List ClientOrder) :
    Prop where
  clients : (buckets.map Prod.fst).Nodup
  sorted : order.Pairwise fun a b => a.lastSeen ≤ b.lastSeen
  generations : (order.map ClientOrder.generation).Nodup
  listed : ∀ e ∈ buckets, orderOf e ∈ order

theorem pushOrder_perm (o : ClientOrder) (order : List ClientOrder) :
    (pushOrder o order).Perm (o :: order) := by
  induction order with
  | nil => exact List.Perm.refl _
  | cons a order ih =>
    unfold pushOrder
    split
    · exact List.Perm.refl _
    · exact (ih.cons a).trans (List.Perm.swap o a order)

theorem mem_pushOrder {o a : ClientOrder} {order : List ClientOrder} :
    a ∈ pushOrder o order ↔ a = o ∨ a ∈ order :=
  (pushOrder_perm o order).mem_iff.trans List.mem_cons

/-- What is pushed goes behind what is older. -/
theorem sorted_pushOrder {order : List ClientOrder} (o : ClientOrder)
    (h : order.Pairwise fun a b => a.lastSeen ≤ b.lastSeen) :
    (pushOrder o order).Pairwise fun a b => a.lastSeen ≤ b.lastSeen := by
  induction order with
  | nil => exact List.pairwise_singleton _ _
  | cons a order ih =>
    rw [List.pairwise_cons] at h
    unfold pushOrder
    split
    · next hle =>
      have hoa : o.lastSeen ≤ a.lastSeen := by
        simp only [ClientOrder.le, Bool.or_eq_true, Bool.and_eq_true, decide_eq_true_eq] at hle
        rcases hle with hlt | ⟨heq, -⟩
        · exact Nat.le_of_lt hlt
        · exact Nat.le_of_eq heq
      refine List.pairwise_cons.mpr ⟨fun b hb => ?_, List.pairwise_cons.mpr h⟩
      rcases List.mem_cons.mp hb with rfl | hb
      · exact hoa
      · exact hoa.trans (h.1 b hb)
    · next hle =>
      have hao : a.lastSeen ≤ o.lastSeen := by
        simp only [ClientOrder.le, Bool.or_eq_true, decide_eq_true_eq, not_or, not_lt] at hle
        exact hle.1
      refine List.pairwise_cons.mpr ⟨fun b hb => ?_, ih h.2⟩
      rcases mem_pushOrder.mp hb with rfl | hb
      · exact hao
      · exact h.1 b hb

namespace Represented

variable {buckets : List (IpAddr × ClientBucket)} {order : List ClientOrder}

theorem nil : Represented [] [] where
  clients := List.nodup_nil
  sorted := List.Pairwise.nil
  generations := List.nodup_nil
  listed := nofun

variable {candidate : ClientOrder}

theorem entry_unique (h : Represented buckets order) {a b : ClientOrder} (ha : a ∈ order)
    (hb : b ∈ order) (hab : a.generation = b.generation) : a = b :=
  List.inj_on_of_nodup_map h.generations ha hb hab

/-- Of the entries with the client and the generation of a bucket there is one. -/
theorem filter_eq (h : Represented buckets order) {e : IpAddr × ClientBucket} (he : e ∈ buckets) :
    order.filter (fun o => o.client = e.1 ∧ o.generation = e.2.generation) = [orderOf e] := by
  have hmem := h.listed e he
  have hnodup : order.Nodup := h.generations.of_map _
  have hall : ∀ o ∈ order, (decide (o.client = e.1 ∧ o.generation = e.2.generation)) =
      decide (o = orderOf e) := by
    intro o ho
    rw [decide_eq_decide]
    constructor
    · intro heq
      exact h.entry_unique ho hmem heq.2
    · intro heq
      rw [heq]
      exact ⟨rfl, rfl⟩
  rw [List.filter_congr hall, List.filter_eq, List.count_eq_one_of_mem hnodup hmem]
  rfl

/-- The entry that counts has the time its bucket was last seen. -/
theorem counts_eq (h : Represented buckets (candidate :: order)) {entry : ClientBucket}
    (hlookup : buckets.lookup candidate.client = some entry)
    (hgeneration : entry.generation = candidate.generation) :
    orderOf (candidate.client, entry) = candidate :=
  h.entry_unique (h.listed _ ((mem_iff_lookup h.clients).mpr hlookup)) List.mem_cons_self
    hgeneration

/-- An entry that does not count may go. -/
theorem popStale (h : Represented buckets (candidate :: order))
    (hstale : ∀ entry, buckets.lookup candidate.client = some entry →
      entry.generation ≠ candidate.generation) : Represented buckets order where
  clients := h.clients
  sorted := (List.pairwise_cons.mp h.sorted).2
  generations := (List.nodup_cons.mp h.generations).2
  listed e he := by
    refine (List.mem_cons.mp (h.listed e he)).resolve_left fun heq => ?_
    have hlookup := (mem_iff_lookup h.clients).mp he
    rw [show e.1 = candidate.client from congrArg ClientOrder.client heq] at hlookup
    exact hstale e.2 hlookup (congrArg ClientOrder.generation heq)

/-- An entry may go with the bucket of its client. -/
theorem popErase (h : Represented buckets (candidate :: order)) :
    Represented (eraseEntry buckets candidate.client) order where
  clients := nodup_eraseEntry h.clients _
  sorted := (List.pairwise_cons.mp h.sorted).2
  generations := (List.nodup_cons.mp h.generations).2
  listed e he := by
    obtain ⟨hmem, hne⟩ := mem_eraseEntry.mp he
    exact (List.mem_cons.mp (h.listed e hmem)).resolve_left fun heq =>
      hne (congrArg ClientOrder.client heq)

/-- Buckets that are seen at different times have different generations. -/
theorem eq_of_generation (h : Represented buckets order) {e e' : IpAddr × ClientBucket}
    (he : e ∈ buckets) (he' : e' ∈ buckets) (heq : e.2.generation = e'.2.generation) : e = e' :=
  List.inj_on_of_nodup_map h.clients he he'
    (congrArg ClientOrder.client (h.entry_unique (h.listed e he) (h.listed e' he') heq))

end Represented

namespace ClientLimiterState

/-! ## The loops -/

theorem represented_pruneLoop (now : Instant) (retention : Nat)
    {buckets : List (IpAddr × ClientBucket)} {order : List ClientOrder}
    (h : Represented buckets order) :
    Represented (pruneLoop now retention order buckets).1
        (pruneLoop now retention order buckets).2 ∧
      (pruneLoop now retention order buckets).2 <:+ order ∧
      (pruneLoop now retention order buckets).1.length ≤ buckets.length := by
  induction order generalizing buckets with
  | nil => exact ⟨h, List.suffix_refl _, Nat.le_refl _⟩
  | cons candidate order ih =>
    have hsuffix := List.suffix_cons candidate order
    unfold pruneLoop
    split
    · next hnone =>
      obtain ⟨hrep, htail, hlen⟩ := ih (h.popStale fun entry hentry => by
        rw [hnone] at hentry
        cases hentry)
      exact ⟨hrep, htail.trans hsuffix, hlen⟩
    · next entry hentry =>
      split
      · next hgeneration =>
        obtain ⟨hrep, htail, hlen⟩ := ih (h.popStale fun entry' hentry' => by
          rw [hentry] at hentry'
          obtain rfl := Option.some.inj hentry'
          exact hgeneration)
        exact ⟨hrep, htail.trans hsuffix, hlen⟩
      split
      · exact ⟨h, List.suffix_refl _, Nat.le_refl _⟩
      · obtain ⟨hrep, htail, hlen⟩ := ih h.popErase
        exact ⟨hrep, htail.trans hsuffix, hlen.trans (List.length_filter_le _ _)⟩

/-- With buckets left an eviction takes one that was not seen for longest. -/
theorem evictLoop_spec {buckets : List (IpAddr × ClientBucket)} {order : List ClientOrder}
    (h : Represented buckets order) (hne : buckets ≠ []) :
    ∃ e ∈ buckets, (∀ e' ∈ buckets, e.2.lastSeen ≤ e'.2.lastSeen) ∧
      ∃ rest, evictLoop order buckets = (true, eraseEntry buckets e.1, rest) ∧ rest <:+ order ∧
        Represented (eraseEntry buckets e.1) rest := by
  induction order with
  | nil =>
    obtain ⟨e, he⟩ := List.exists_mem_of_ne_nil _ hne
    exact absurd (h.listed e he) List.not_mem_nil
  | cons candidate order ih =>
    have hsuffix := List.suffix_cons candidate order
    unfold evictLoop
    split
    · next hnone =>
      obtain ⟨e, he, hmin, rest, hloop, htail, hrep⟩ := ih (h.popStale fun entry hentry => by
        rw [hnone] at hentry
        cases hentry)
      exact ⟨e, he, hmin, rest, hloop, htail.trans hsuffix, hrep⟩
    · next entry hentry =>
      split
      · next hgeneration =>
        obtain ⟨e, he, hmin, rest, hloop, htail, hrep⟩ := ih (h.popStale fun entry' hentry' => by
          rw [hentry] at hentry'
          obtain rfl := Option.some.inj hentry'
          exact hgeneration)
        exact ⟨e, he, hmin, rest, hloop, htail.trans hsuffix, hrep⟩
      · next hgeneration =>
        have hcounts := h.counts_eq hentry (not_not.mp hgeneration)
        refine ⟨(candidate.client, entry), (mem_iff_lookup h.clients).mpr hentry, ?_, order, rfl,
          hsuffix, h.popErase⟩
        -- the other entries that count are behind this one
        intro e' he'
        show (orderOf (candidate.client, entry)).lastSeen ≤ (orderOf e').lastSeen
        rw [hcounts]
        rcases List.mem_cons.mp (h.listed e' he') with heq | hmem
        · rw [heq]
        · exact (List.pairwise_cons.mp h.sorted).1 _ hmem

/-! ## The operations -/

/-- The buckets and their order, and the generations given out so far. -/
structure Kept (s : ClientLimiterState) : Prop where
  represented : Represented s.buckets s.order
  given : ∀ o ∈ s.order, o.generation ≤ s.nextGeneration

theorem Kept.empty : Kept ClientLimiterState.empty := ⟨.nil, nofun⟩

variable {s : ClientLimiterState}

theorem kept_rebuildClientOrder (h : s.Kept) : s.rebuildClientOrder.Kept := by
  have hperm : s.rebuildClientOrder.order.Perm (s.buckets.map orderOf) := by
    show ((s.buckets.map orderOf).foldr pushOrder []).Perm (s.buckets.map orderOf)
    induction s.buckets.map orderOf with
    | nil => exact List.Perm.refl _
    | cons o order ih => exact (pushOrder_perm o _).trans (ih.cons o)
  have hsorted : s.rebuildClientOrder.order.Pairwise fun a b => a.lastSeen ≤ b.lastSeen := by
    show ((s.buckets.map orderOf).foldr pushOrder []).Pairwise _
    induction s.buckets.map orderOf with
    | nil => exact List.Pairwise.nil
    | cons o order ih => exact sorted_pushOrder o ih
  have hrep := h.represented
  refine ⟨⟨hrep.clients, hsorted, ?_, fun e he => ?_⟩, fun o ho => ?_⟩
  · rw [(hperm.map _).nodup_iff, List.map_map]
    exact (List.Nodup.of_map _ hrep.clients).map_on fun e he e' he' heq =>
      hrep.eq_of_generation he he' heq
  · exact hperm.mem_iff.mpr (List.mem_map_of_mem he)
  · obtain ⟨e, he, rfl⟩ := List.mem_map.mp (hperm.mem_iff.mp ho)
    exact h.given _ (hrep.listed e he)

theorem length_rebuildClientOrder (s : ClientLimiterState) :
    s.rebuildClientOrder.order.length = s.buckets.length := by
  show ((s.buckets.map orderOf).foldr pushOrder []).length = s.buckets.length
  have hmap : (s.buckets.map orderOf).length = s.buckets.length := List.length_map orderOf
  rw [← hmap]
  induction s.buckets.map orderOf with
  | nil => rfl
  | cons o order ih => exact (pushOrder_perm o _).length_eq.trans (congrArg Nat.succ ih)

/-- The heap after a compaction. -/
theorem kept_compact (h : s.Kept) : s.compactClientOrderIfNeeded.Kept ∧
    s.compactClientOrderIfNeeded.nextGeneration = s.nextGeneration ∧
    s.compactClientOrderIfNeeded.order.length ≤ max 64 (4 * s.buckets.length) := by
  unfold compactClientOrderIfNeeded
  dsimp only
  split
  · refine ⟨kept_rebuildClientOrder h, rfl, ?_⟩
    rw [length_rebuildClientOrder]
    omega
  · next hshort => exact ⟨h, rfl, by omega⟩

theorem kept_pruneClientBuckets (h : s.Kept) (now : Instant) (retention : Nat) :
    (s.pruneClientBuckets now retention).Kept ∧
      (s.pruneClientBuckets now retention).nextGeneration = s.nextGeneration ∧
      (s.pruneClientBuckets now retention).buckets.length ≤ s.buckets.length := by
  obtain ⟨hrep, htail, hlen⟩ := represented_pruneLoop now retention h.represented
  have hpruned : Kept { s with
      buckets := (pruneLoop now retention s.order s.buckets).1,
      order := (pruneLoop now retention s.order s.buckets).2 } :=
    ⟨hrep, fun o ho => h.given o (htail.subset ho)⟩
  obtain ⟨hkept, hnext, -⟩ := kept_compact hpruned
  refine ⟨hkept, hnext, ?_⟩
  unfold pruneClientBuckets
  rw [buckets_compactClientOrderIfNeeded]
  exact hlen

/-- An eviction from a limiter with buckets. -/
theorem evict_spec (h : s.Kept) (hne : s.buckets ≠ []) :
    ∃ e ∈ s.buckets, (∀ e' ∈ s.buckets, e.2.lastSeen ≤ e'.2.lastSeen) ∧
      s.evictOldestClientBucket.1 = true ∧
      s.evictOldestClientBucket.2.buckets = eraseEntry s.buckets e.1 ∧
      s.evictOldestClientBucket.2.nextGeneration = s.nextGeneration ∧
      s.evictOldestClientBucket.2.Kept := by
  obtain ⟨e, he, hmin, rest, hloop, htail, hrep⟩ := evictLoop_spec h.represented hne
  refine ⟨e, he, hmin, ?_⟩
  unfold evictOldestClientBucket
  rw [hloop]
  exact ⟨rfl, rfl, rfl, hrep, fun o ho => h.given o (htail.subset ho)⟩

theorem kept_evict (h : s.Kept) : s.evictOldestClientBucket.2.Kept := by
  by_cases hne : s.buckets = []
  · -- nothing counts, and the heap is drained
    have hloop : ∀ order : List ClientOrder, evictLoop order [] = (false, [], []) := by
      intro order
      induction order with
      | nil => rfl
      | cons candidate order ih => exact ih
    unfold evictOldestClientBucket
    rw [hne, hloop]
    exact ⟨.nil, nofun⟩
  · obtain ⟨_, _, _, _, _, _, hkept⟩ := evict_spec h hne
    exact hkept

/-- There is room for a new client after at most as many evictions as the heap has entries. -/
theorem makeRoom_spec {maxClients n : Nat} (h : s.Kept) (hmax : 1 ≤ maxClients)
    (hn : s.order.length ≤ n) :
    ∃ t, s.makeRoom maxClients n = (true, t) ∧ t.Kept ∧ t.buckets.length < maxClients ∧
      t.nextGeneration = s.nextGeneration := by
  induction n generalizing s with
  | zero =>
    have hempty : s.buckets = [] := by
      by_contra hne
      obtain ⟨e, he⟩ := List.exists_mem_of_ne_nil _ hne
      have hmem := h.represented.listed e he
      rw [List.length_eq_zero_iff.mp (Nat.le_zero.mp hn)] at hmem
      cases hmem
    have hlt : s.buckets.length < maxClients := by
      rw [hempty]
      exact hmax
    exact ⟨s, by rw [makeRoom, decide_eq_true hlt], h, hlt, rfl⟩
  | succ n ih =>
    unfold makeRoom
    by_cases hlt : s.buckets.length < maxClients
    · rw [if_pos hlt]
      exact ⟨s, rfl, h, hlt, rfl⟩
    · rw [if_neg hlt]
      have hne : s.buckets ≠ [] := by
        intro hnil
        rw [hnil] at hlt
        exact hlt hmax
      obtain ⟨e, he, -, hevicted, -, hnext, hkept⟩ := evict_spec h hne
      have hpair : s.evictOldestClientBucket = (true, s.evictOldestClientBucket.2) :=
        Prod.ext hevicted rfl
      have hless := length_evictOldestClientBucket hpair
      obtain ⟨t, ht, hroom, hlen, hgeneration⟩ := ih hkept (by omega)
      rw [hpair]
      exact ⟨t, ht, hroom, hlen, hgeneration.trans hnext⟩

/-- A bucket is put in, or changed, and touched. -/
theorem kept_touch (h : s.Kept) (hnext : s.nextGeneration + 1 < 2 ^ 64) (client : IpAddr)
    (entry : ClientBucket) (now : Instant) {t : ClientLimiterState}
    (ht : t = { s with buckets := insertEntry s.buckets client entry }.touchClientBucket client
      now) :
    t.Kept ∧ t.nextGeneration = s.nextGeneration + 1 ∧
      t.order.length ≤ max 64 (4 * t.buckets.length) ∧
      t.buckets.length = (insertEntry s.buckets client entry).length := by
  have hgeneration : (s.nextGeneration + 1) % 2 ^ 64 = s.nextGeneration + 1 :=
    Nat.mod_eq_of_lt hnext
  have htouch : t = compactClientOrderIfNeeded
      ⟨insertEntry s.buckets client ⟨entry.bucket, now, s.nextGeneration + 1⟩,
        pushOrder ⟨now, s.nextGeneration + 1, client⟩ s.order, s.nextGeneration + 1⟩ := by
    rw [ht, touchClientBucket, nextTouch]
    dsimp only
    rw [hgeneration, if_neg (Nat.succ_ne_zero _)]
    dsimp only
    rw [lookup_insertEntry, if_pos rfl]
    dsimp only
    rw [insertEntry_insertEntry]
  have hrep := h.represented
  have hkept : Kept ⟨insertEntry s.buckets client ⟨entry.bucket, now, s.nextGeneration + 1⟩,
      pushOrder ⟨now, s.nextGeneration + 1, client⟩ s.order, s.nextGeneration + 1⟩ := by
    refine ⟨⟨nodup_insertEntry hrep.clients _ _, sorted_pushOrder _ hrep.sorted, ?_,
      fun e he => ?_⟩, fun o ho => ?_⟩
    · -- the generation is a new one
      rw [((pushOrder_perm _ s.order).map _).nodup_iff, List.map_cons, List.nodup_cons]
      refine ⟨fun hmem => ?_, hrep.generations⟩
      obtain ⟨o, ho, hgen⟩ := List.mem_map.mp hmem
      have hle := h.given o ho
      rw [hgen] at hle
      exact absurd hle (Nat.not_succ_le_self _)
    · rcases mem_insertEntry.mp he with rfl | ⟨hmem, -⟩
      · exact mem_pushOrder.mpr (.inl rfl)
      · exact mem_pushOrder.mpr (.inr (hrep.listed e hmem))
    · rcases mem_pushOrder.mp ho with rfl | hmem
      · exact Nat.le_refl _
      · exact (h.given o hmem).trans (Nat.le_succ _)
  obtain ⟨hcompact, hcounter, hlen⟩ := kept_compact hkept
  rw [htouch]
  refine ⟨hcompact, hcounter, ?_, ?_⟩
  · rw [buckets_compactClientOrderIfNeeded]
    exact hlen
  · rw [buckets_compactClientOrderIfNeeded]
    rfl

/-! ## Calls -/

/-- What holds after `calls` calls. -/
structure Sound (maxClients calls : Nat) (s : ClientLimiterState) : Prop where
  kept : s.Kept
  buckets : s.buckets.length ≤ maxClients
  order : s.order.length ≤ max 64 (4 * s.buckets.length)
  generation : s.nextGeneration ≤ calls

variable {maxClients calls : Nat}

theorem Sound.empty (maxClients : Nat) : Sound maxClients 0 ClientLimiterState.empty where
  kept := .empty
  buckets := Nat.zero_le _
  order := Nat.zero_le _
  generation := Nat.le_refl _

/-- One call: the limiter stays sound, and a client without a bucket gets one. -/
theorem Sound.tryTake (h : Sound maxClients calls s) (hmax : 1 ≤ maxClients)
    (hcalls : calls + 1 < 2 ^ 64) (rate : ℚ) (burst retention : Nat) (client : IpAddr)
    (now : Instant) :
    Sound maxClients (calls + 1)
        (s.tryTakeClientToken rate burst maxClients retention client now).2 ∧
      ((s.pruneClientBuckets now retention).buckets.lookup client = none →
        (s.tryTakeClientToken rate burst maxClients retention client now).1 = true) := by
  obtain ⟨hpruned, hgeneration, hlen⟩ := kept_pruneClientBuckets h.kept now retention
  have hgiven := h.generation
  have hbuckets := h.buckets
  unfold tryTakeClientToken
  dsimp only
  generalize s.pruneClientBuckets now retention = pruned at hpruned hgeneration hlen ⊢
  cases hlookup : pruned.buckets.lookup client with
  | some entry =>
    refine ⟨?_, nofun⟩
    obtain ⟨hkept, hnext, horder, hsame⟩ := kept_touch hpruned (by omega) client
      { entry with bucket := (takeToken entry.bucket rate burst now).2 } now rfl
    refine ⟨hkept, ?_, horder, ?_⟩
    · have hless := length_eraseEntry_lt
        ((mem_iff_lookup hpruned.represented.clients).mpr hlookup)
      rw [hsame]
      show (eraseEntry pruned.buckets client).length + 1 ≤ maxClients
      omega
    · rw [hnext]
      omega
  | none =>
    obtain ⟨t, ht, hroom, hless, hcounter⟩ := makeRoom_spec hpruned hmax (Nat.le_refl _)
    dsimp only
    rw [ht]
    refine ⟨?_, fun _ => rfl⟩
    obtain ⟨hkept, hnext, horder, hsame⟩ := kept_touch hroom (by omega) client
      ⟨⟨((burst - 1 : Nat) : ℚ), now⟩, now, 0⟩ now rfl
    refine ⟨hkept, ?_, horder, ?_⟩
    · rw [hsame]
      exact (length_insertEntry_le _ _ _).trans hless
    · rw [hnext]
      omega

/-- The limiter after so many evictions. -/
def evictions (rounds : Nat) (s : ClientLimiterState) : ClientLimiterState :=
  (fun t : ClientLimiterState => t.evictOldestClientBucket.2)^[rounds] s

theorem kept_evictions (rounds : Nat) (h : s.Kept) : (s.evictions rounds).Kept := by
  induction rounds generalizing s with
  | zero => exact h
  | succ rounds ih => exact ih (kept_evict h)

end ClientLimiterState

namespace AdmissionConfig

open ClientLimiterState

variable (config : AdmissionConfig) (limiter : ClientLimiter)

def maxClients : ClientLimiter → Nat
  | .login => config.maxLoginClients
  | .query => config.maxQueryClients

/-- The limiter after a row of calls, each with its client and the time it read. -/
def run (calls : List (IpAddr × Instant)) : ClientLimiterState :=
  calls.foldl (fun s call => (config.tryTake limiter s call.1 call.2).2) .empty

variable {config limiter}

theorem tryTake_of_one_le (hmax : 1 ≤ config.maxClients limiter) (s : ClientLimiterState)
    (client : IpAddr) (now : Instant) :
    config.tryTake limiter s client now = s.tryTakeClientToken (config.rate limiter)
      (config.burst limiter) (config.maxClients limiter) (config.retention limiter) client now := by
  cases limiter with
  | login => exact if_neg (Nat.one_le_iff_ne_zero.mp hmax)
  | query => rfl

theorem sound_run (hmax : 1 ≤ config.maxClients limiter) {calls : List (IpAddr × Instant)}
    (hcalls : calls.length < 2 ^ 64) :
    Sound (config.maxClients limiter) calls.length (config.run limiter calls) := by
  induction calls using List.reverseRecOn with
  | nil => exact .empty _
  | append_singleton calls call ih =>
    rw [List.length_append, List.length_singleton] at hcalls ⊢
    have hbefore := ih (by omega)
    rw [run, List.foldl_append]
    show Sound _ _ (config.tryTake limiter (config.run limiter calls) call.1 call.2).2
    rw [tryTake_of_one_le hmax]
    exact (hbefore.tryTake hmax hcalls _ _ _ _ _).1

/-- The representation of a client limiter after any row of calls. -/
theorem limiter_represented (hmax : 1 ≤ config.maxClients limiter)
    (calls : List (IpAddr × Instant)) (hcalls : calls.length < 2 ^ 64 - 1) :
    (config.run limiter calls).buckets.length ≤ config.maxClients limiter ∧
    (∀ e ∈ (config.run limiter calls).buckets, (config.run limiter calls).order.filter
        (fun o => o.client = e.1 ∧ o.generation = e.2.generation) =
      [⟨e.2.lastSeen, e.2.generation, e.1⟩]) ∧
    (config.run limiter calls).order.length ≤
      max 64 (4 * (config.run limiter calls).buckets.length) ∧
    (∀ (now : Instant) (rounds : Nat) (t : ClientLimiterState),
      t = ((config.run limiter calls).pruneClientBuckets now (config.retention limiter)).evictions
        rounds →
      t.buckets ≠ [] →
        t.evictOldestClientBucket.1 = true ∧
        ∃ e ∈ t.buckets, (∀ e' ∈ t.buckets, e.2.lastSeen ≤ e'.2.lastSeen) ∧
          t.evictOldestClientBucket.2.buckets = eraseEntry t.buckets e.1) ∧
    ∀ (client : IpAddr) (now : Instant),
      ((config.run limiter calls).pruneClientBuckets now
        (config.retention limiter)).buckets.lookup client = none →
      (config.tryTake limiter (config.run limiter calls) client now).1 = true := by
  have hsound := sound_run hmax (show calls.length < 2 ^ 64 by omega)
  refine ⟨hsound.buckets, fun e he => hsound.kept.represented.filter_eq he, hsound.order, ?_, ?_⟩
  · intro now rounds t ht hne
    have hpruned := (kept_pruneClientBuckets hsound.kept now (config.retention limiter)).1
    have hkept : t.Kept := by
      rw [ht]
      exact kept_evictions rounds hpruned
    obtain ⟨e, he, hmin, hevicted, herased, -, -⟩ := evict_spec hkept hne
    exact ⟨hevicted, e, he, hmin, herased⟩
  · intro client now hnone
    rw [tryTake_of_one_le hmax]
    exact (hsound.tryTake hmax (by omega) _ _ _ _ _).2 hnone

end AdmissionConfig

namespace Turnstile

/-- A clock that is read backwards does not matter. -/
theorem walkers_represented :
    (gate.run .query [(walker, 5), (.v4 2, 3), (walker, 0)]).buckets.length ≤ 8 ∧
    ∀ e ∈ (gate.run .query [(walker, 5), (.v4 2, 3), (walker, 0)]).buckets,
      (gate.run .query [(walker, 5), (.v4 2, 3), (walker, 0)]).order.filter
          (fun o => o.client = e.1 ∧ o.generation = e.2.generation) =
        [⟨e.2.lastSeen, e.2.generation, e.1⟩] := by
  obtain ⟨hbuckets, hfilter, -⟩ := @AdmissionConfig.limiter_represented gate .query (by decide)
    [(walker, 5), (.v4 2, 3), (walker, 0)] (by decide)
  exact ⟨hbuckets, hfilter⟩

end Turnstile

end StellarDb
