import Mathlib

/-!
# Ownership tables

A table gives each key at most one owner. One owner at a time works through a list of
operations: it claims a key (refused if somebody else has it) or releases a key (a no-op if
the key is not its own), and stops at the first refused claim. The theory is about what such
a run leaves behind:

* **other owners are untouched** — `run_other_iff`;
* **a run succeeds iff no claimed key is foreign at the start** — `run_ok_iff`; the run
  itself cannot create or remove an obstacle;
* **the last operation on a key decides** — `run_of_last_claim`, `run_of_last_release`,
  `run_of_untouched`.

A *hand-over list* pairs, index by index, the key an owner gives up with the key it takes
(`opsOf`: take first, then give up). For these lists the module characterises exactly

* when a run leaves the table as it was (`run_opsOf_eq_self_iff`),
* when undoing a run, complete or cut short, restores the table (`undo_run_eq_iff`),
* when a run leaves its owner with precisely the new keys (`run_opsOf_settles_iff`).
-/

namespace Ownership

variable {K O : Type}

/-- At most one owner per key. -/
abbrev Table (K O : Type) := K → Option O

inductive Op (K : Type) where
  | claim (k : K)
  | release (k : K)
  deriving DecidableEq

/-- The key an operation is about. -/
def Op.key : Op K → K
  | .claim k => k
  | .release k => k

def Op.isClaim : Op K → Bool
  | .claim _ => true
  | .release _ => false

/-- What the operation makes of its key. -/
def Op.value (o : O) : Op K → Option O
  | .claim _ => some o
  | .release _ => none

/-- `k` belongs to somebody other than `o`. -/
def Foreign (t : Table K O) (o : O) (k : K) : Prop := ∃ o', t k = some o' ∧ o' ≠ o

theorem not_foreign_of_own {t : Table K O} {o : O} {k : K} (h : t k = some o) :
    ¬ Foreign t o k := by
  rintro ⟨o', ho', hne⟩
  rw [h] at ho'
  exact hne (Option.some.inj ho').symm

/-- A claim of a foreign key is refused. -/
def Refused (t : Table K O) (o : O) : Op K → Prop
  | .claim k => Foreign t o k
  | .release _ => False

section Run

variable [DecidableEq K] [DecidableEq O]

instance (t : Table K O) (o : O) (k : K) : Decidable (Foreign t o k) :=
  decidable_of_iff ((t k).any fun o' => o' ≠ o) (by
    unfold Foreign
    cases t k <;> simp)

instance (t : Table K O) (o : O) (op : Op K) : Decidable (Refused t o op) :=
  match op with
  | .claim k => inferInstanceAs (Decidable (Foreign t o k))
  | .release _ => inferInstanceAs (Decidable False)

/-- The table after an operation that is not refused; a foreign key is left alone. -/
def Op.apply (o : O) (t : Table K O) (op : Op K) : Table K O :=
  if Foreign t o op.key then t else Function.update t op.key (op.value o)

/-- Work through the operations, stopping at the first refused claim. -/
def run (o : O) : Table K O → List (Op K) → Table K O × Bool
  | t, [] => (t, true)
  | t, op :: ops => if Refused t o op then (t, false) else run o (op.apply o t) ops

theorem apply_of_not_foreign {o : O} {t : Table K O} (op : Op K)
    (h : ¬ Foreign t o op.key) : op.apply o t = Function.update t op.key (op.value o) :=
  if_neg h

theorem apply_of_foreign_key {o : O} {t : Table K O} (op : Op K)
    (h : Foreign t o op.key) : op.apply o t = t :=
  if_pos h

theorem run_cons_of_refused {o : O} {t : Table K O} (op : Op K) (h : Refused t o op)
    (ops : List (Op K)) : run o t (op :: ops) = (t, false) :=
  if_pos h

theorem run_cons_of_not_refused {o : O} {t : Table K O} (op : Op K) (h : ¬ Refused t o op)
    (ops : List (Op K)) : run o t (op :: ops) = run o (op.apply o t) ops :=
  if_neg h

/-! ## Other owners -/

theorem apply_foreign_iff (o : O) (t : Table K O) (op : Op K) (k : K) :
    Foreign (op.apply o t) o k ↔ Foreign t o k := by
  unfold Op.apply
  split
  · rfl
  · next hnf =>
    by_cases hk : k = op.key
    · -- an operation makes its key its own or free, never foreign
      subst hk
      refine iff_of_false ?_ hnf
      rintro ⟨o', ho', hne⟩
      rw [Function.update_self] at ho'
      cases op with
      | claim k' => exact hne (Option.some.inj ho').symm
      | release k' => cases ho'
    · unfold Foreign
      rw [Function.update_of_ne hk]

theorem apply_of_foreign {o : O} {t : Table K O} {k : K} (h : Foreign t o k) (op : Op K) :
    op.apply o t k = t k := by
  unfold Op.apply
  split
  · rfl
  · next hnf =>
    have hne : k ≠ op.key := by rintro rfl; exact hnf h
    exact Function.update_of_ne hne _ _

theorem apply_of_ne (o : O) (t : Table K O) {op : Op K} {k : K} (h : op.key ≠ k) :
    op.apply o t k = t k := by
  unfold Op.apply
  split
  · rfl
  · exact Function.update_of_ne (fun he => h he.symm) _ _

/-- A run neither takes keys from other owners nor gives them any. -/
theorem run_foreign_iff (o : O) (t : Table K O) (ops : List (Op K)) (k : K) :
    Foreign (run o t ops).1 o k ↔ Foreign t o k := by
  induction ops generalizing t with
  | nil => rfl
  | cons op ops ih =>
    rw [run]
    split
    · rfl
    · rw [ih, apply_foreign_iff]

theorem run_of_foreign {o : O} {t : Table K O} {k : K} (h : Foreign t o k) (ops : List (Op K)) :
    (run o t ops).1 k = t k := by
  induction ops generalizing t with
  | nil => rfl
  | cons op ops ih =>
    rw [run]
    split
    · rfl
    · rw [ih ((apply_foreign_iff o t op k).mpr h), apply_of_foreign h]

/-- The keys of the other owners, before and after a run. -/
theorem run_other_iff {o o' : O} (hne : o' ≠ o) (t : Table K O) (ops : List (Op K)) (k : K) :
    (run o t ops).1 k = some o' ↔ t k = some o' := by
  constructor
  · intro h
    have hf : Foreign t o k := (run_foreign_iff o t ops k).mp ⟨o', h, hne⟩
    rwa [run_of_foreign hf] at h
  · intro h
    rwa [run_of_foreign ⟨o', h, hne⟩]

/-! ## Success -/

/-- A run succeeds iff no key it claims is foreign at the start. -/
theorem run_ok_iff (o : O) (t : Table K O) (ops : List (Op K)) :
    (run o t ops).2 = true ↔ ∀ k, Op.claim k ∈ ops → ¬ Foreign t o k := by
  induction ops generalizing t with
  | nil => simp [run]
  | cons op ops ih =>
    have hhead : (∀ k, Op.claim k = op → ¬ Foreign t o k) ↔ ¬ Refused t o op := by
      cases op with
      | claim k' => simp [Refused]
      | release k' => simp [Refused]
    have hsplit : (∀ k, Op.claim k ∈ op :: ops → ¬ Foreign t o k) ↔
        ¬ Refused t o op ∧ ∀ k, Op.claim k ∈ ops → ¬ Foreign t o k := by
      rw [← hhead]
      simp only [List.mem_cons, or_imp, forall_and]
    rw [hsplit, run]
    split
    · next h => simp [h]
    · next h => simp [h, ih, apply_foreign_iff]

/-- Two runs in a row are one run, as long as the first one succeeds. -/
theorem run_append (o : O) (t : Table K O) (ops ops' : List (Op K)) :
    run o t (ops ++ ops') =
      if (run o t ops).2 then run o (run o t ops).1 ops' else run o t ops := by
  induction ops generalizing t with
  | nil => simp [run]
  | cons op ops ih =>
    rw [List.cons_append, run, run]
    split
    · simp
    · exact ih _

/-! ## The last operation on a key -/

/-- Whether the last operation on `k` is a claim; `none` if there is none. -/
def last : List (Op K) → K → Option Bool
  | [], _ => none
  | op :: ops, k =>
    match last ops k with
    | some b => some b
    | none => if op.key = k then some op.isClaim else none

theorem run_of_untouched (o : O) (t : Table K O) {ops : List (Op K)} {k : K}
    (h : last ops k = none) : (run o t ops).1 k = t k := by
  induction ops generalizing t with
  | nil => rfl
  | cons op ops ih =>
    have hl : last ops k = none := by
      cases hl : last ops k with
      | none => rfl
      | some b => simp [last, hl] at h
    have hne : op.key ≠ k := by
      intro hk
      simp [last, hl, hk] at h
    rw [run]
    split
    · rfl
    · rw [ih _ hl, apply_of_ne o t hne]

/-- After a successful run the last operation on a key that is not foreign has decided. -/
theorem run_of_last {o : O} {t : Table K O} {ops : List (Op K)} {k : K} {b : Bool}
    (hok : (run o t ops).2 = true) (hnf : ¬ Foreign t o k) (hl : last ops k = some b) :
    (run o t ops).1 k = if b then some o else none := by
  induction ops generalizing t with
  | nil => simp [last] at hl
  | cons op ops ih =>
    have hnr : ¬ Refused t o op := by
      intro hr
      rw [run, if_pos hr] at hok
      cases hok
    rw [run, if_neg hnr] at hok ⊢
    cases hlt : last ops k with
    | some b' =>
      have hb : b' = b := by simpa [last, hlt] using hl
      exact ih hok (by rwa [apply_foreign_iff]) (hb ▸ hlt)
    | none =>
      -- no later operation: the head decides
      have hk : op.key = k := by
        by_contra hk
        simp [last, hlt, hk] at hl
      have hb : op.isClaim = b := by simpa [last, hlt, hk] using hl
      subst hk hb
      rw [run_of_untouched o _ hlt, Op.apply, if_neg hnf, Function.update_self]
      cases op <;> rfl

/-- A claimed key is owned at the end of a successful run, if its claim came last. -/
theorem run_of_last_claim {o : O} {t : Table K O} {ops : List (Op K)} {k : K}
    (hok : (run o t ops).2 = true) (hnf : ¬ Foreign t o k) (hl : last ops k = some true) :
    (run o t ops).1 k = some o := by
  rw [run_of_last hok hnf hl]; rfl

theorem run_of_last_release {o : O} {t : Table K O} {ops : List (Op K)} {k : K}
    (hok : (run o t ops).2 = true) (hnf : ¬ Foreign t o k) (hl : last ops k = some false) :
    (run o t ops).1 k = none := by
  rw [run_of_last hok hnf hl]; rfl

end Run

/-! ## Hand-over lists -/

/-- What an owner does for one index: the key it gives up and the key it takes. -/
abbrev Handover (K : Type) := Option K × Option K

/-- Take the new key first, then give up the old one. -/
def opsOf (cs : List (Handover K)) : List (Op K) :=
  cs.flatMap fun c => (c.2.map Op.claim).toList ++ (c.1.map Op.release).toList

theorem opsOf_append (cs ds : List (Handover K)) : opsOf (cs ++ ds) = opsOf cs ++ opsOf ds :=
  List.flatMap_append ..

theorem claim_mem_opsOf {cs : List (Handover K)} {k : K} :
    Op.claim k ∈ opsOf cs ↔ ∃ c ∈ cs, c.2 = some k := by
  simp [opsOf]

theorem release_mem_opsOf {cs : List (Handover K)} {k : K} :
    Op.release k ∈ opsOf cs ↔ ∃ c ∈ cs, c.1 = some k := by
  simp [opsOf]

/-- The reverse hand-overs, in the same index order. -/
def undoOf (cs : List (Handover K)) : List (Op K) := opsOf (cs.map Prod.swap)

section Last

variable [DecidableEq K]

theorem last_opsOf_cons (c : Handover K) (cs : List (Handover K)) (k : K) :
    last (opsOf (c :: cs)) k =
      match last (opsOf cs) k with
      | some b => some b
      | none => if c.1 = some k then some false else if c.2 = some k then some true else none := by
  obtain ⟨old, new⟩ := c
  have hcons : opsOf ((old, new) :: cs) =
      (new.map Op.claim).toList ++ ((old.map Op.release).toList ++ opsOf cs) := by
    simp [opsOf]
  rw [hcons]
  cases hl : last (opsOf cs) k with
  | some b => cases old <;> cases new <;> simp [last, hl]
  | none =>
    have hclaim : ∀ ops : List (Op K), last ops k = none →
        last ((new.map Op.claim).toList ++ ops) k = if new = some k then some true else none := by
      intro ops hops
      cases new with
      | none => simp [hops]
      | some k' => by_cases hk : k' = k <;> simp [last, hops, Op.key, Op.isClaim, hk]
    cases old with
    | none => simpa using hclaim _ hl
    | some k' =>
      by_cases hk : k' = k
      · cases new <;> simp [last, hl, Op.key, Op.isClaim, hk]
      · have hrest : last (Op.release k' :: opsOf cs) k = none := by simp [last, hl, Op.key, hk]
        simpa [hk] using hclaim _ hrest

theorem last_opsOf_eq_none_iff {cs : List (Handover K)} {k : K} :
    last (opsOf cs) k = none ↔ ∀ c ∈ cs, c.1 ≠ some k ∧ c.2 ≠ some k := by
  induction cs with
  | nil => simp [opsOf, last]
  | cons c cs ih =>
    rw [last_opsOf_cons, List.forall_mem_cons, ← ih]
    cases last (opsOf cs) k with
    | some b => simp
    | none =>
      by_cases h1 : c.1 = some k
      · simp [h1]
      · by_cases h2 : c.2 = some k <;> simp [h1, h2]

theorem exists_claim_of_last {cs : List (Handover K)} {k : K}
    (h : last (opsOf cs) k = some true) : ∃ c ∈ cs, c.2 = some k := by
  induction cs with
  | nil => simp [opsOf, last] at h
  | cons c cs ih =>
    rw [last_opsOf_cons] at h
    cases hl : last (opsOf cs) k with
    | some b =>
      rw [hl] at h
      obtain ⟨d, hd, hk⟩ := ih (hl.trans h)
      exact ⟨d, List.mem_cons_of_mem _ hd, hk⟩
    | none =>
      rw [hl] at h
      by_cases h1 : c.1 = some k
      · simp [h1] at h
      · have h2 : c.2 = some k := by
          by_contra h2
          simp [h1, h2] at h
        exact ⟨c, List.mem_cons_self .., h2⟩

/-- The last operation on `k` is a release iff some release of `k` is not followed by a
claim of it. -/
theorem last_opsOf_eq_release_iff {cs : List (Handover K)} {k : K} :
    last (opsOf cs) k = some false ↔
      ∃ c post, (c :: post) <:+ cs ∧ c.1 = some k ∧ ∀ d ∈ post, d.2 ≠ some k := by
  induction cs with
  | nil => simp [opsOf, last]
  | cons c cs ih =>
    rw [last_opsOf_cons]
    cases hl : last (opsOf cs) k with
    | some b =>
      rw [hl] at ih
      constructor
      · intro hb
        obtain ⟨d, post, hsuf, hd, hpost⟩ := ih.mp hb
        exact ⟨d, post, hsuf.trans (List.suffix_cons c cs), hd, hpost⟩
      · rintro ⟨d, post, hsuf, hd, hpost⟩
        rcases List.suffix_cons_iff.mp hsuf with heq | hsuf'
        · -- the release is the head's, and no pair behind it claims `k` again
          rw [List.cons.injEq] at heq
          obtain ⟨rfl, rfl⟩ := heq
          cases b with
          | false => rfl
          | true =>
            obtain ⟨d', hd', hk⟩ := exists_claim_of_last hl
            exact absurd hk (hpost d' hd')
        · exact ih.mpr ⟨d, post, hsuf', hd, hpost⟩
    | none =>
      have huntouched := last_opsOf_eq_none_iff.mp hl
      constructor
      · intro h
        have h1 : c.1 = some k := by
          by_contra h1
          by_cases h2 : c.2 = some k <;> simp [h1, h2] at h
        exact ⟨c, cs, List.suffix_rfl, h1, fun d hd => (huntouched d hd).2⟩
      · rintro ⟨d, post, hsuf, hd, -⟩
        rcases List.suffix_cons_iff.mp hsuf with heq | hsuf'
        · rw [List.cons.injEq] at heq
          obtain ⟨rfl, rfl⟩ := heq
          simp [hd]
        · have hmem : d ∈ cs := hsuf'.subset (List.mem_cons_self ..)
          exact absurd hd (huntouched d hmem).1

end Last

section Admitted

variable [DecidableEq K] [DecidableEq O]

/-- The hand-overs before the first one whose claim is refused. -/
def admitted (o : O) (t : Table K O) (cs : List (Handover K)) : List (Handover K) :=
  cs.takeWhile fun c => c.2.all fun k => ¬ Foreign t o k

omit [DecidableEq K] in
theorem admitted_subset {o : O} {t : Table K O} {cs : List (Handover K)} {c : Handover K}
    (h : c ∈ admitted o t cs) : c ∈ cs :=
  List.IsPrefix.subset (List.takeWhile_prefix _) h

/-- Whether it succeeds or not, a run leaves what its admitted part leaves. -/
theorem run_opsOf_eq_admitted (o : O) (t : Table K O) (cs : List (Handover K)) :
    run o t (opsOf (admitted o t cs)) = ((run o t (opsOf cs)).1, true) := by
  have hok : ∀ ds : List (Handover K), (∀ d ∈ ds, ∀ k, d.2 = some k → ¬ Foreign t o k) →
      (run o t (opsOf ds)).2 = true := by
    intro ds hds
    rw [run_ok_iff]
    intro k hk
    obtain ⟨d, hd, hdk⟩ := claim_mem_opsOf.mp hk
    exact hds d hd k hdk
  have hadm : ∀ d ∈ admitted o t cs, ∀ k, d.2 = some k → ¬ Foreign t o k := by
    intro d hd k hdk
    simpa [hdk] using List.mem_takeWhile_imp hd
  refine Prod.ext ?_ (hok _ hadm)
  show (run o t (opsOf (admitted o t cs))).1 = (run o t (opsOf cs)).1
  have hsplit : admitted o t cs ++ cs.dropWhile (fun c => c.2.all fun k => ¬ Foreign t o k) = cs :=
    List.takeWhile_append_dropWhile ..
  cases hdrop : cs.dropWhile (fun c => c.2.all fun k => ¬ Foreign t o k) with
  | nil => rw [hdrop, List.append_nil] at hsplit; rw [hsplit]
  | cons c post =>
    -- the claim of `c` is the first one refused
    have hc : ¬ (c.2.all fun k => ¬ Foreign t o k) = true := by
      have hhead := List.head?_dropWhile_not (fun c => c.2.all fun k => ¬ Foreign t o k) cs
      rw [hdrop] at hhead
      simpa using hhead
    obtain ⟨k, hk, hf⟩ : ∃ k, c.2 = some k ∧ Foreign t o k := by
      cases hc2 : c.2 with
      | none => simp [hc2] at hc
      | some k => exact ⟨k, rfl, by simpa [hc2] using hc⟩
    have hcons : opsOf (c :: post) = Op.claim k :: ((c.1.map Op.release).toList ++ opsOf post) := by
      simp [opsOf, hk]
    have hrefused : Refused (run o t (opsOf (admitted o t cs))).1 o (Op.claim k) :=
      (run_foreign_iff o t _ k).mpr hf
    have hrun : run o t (opsOf cs) = ((run o t (opsOf (admitted o t cs))).1, false) := by
      rw [hdrop] at hsplit
      conv_lhs => rw [← hsplit, opsOf_append, run_append, if_pos (hok _ hadm), hcons]
      exact run_cons_of_refused _ hrefused _
    rw [hrun]

end Admitted

/-! ## Exact effects of hand-over lists

Throughout, `hold` says that every key the owner gives up is its own at the start. -/

section Exact

variable {o : O} {t : Table K O} {cs : List (Handover K)}

/-- Every key given up is taken again later, and every key taken was owned already. -/
def Rewinds (o : O) (t : Table K O) (cs : List (Handover K)) : Prop :=
  ∀ c post, (c :: post) <:+ cs →
    (∀ k, c.1 = some k → ∃ d ∈ post, d.2 = some k) ∧ (∀ k, c.2 = some k → t k = some o)

/-- Every taken key that was owned already is also given up at a later index. -/
def KeepsHeld (o : O) (t : Table K O) (cs : List (Handover K)) : Prop :=
  ∀ c post, (c :: post) <:+ cs → ∀ k, c.2 = some k → t k = some o → ∃ d ∈ post, d.1 = some k

/-- Every key given up that the owner still needs is taken again later. -/
def Settles (need : K → Prop) (cs : List (Handover K)) : Prop :=
  ∀ c post, (c :: post) <:+ cs → ∀ k, c.1 = some k → need k → ∃ d ∈ post, d.2 = some k

theorem suffix_of_mem {c : Handover K} (h : c ∈ cs) : ∃ post, (c :: post) <:+ cs := by
  obtain ⟨pre, post, rfl⟩ := List.append_of_mem h
  exact ⟨post, List.suffix_append pre (c :: post)⟩

theorem mem_of_suffix {c : Handover K} {post : List (Handover K)} (h : (c :: post) <:+ cs) :
    c ∈ cs := h.subset (List.mem_cons_self ..)

variable [DecidableEq K] [DecidableEq O]

/-- A successful run leaves the table as it was iff the list rewinds itself. -/
theorem run_opsOf_eq_self_iff (hold : ∀ c ∈ cs, ∀ k, c.1 = some k → t k = some o)
    (hok : (run o t (opsOf cs)).2 = true) :
    (run o t (opsOf cs)).1 = t ↔ Rewinds o t cs := by
  constructor
  · intro heq c post hsuf
    constructor
    · intro k hk
      have htk : t k = some o := hold c (mem_of_suffix hsuf) k hk
      by_contra hno
      push Not at hno
      have hlast := last_opsOf_eq_release_iff.mpr ⟨c, post, hsuf, hk, hno⟩
      have hend := run_of_last_release hok (not_foreign_of_own htk) hlast
      rw [heq, htk] at hend
      cases hend
    · intro k hk
      have hnfk : ¬ Foreign t o k :=
        (run_ok_iff o t _).mp hok k (claim_mem_opsOf.mpr ⟨c, mem_of_suffix hsuf, hk⟩)
      cases hlast : last (opsOf cs) k with
      | none => exact absurd hk (last_opsOf_eq_none_iff.mp hlast c (mem_of_suffix hsuf)).2
      | some b =>
        cases b with
        | true =>
          have hend := run_of_last_claim hok hnfk hlast
          rwa [heq] at hend
        | false =>
          obtain ⟨d, post', hsuf', hd, -⟩ := last_opsOf_eq_release_iff.mp hlast
          exact hold d (mem_of_suffix hsuf') k hd
  · intro hrew
    funext k
    cases hlast : last (opsOf cs) k with
    | none => exact run_of_untouched o t hlast
    | some b =>
      cases b with
      | true =>
        obtain ⟨c, hc, hk⟩ := exists_claim_of_last hlast
        obtain ⟨post, hsuf⟩ := suffix_of_mem hc
        have htk := (hrew c post hsuf).2 k hk
        rw [run_of_last_claim hok (not_foreign_of_own htk) hlast, htk]
      | false =>
        obtain ⟨c, post, hsuf, hk, hno⟩ := last_opsOf_eq_release_iff.mp hlast
        obtain ⟨d, hd, hdk⟩ := (hrew c post hsuf).1 k hk
        exact absurd hdk (hno d hd)

omit [DecidableEq O] in
/-- Suffixes of the swapped list are the swapped suffixes. -/
theorem last_undoOf_eq_release_iff {k : K} : last (undoOf cs) k = some false ↔
    ∃ c post, (c :: post) <:+ cs ∧ c.2 = some k ∧ ∀ d ∈ post, d.1 ≠ some k := by
  rw [undoOf, last_opsOf_eq_release_iff]
  constructor
  · rintro ⟨c, post, ⟨pre, hpre⟩, hk, hno⟩
    refine ⟨c.swap, post.map Prod.swap, ⟨pre.map Prod.swap, ?_⟩, hk, ?_⟩
    · have := congrArg (List.map Prod.swap) hpre
      simpa [List.map_map] using this
    · intro d hd
      obtain ⟨d', hd', rfl⟩ := List.mem_map.mp hd
      exact hno d' hd'
  · rintro ⟨c, post, ⟨pre, hpre⟩, hk, hno⟩
    refine ⟨c.swap, post.map Prod.swap, ⟨pre.map Prod.swap, ?_⟩, hk, ?_⟩
    · rw [← hpre]
      simp
    · intro d hd
      obtain ⟨d', hd', rfl⟩ := List.mem_map.mp hd
      exact hno d' hd'

/-- A key that was owned already and is taken but not given up later is lost by the undo. -/
theorem undo_loses {u : Table K O} (hok : (run o u (undoOf cs)).2 = true)
    (hnf : ∀ k, t k = some o → ¬ Foreign u o k) (hlose : ¬ KeepsHeld o t cs) :
    ∃ k, t k = some o ∧ (run o u (undoOf cs)).1 k = none := by
  unfold KeepsHeld at hlose
  push Not at hlose
  obtain ⟨c, post, hsuf, k, hk, htk, hno⟩ := hlose
  exact ⟨k, htk, run_of_last_release hok (hnf k htk)
    (last_undoOf_eq_release_iff.mpr ⟨c, post, hsuf, hk, hno⟩)⟩

/-- Undoing restores the table iff no key that was owned already is lost on the way. `u` is
any state a run of `cs`, complete or cut short, may have left: it agrees with `t` on the keys
of others and on the keys the list does not mention. -/
theorem undo_eq_iff {u : Table K O} (hold : ∀ c ∈ cs, ∀ k, c.1 = some k → t k = some o)
    (hother : ∀ k, Foreign t o k ∨ Foreign u o k → u k = t k)
    (hfar : ∀ k, (∀ c ∈ cs, c.1 ≠ some k ∧ c.2 ≠ some k) → u k = t k) :
    (run o u (undoOf cs)).2 = true ∧
      ((run o u (undoOf cs)).1 = t ↔ KeepsHeld o t cs) := by
  have hforeign : ∀ k, Foreign u o k ↔ Foreign t o k := by
    intro k
    constructor
    · intro h
      have heq := hother k (Or.inr h)
      unfold Foreign at h ⊢
      rwa [heq] at h
    · intro h
      have heq := hother k (Or.inl h)
      unfold Foreign at h ⊢
      rwa [heq]
  have hok : (run o u (undoOf cs)).2 = true := by
    rw [run_ok_iff]
    intro k hk
    obtain ⟨d, hd, hdk⟩ := claim_mem_opsOf.mp hk
    obtain ⟨c, hc, rfl⟩ := List.mem_map.mp hd
    rw [hforeign]
    exact not_foreign_of_own (hold c hc k hdk)
  refine ⟨hok, ?_⟩
  constructor
  · intro heq
    by_contra hlose
    obtain ⟨k, htk, hend⟩ := undo_loses hok
      (fun k htk => by rw [hforeign]; exact not_foreign_of_own htk) hlose
    rw [heq, htk] at hend
    cases hend
  · intro hkeep
    funext k
    by_cases hf : Foreign u o k
    · rw [run_of_foreign hf, hother k (Or.inr hf)]
    cases hlast : last (undoOf cs) k with
    | none =>
      rw [run_of_untouched o u hlast]
      apply hfar
      intro c hc
      have hcs := last_opsOf_eq_none_iff.mp hlast c.swap (List.mem_map_of_mem hc)
      exact ⟨hcs.2, hcs.1⟩
    | some b =>
      cases b with
      | true =>
        obtain ⟨d, hd, hdk⟩ := exists_claim_of_last hlast
        obtain ⟨c, hc, rfl⟩ := List.mem_map.mp hd
        rw [run_of_last_claim hok hf hlast, hold c hc k hdk]
      | false =>
        obtain ⟨c, post, hsuf, hk, hno⟩ := last_undoOf_eq_release_iff.mp hlast
        rw [run_of_last_release hok hf hlast]
        cases htk : t k with
        | none => rfl
        | some o' =>
          have ho' : o' = o := by
            by_contra hne
            exact hf ((hforeign k).mpr ⟨o', htk, hne⟩)
          obtain ⟨d, hd, hdk⟩ := hkeep c post hsuf k hk (ho' ▸ htk)
          exact absurd hdk (hno d hd)

/-- The undo of a run, complete or cut short, is never refused; it restores the table iff no
key that was owned already is lost on the way. -/
theorem undo_run_eq_iff (hold : ∀ c ∈ cs, ∀ k, c.1 = some k → t k = some o) :
    (run o (run o t (opsOf cs)).1 (undoOf cs)).2 = true ∧
      ((run o (run o t (opsOf cs)).1 (undoOf cs)).1 = t ↔ KeepsHeld o t cs) := by
  refine undo_eq_iff hold ?_ ?_
  · intro k hk
    have hf : Foreign t o k := hk.elim id (run_foreign_iff o t _ k).mp
    exact run_of_foreign hf _
  · intro k hk
    exact run_of_untouched o t (last_opsOf_eq_none_iff.mpr hk)

/-- After a successful run the owner has exactly the needed keys iff it settles. `keep` are
the keys of the indexes that do not change hands: owned before, and still needed. -/
theorem run_opsOf_settles_iff {need keep : K → Prop}
    (hown : ∀ k, t k = some o ↔ keep k ∨ ∃ c ∈ cs, c.1 = some k)
    (hneed : ∀ k, need k ↔ keep k ∨ ∃ c ∈ cs, c.2 = some k)
    (hok : (run o t (opsOf cs)).2 = true) :
    (∀ k, (run o t (opsOf cs)).1 k = some o ↔ need k) ↔ Settles need cs := by
  constructor
  · intro hall c post hsuf k hk hnk
    have htk : t k = some o := (hown k).mpr (Or.inr ⟨c, mem_of_suffix hsuf, hk⟩)
    by_contra hno
    push Not at hno
    have hlast := last_opsOf_eq_release_iff.mpr ⟨c, post, hsuf, hk, hno⟩
    have hend := run_of_last_release hok (not_foreign_of_own htk) hlast
    rw [(hall k).mpr hnk] at hend
    cases hend
  · intro hset k
    cases hlast : last (opsOf cs) k with
    | none =>
      have hun := last_opsOf_eq_none_iff.mp hlast
      have hold' : ¬ ∃ c ∈ cs, c.1 = some k := fun ⟨c, hc, hk⟩ => (hun c hc).1 hk
      have hnew' : ¬ ∃ c ∈ cs, c.2 = some k := fun ⟨c, hc, hk⟩ => (hun c hc).2 hk
      rw [run_of_untouched o t hlast, hown, hneed]
      simp [hold', hnew']
    | some b =>
      cases b with
      | true =>
        obtain ⟨c, hc, hk⟩ := exists_claim_of_last hlast
        have hnfk := (run_ok_iff o t _).mp hok k (claim_mem_opsOf.mpr ⟨c, hc, hk⟩)
        rw [run_of_last_claim hok hnfk hlast]
        exact iff_of_true rfl ((hneed k).mpr (Or.inr ⟨c, hc, hk⟩))
      | false =>
        obtain ⟨c, post, hsuf, hk, hno⟩ := last_opsOf_eq_release_iff.mp hlast
        have htk : t k = some o := (hown k).mpr (Or.inr ⟨c, mem_of_suffix hsuf, hk⟩)
        rw [run_of_last_release hok (not_foreign_of_own htk) hlast]
        refine iff_of_false (by simp) ?_
        intro hnk
        obtain ⟨d, hd, hdk⟩ := hset c post hsuf k hk hnk
        exact hno d hd hdk

end Exact

end Ownership
