import Mathlib.Data.List.Forall2

/-!
# Pulling rows

What an iterator yields when it is pulled until it ends: some items, and then an end or an error
(`Pull`). An operator that pulls its input on demand is a function of what the input yields. One
that stops early does not see the error behind its last item, so `take` may succeed where
`collect` of the input fails; all laws below hold with errors at any place.
-/

namespace Pulling

/-- The items an iterator yields, up to its end or to an error. -/
inductive Pull (ε α : Type) where
  | done
  | fail (e : ε)
  | yield (a : α) (rest : Pull ε α)

namespace Pull

variable {ε α β κ σ : Type}

def ofList : List α → Pull ε α
  | [] => .done
  | a :: as => .yield a (ofList as)

/-- Pull at most `fuel` times. -/
def unfold (next : σ → Except ε (Option (α × σ))) : Nat → σ → Pull ε α
  | 0, _ => .done
  | fuel + 1, s =>
    match next s with
    | .error e => .fail e
    | .ok none => .done
    | .ok (some (a, s)) => .yield a (unfold next fuel s)

/-- Pull to the end. -/
def collect : Pull ε α → Except ε (List α)
  | .done => .ok []
  | .fail e => .error e
  | .yield a rest => rest.collect.map (a :: ·)

/-- Pass on what a step makes of each item; the first failing step ends it. -/
def filterMapM (f : α → Except ε (Option β)) : Pull ε α → Pull ε β
  | .done => .done
  | .fail e => .fail e
  | .yield a rest =>
    match f a with
    | .error e => .fail e
    | .ok none => rest.filterMapM f
    | .ok (some b) => .yield b (rest.filterMapM f)

def mapM (f : α → Except ε β) : Pull ε α → Pull ε β := filterMapM fun a => (f a).map some

def filterM (p : α → Except ε Bool) : Pull ε α → Pull ε α :=
  filterMapM fun a => (p a).map fun pass => if pass then some a else none

/-- Stop after `n` items, without pulling another one. -/
def take : Nat → Pull ε α → Pull ε α
  | 0, _ => .done
  | _ + 1, .done => .done
  | _ + 1, .fail e => .fail e
  | n + 1, .yield a rest => .yield a (take n rest)

/-- Skip `n` items. -/
def drop : Nat → Pull ε α → Pull ε α
  | 0, p => p
  | _ + 1, .done => .done
  | _ + 1, .fail e => .fail e
  | n + 1, .yield _ rest => drop n rest

/-- Skip items whose key was seen before. -/
def dedupBy [DecidableEq κ] (key : α → κ) : List κ → Pull ε α → Pull ε α
  | _, .done => .done
  | _, .fail e => .fail e
  | seen, .yield a rest =>
    if key a ∈ seen then rest.dedupBy key seen
    else .yield a (rest.dedupBy key (key a :: seen))

/-- One iterator after the other. -/
def append : Pull ε α → Pull ε α → Pull ε α
  | .done, q => q
  | .fail e, _ => .fail e
  | .yield a rest, q => .yield a (rest.append q)

@[simp]
theorem collect_ofList (as : List α) : (ofList as : Pull ε α).collect = .ok as := by
  induction as with
  | nil => rfl
  | cons a as ih =>
    rw [ofList, collect, ih]
    rfl

theorem mapM_yield (f : α → Except ε β) (a : α) (rest : Pull ε α) :
    (yield a rest).mapM f =
      match f a with
      | .error e => .fail e
      | .ok b => .yield b (rest.mapM f) := by
  show (match (f a).map some with
    | .error e => Pull.fail e
    | .ok none => rest.mapM f
    | .ok (some b) => Pull.yield b (rest.mapM f)) = _
  cases f a <;> rfl

theorem mapM_ok (p : Pull ε α) : p.mapM .ok = p := by
  induction p with
  | done => rfl
  | fail e => rfl
  | yield a rest ih =>
    rw [mapM_yield, ih]

theorem collect_mapM_ofList (f : α → Except ε β) (as : List α) :
    ((ofList as).mapM f).collect = as.mapM f := by
  induction as with
  | nil => rfl
  | cons a as ih =>
    rw [ofList, mapM_yield, List.mapM_cons]
    cases f a with
    | error e => rfl
    | ok b =>
      show ((ofList as).mapM f).collect.map (b :: ·) = _
      rw [ih]
      cases as.mapM f <;> rfl

/-- Of the items of an input, no more are asked for than are to be yielded. -/
theorem take_mapM_ofList (f : α → Except ε β) (n : Nat) (as : List α) :
    ((ofList (as.take n)).mapM f).take n = ((ofList as).mapM f).take n := by
  induction n generalizing as with
  | zero => rfl
  | succ n ih =>
    cases as with
    | nil => rfl
    | cons a as =>
      rw [List.take_succ_cons, ofList, ofList, mapM_yield, mapM_yield]
      cases f a with
      | error e => rfl
      | ok b =>
        show yield b (((ofList (as.take n)).mapM f).take n) = .yield b (((ofList as).mapM f).take n)
        rw [ih]

/-- A step succeeds on a list when it succeeds on each item. -/
theorem mapM_eq_ok_iff {f : α → Except ε β} {as : List α} {bs : List β} :
    as.mapM f = .ok bs ↔ List.Forall₂ (fun a b => f a = .ok b) as bs := by
  induction as generalizing bs with
  | nil =>
    rw [List.forall₂_nil_left_iff]
    exact ⟨fun h => (Except.ok.inj h).symm, fun h => h ▸ rfl⟩
  | cons a as ih =>
    rw [List.mapM_cons, List.forall₂_cons_left_iff]
    constructor
    · intro h
      cases ha : f a with
      | error e => rw [ha] at h; cases h
      | ok b =>
        rw [ha] at h
        cases hrest : as.mapM f with
        | error e => rw [hrest] at h; cases h
        | ok bs' =>
          rw [hrest] at h
          exact ⟨b, bs', rfl, ih.mp hrest, (Except.ok.inj h).symm⟩
    · rintro ⟨b, bs', hb, hrest, rfl⟩
      rw [hb, ih.mpr hrest]
      rfl

/-! ## Inputs that do not fail -/

@[simp]
theorem take_ofList (n : Nat) (as : List α) :
    (ofList as : Pull ε α).take n = ofList (as.take n) := by
  induction n generalizing as with
  | zero => rfl
  | succ n ih =>
    cases as with
    | nil => rfl
    | cons a as =>
      rw [ofList, take, ih, List.take_succ_cons, ofList]

@[simp]
theorem drop_ofList (n : Nat) (as : List α) :
    (ofList as : Pull ε α).drop n = ofList (as.drop n) := by
  induction n generalizing as with
  | zero => rfl
  | succ n ih =>
    cases as with
    | nil => rfl
    | cons a as =>
      rw [ofList, drop, ih, List.drop_succ_cons]

theorem mapM_ofList {f : α → Except ε β} {g : α → β} {as : List α}
    (h : ∀ a ∈ as, f a = .ok (g a)) : (ofList as).mapM f = ofList (as.map g) := by
  induction as with
  | nil => rfl
  | cons a as ih =>
    rw [List.forall_mem_cons] at h
    rw [ofList, mapM_yield, h.1, ih h.2, List.map_cons, ofList]

theorem filterM_error {f : α → Except ε Bool} {a : α} {e : ε} (rest : Pull ε α)
    (h : f a = .error e) : (yield a rest).filterM f = .fail e := by
  show (match (f a).map fun pass => if pass then some a else none with
    | .error e => Pull.fail e
    | .ok none => rest.filterM f
    | .ok (some b) => Pull.yield b (rest.filterM f)) = _
  rw [h]
  rfl

theorem filterM_ofList {f : α → Except ε Bool} {p : α → Bool} {as : List α}
    (h : ∀ a ∈ as, f a = .ok (p a)) : (ofList as).filterM f = ofList (as.filter p) := by
  induction as with
  | nil => rfl
  | cons a as ih =>
    rw [List.forall_mem_cons] at h
    show (match (f a).map fun pass => if pass then some a else none with
      | .error e => Pull.fail e
      | .ok none => (ofList as).filterM f
      | .ok (some b) => Pull.yield b ((ofList as).filterM f)) = _
    rw [h.1, ih h.2]
    cases hp : p a with
    | true =>
      rw [List.filter_cons_of_pos hp]
      rfl
    | false =>
      rw [List.filter_cons_of_neg (by simp [hp])]
      rfl

/-! ## Cursors -/

/-- The values up to the first `none`. -/
def takeSome : List (Option α) → List α
  | [] => []
  | none :: _ => []
  | some a :: l => a :: takeSome l

/-- A cursor on a list, which ends where it finds nothing to hand out. -/
theorem collect_unfold_cursor {next : σ → Except ε (Option (β × σ))} {l : List α}
    {f : α → Option β} (at' : Nat → σ)
    (hnext : ∀ p, next (at' p) = .ok ((l[p]?.bind f).map (·, at' (p + 1)))) {fuel p : Nat}
    (hfuel : l.length < p + fuel) :
    (unfold next fuel (at' p)).collect = .ok (takeSome ((l.drop p).map f)) := by
  induction fuel generalizing p with
  | zero =>
    rw [List.drop_eq_nil_of_le (by omega)]
    rfl
  | succ fuel ih =>
    rw [unfold, hnext]
    cases hp : l[p]? with
    | none =>
      rw [List.drop_eq_nil_of_le (List.getElem?_eq_none_iff.mp hp)]
      rfl
    | some a =>
      obtain ⟨hlt, rfl⟩ := List.getElem?_eq_some_iff.mp hp
      rw [List.drop_eq_getElem_cons hlt, List.map_cons, Option.bind_some]
      cases f l[p] with
      | none => rfl
      | some b =>
        show (unfold next fuel (at' (p + 1))).collect.map (b :: ·) = _
        rw [ih (by omega)]
        rfl

end Pull

end Pulling
