import StellarDb.Lib.ByteOrder

/-!
# Cutting a list into pieces

A bulk load cuts its input into pieces, works on each piece and glues the results. For that
nothing may be lost where one piece ends and the next begins:

* `chunks n` are the pieces of `n` items (`slice::chunks`), and glued they are the list again
  (`chunks_flatten`);
* the windows of two of a list sorted by a byte key show every pair of items with one key and
  different values (`agree_of_windows`);
* a batch of insertions that agree with each other and with what is stored adds exactly its
  entries (`getElem?_applyWrites_inserts`).
-/

namespace Chunking

open Keyspaces

variable {α β : Type}

/-- `xs.chunks(n)`; the last chunk may be shorter. -/
def chunks (n : Nat) : List α → List (List α)
  | [] => []
  | x :: xs => (x :: xs.take (n - 1)) :: chunks n (xs.drop (n - 1))
termination_by xs => xs.length
decreasing_by
  simp only [List.length_drop, List.length_cons]
  omega

@[simp] theorem chunks_flatten (n : Nat) (xs : List α) : (chunks n xs).flatten = xs := by
  fun_induction chunks n xs with
  | case1 => rfl
  | case2 x xs ih => rw [List.flatten_cons, ih, List.cons_append, List.take_append_drop]

/-- A function that fails on no item of any chunk maps the glued list. -/
theorem flatten_mapM_chunks {ε : Type} {f : α → Except ε β} {g : α → β} {n : Nat} {xs : List α}
    (h : ∀ x ∈ xs, f x = .ok (g x)) :
    List.flatten <$> (chunks n xs).mapM (List.mapM f) = .ok (xs.map g) := by
  have hmapM : ∀ ys : List α, (∀ y ∈ ys, f y = .ok (g y)) → ys.mapM f = .ok (ys.map g) := by
    intro ys hys
    induction ys with
    | nil => rfl
    | cons y ys ih =>
      rw [List.forall_mem_cons] at hys
      rw [List.mapM_cons, hys.1, ih hys.2]
      rfl
  have hchunks : ∀ cs : List (List α), (∀ c ∈ cs, ∀ x ∈ c, f x = .ok (g x)) →
      cs.mapM (List.mapM f) = .ok (cs.map (List.map g)) := by
    intro cs hcs
    induction cs with
    | nil => rfl
    | cons c cs ih =>
      rw [List.forall_mem_cons] at hcs
      rw [List.mapM_cons, hmapM c hcs.1, ih hcs.2]
      rfl
  rw [hchunks]
  · show Except.ok (((chunks n xs).map (List.map g)).flatten) = _
    rw [← List.map_flatten, chunks_flatten]
  · intro c hc x hx
    refine h x ?_
    rw [← chunks_flatten n xs]
    exact List.mem_flatten.mpr ⟨c, hc, hx⟩

/-! ## Windows of a sorted list -/

/-- `xs.windows(2)` -/
def windows (xs : List α) : List (α × α) := xs.zip xs.tail

/-- In a list sorted by a key, neighbours with one key agree only if all such items do. -/
theorem agree_of_windows (key : α → Bytes) (val : α → β) {xs : List α}
    (hsorted : xs.Pairwise fun a b => (compare (key a) (key b)).isLE)
    (hwindows : ∀ w ∈ windows xs, key w.1 = key w.2 → val w.1 = val w.2) :
    ∀ a ∈ xs, ∀ b ∈ xs, key a = key b → val a = val b := by
  -- neighbours are related by an order on keys that fixes the value, and that is transitive
  have hpair : xs.Pairwise fun a b => key a = key b → val a = val b := by
    induction xs with
    | nil => exact List.Pairwise.nil
    | cons x xs ih =>
      rw [List.pairwise_cons] at hsorted
      have htail : xs.Pairwise fun a b => key a = key b → val a = val b := by
        refine ih hsorted.2 fun w hw => hwindows w ?_
        cases xs with
        | nil => cases hw
        | cons y ys => exact List.mem_cons_of_mem _ hw
      refine List.pairwise_cons.mpr ⟨fun b hb hkey => ?_, htail⟩
      cases xs with
      | nil => cases hb
      | cons y ys =>
        -- `x ≤ y ≤ b` and `x` and `b` have one key, so `y` has it too
        have hxy : key x = key y := by
          have hle := hsorted.1 y List.mem_cons_self
          rcases List.mem_cons.mp hb with rfl | hb
          · exact hkey
          · have hyb := (List.pairwise_cons.mp hsorted.2).1 b hb
            rw [← hkey, compare_bytes_swap] at hyb
            cases hc : compare (key x) (key y) with
            | lt => simp [hc] at hyb
            | eq => simpa using hc
            | gt => simp [hc] at hle
        have hval : val x = val y := hwindows (x, y) List.mem_cons_self hxy
        rcases List.mem_cons.mp hb with rfl | hb
        · exact hval
        · rw [hval]
          exact (List.pairwise_cons.mp htail).1 b hb (hxy ▸ hkey)
  have hsymm : Std.Symm fun a b => key a = key b → val a = val b :=
    ⟨fun _ _ h hk => (h hk.symm).symm⟩
  intro a ha b hb
  exact hpair.forall_of_forall (fun _ _ _ => rfl) ha hb

theorem mem_windows {xs : List α} {w : α × α} (h : w ∈ windows xs) : w.1 ∈ xs ∧ w.2 ∈ xs :=
  ⟨(List.of_mem_zip h).1, List.mem_of_mem_tail (List.of_mem_zip h).2⟩

/-! ## Batches of insertions -/

/-- Insertions that contradict neither each other nor the keyspace add their entries to it. -/
theorem getElem?_applyWrites_inserts {V : Type} {entries : List (Bytes × V)} {ks : Keyspace V}
    (hentries : ∀ p ∈ entries, ∀ q ∈ entries, p.1 = q.1 → p.2 = q.2)
    (hks : ∀ p ∈ entries, ∀ v, ks[p.1]? = some v → v = p.2) (k : Bytes) (v : V) :
    (ks.applyWrites (entries.map fun p => (p.1, some p.2)))[k]? = some v ↔
      (k, v) ∈ entries ∨ ks[k]? = some v := by
  induction entries generalizing ks with
  | nil => simp
  | cons p entries ih =>
    have htail : ∀ p ∈ entries, ∀ q ∈ entries, p.1 = q.1 → p.2 = q.2 :=
      fun p hp q hq => hentries p (List.mem_cons_of_mem _ hp) q (List.mem_cons_of_mem _ hq)
    have hnext : ∀ q ∈ entries, ∀ v, (ks.write (p.1, some p.2))[q.1]? = some v → v = q.2 := by
      intro q hq v hv
      rw [Keyspace.getElem?_write] at hv
      split at hv
      · next hk =>
        rw [← Option.some.inj hv]
        exact hentries p List.mem_cons_self q (List.mem_cons_of_mem _ hq) hk
      · exact hks q (List.mem_cons_of_mem _ hq) v hv
    rw [List.map_cons, Keyspace.applyWrites_cons, ih htail hnext, Keyspace.getElem?_write,
      List.mem_cons]
    by_cases hk : p.1 = k
    · subst hk
      constructor
      · rintro (hmem | hv)
        · exact Or.inl (Or.inr hmem)
        · rw [if_pos rfl] at hv
          rw [← Option.some.inj hv]
          exact Or.inl (Or.inl rfl)
      · rintro ((heq | hmem) | hv)
        · rw [← heq]
          exact Or.inr (if_pos rfl)
        · exact Or.inl hmem
        · rw [hks p List.mem_cons_self v hv]
          exact Or.inr (if_pos rfl)
    · rw [if_neg hk]
      have hne : (k, v) ≠ p := fun heq => hk (heq ▸ rfl)
      rw [or_iff_right hne]

end Chunking
