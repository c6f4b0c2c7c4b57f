import Mathlib.Data.List.Pairwise
import StellarDb.Lib.Pull

/-!
# First occurrences

`distinctOn key seen l` keeps the first item of each key that is not in `seen`. Where the keys
stand for values, so that items of one key have one value, what is kept has no value twice
exactly when the items of one value have one key (`pairwise_distinctOn_iff`).
-/

namespace Distincts

open Pulling

variable {α β κ : Type} [DecidableEq κ]

def distinctOn (key : α → κ) : List κ → List α → List α
  | _, [] => []
  | seen, a :: l =>
    if key a ∈ seen then distinctOn key seen l else a :: distinctOn key (key a :: seen) l

variable {key : α → κ}

theorem distinctOn_sublist (seen : List κ) (l : List α) :
    (distinctOn key seen l).Sublist l := by
  induction l generalizing seen with
  | nil => exact List.Sublist.refl []
  | cons a l ih =>
    rw [distinctOn]
    split
    · exact (ih seen).cons a
    · exact (ih (key a :: seen)).cons_cons a

/-- A kept item has a key that was not seen. -/
theorem notMem_of_mem_distinctOn {seen : List κ} {l : List α} {a : α}
    (h : a ∈ distinctOn key seen l) : key a ∉ seen := by
  induction l generalizing seen with
  | nil => cases h
  | cons b l ih =>
    rw [distinctOn] at h
    split at h
    · exact ih h
    · next hb =>
      rcases List.mem_cons.mp h with rfl | h
      · exact hb
      · exact fun hmem => ih h (List.mem_cons_of_mem _ hmem)

theorem pairwise_key_distinctOn (seen : List κ) (l : List α) :
    (distinctOn key seen l).Pairwise fun a b => key a ≠ key b := by
  induction l generalizing seen with
  | nil => exact List.Pairwise.nil
  | cons a l ih =>
    rw [distinctOn]
    split
    · exact ih seen
    · refine List.Pairwise.cons ?_ (ih _)
      intro b hb heq
      exact notMem_of_mem_distinctOn hb (heq ▸ List.mem_cons_self)

/-- The key of each item was seen, or an item of that key is kept. -/
theorem covered_distinctOn (seen : List κ) {l : List α} {a : α} (h : a ∈ l) :
    key a ∈ seen ∨ ∃ b ∈ distinctOn key seen l, key b = key a := by
  induction l generalizing seen with
  | nil => cases h
  | cons c l ih =>
    rw [distinctOn]
    split
    · next hc =>
      rcases List.mem_cons.mp h with rfl | h
      · exact Or.inl hc
      · exact ih seen h
    · rcases List.mem_cons.mp h with rfl | h
      · exact Or.inr ⟨a, List.mem_cons_self, rfl⟩
      · rcases ih (key c :: seen) h with hseen | ⟨b, hb, hkey⟩
        · rcases List.mem_cons.mp hseen with heq | hseen
          · exact Or.inr ⟨c, List.mem_cons_self, heq.symm⟩
          · exact Or.inl hseen
        · exact Or.inr ⟨b, List.mem_cons_of_mem _ hb, hkey⟩

theorem exists_kept (key : α → κ) {l : List α} {a : α} (h : a ∈ l) :
    ∃ b ∈ distinctOn key [] l, key b = key a :=
  (covered_distinctOn [] h).resolve_left List.not_mem_nil

/-- No value is kept twice exactly when the items of each value have one key. -/
theorem pairwise_distinctOn_iff {val : α → β} {l : List α}
    (hkey : ∀ a ∈ l, ∀ b ∈ l, key a = key b → val a = val b) :
    ((distinctOn key [] l).Pairwise fun a b => val a ≠ val b) ↔
      ∀ a ∈ l, ∀ b ∈ l, val a = val b → key a = key b := by
  have hmem : ∀ {a}, a ∈ distinctOn key [] l → a ∈ l := fun h =>
    (distinctOn_sublist [] l).subset h
  constructor
  · intro hpair a ha b hb hval
    obtain ⟨a', ha', hka⟩ := exists_kept key ha
    obtain ⟨b', hb', hkb⟩ := exists_kept key hb
    -- the items kept for the two keys have the common value, so they are one item
    have hval' : val a' = val b' :=
      calc val a' = val a := hkey a' (hmem ha') a ha hka
        _ = val b := hval
        _ = val b' := (hkey b' (hmem hb') b hb hkb).symm
    have hsame : a' = b' := by
      by_contra hne
      have hsymm : Std.Symm fun a b => val a ≠ val b := ⟨fun _ _ h heq => h heq.symm⟩
      exact hpair.forall ha' hb' hne hval'
    rw [← hka, ← hkb, hsame]
  · intro h
    refine (pairwise_key_distinctOn [] l).imp_of_mem ?_
    intro a b ha hb hne hval
    exact hne (h a (hmem ha) b (hmem hb) hval)

theorem distinctOn_append (seen : List κ) (l m : List α) : distinctOn key seen (l ++ m) =
    distinctOn key seen l ++
      distinctOn key (((distinctOn key seen l).map key).reverse ++ seen) m := by
  induction l generalizing seen with
  | nil => rfl
  | cons a l ih =>
    rw [List.cons_append, distinctOn, distinctOn]
    split
    · exact ih seen
    · rw [ih, List.map_cons, List.reverse_cons, List.append_assoc]
      rfl

/-- Items of different keys that were not seen are all kept. -/
theorem distinctOn_eq_self {seen : List κ} {l : List α}
    (hpair : l.Pairwise fun a b => key a ≠ key b) (hseen : ∀ a ∈ l, key a ∉ seen) :
    distinctOn key seen l = l := by
  induction l generalizing seen with
  | nil => rfl
  | cons a l ih =>
    obtain ⟨ha, hpair⟩ := List.pairwise_cons.mp hpair
    rw [distinctOn, if_neg (hseen a List.mem_cons_self), ih hpair]
    intro b hb hmem
    rcases List.mem_cons.mp hmem with heq | hmem
    · exact ha b hb heq.symm
    · exact hseen b (List.mem_cons_of_mem _ hb) hmem

/-- Where the key gives the value, the values kept do not depend on the order. -/
theorem map_distinctOn_perm {val : α → β} {l l' : List α} (hperm : l.Perm l')
    (hkey : ∀ a ∈ l, ∀ b ∈ l, key a = key b → val a = val b) :
    ((distinctOn key [] l).map val).Perm ((distinctOn key [] l').map val) := by
  classical
  -- keys and values together stand once in each list
  have hnodup : ∀ l : List α, ((distinctOn key [] l).map fun a => (key a, val a)).Nodup := by
    intro l
    refine List.pairwise_map.mpr ((pairwise_key_distinctOn [] l).imp ?_)
    intro a b hne heq
    exact hne (congrArg Prod.fst heq)
  have hmem : ∀ {l l' : List α}, (∀ a, a ∈ l → a ∈ l') →
      (∀ a ∈ l', ∀ b ∈ l', key a = key b → val a = val b) →
      ∀ p, p ∈ (distinctOn key [] l).map (fun a => (key a, val a)) →
        p ∈ (distinctOn key [] l').map fun a => (key a, val a) := by
    intro l l' hsub hkey p hp
    obtain ⟨a, ha, rfl⟩ := List.mem_map.mp hp
    have hal' := hsub a ((distinctOn_sublist [] l).subset ha)
    obtain ⟨b, hb, hkb⟩ := exists_kept key hal'
    refine List.mem_map.mpr ⟨b, hb, ?_⟩
    rw [hkb, hkey b ((distinctOn_sublist [] l').subset hb) a hal' hkb]
  have hpairs : ((distinctOn key [] l).map fun a => (key a, val a)).Perm
      ((distinctOn key [] l').map fun a => (key a, val a)) := by
    refine (List.perm_ext_iff_of_nodup (hnodup l) (hnodup l')).mpr fun p => ⟨?_, ?_⟩
    · refine hmem (fun a => hperm.mem_iff.mp) (fun a ha b hb => ?_) p
      exact hkey a (hperm.mem_iff.mpr ha) b (hperm.mem_iff.mpr hb)
    · exact hmem (fun a => hperm.mem_iff.mpr) hkey p
  have hvals := hpairs.map Prod.snd
  rwa [List.map_map, List.map_map] at hvals

variable {ε : Type}

end Distincts
