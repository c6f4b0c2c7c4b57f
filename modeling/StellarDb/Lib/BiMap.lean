import Mathlib.Data.List.Nodup
import Mathlib.Data.List.Induction

/-!
# Bidirectional maps

A `BiMap` keeps pairs such that no left and no right value occurs twice. An insertion evicts the
pairs that share a value with the new one, so the map stays one-to-one but may lose up to two
pairs on the way (`mem_insert`). Lookups in the two directions read the same pairs
(`getByLeft_iff_mem`, `getByRight_iff_mem`), hence invert each other (`getByLeft_iff_getByRight`).
-/

namespace BiMaps

variable {α β : Type}

/-- Pairs without a repeated left or right value. -/
structure BiMap (α β : Type) where
  pairs : List (α × β)
  left_nodup : (pairs.map Prod.fst).Nodup
  right_nodup : (pairs.map Prod.snd).Nodup

namespace BiMap

def empty : BiMap α β := ⟨[], List.nodup_nil, List.nodup_nil⟩

instance : Membership (α × β) (BiMap α β) := ⟨fun m p => p ∈ m.pairs⟩

/-- Keep the pairs that pass a test. -/
def filter (m : BiMap α β) (test : α × β → Bool) : BiMap α β where
  pairs := m.pairs.filter test
  left_nodup := m.left_nodup.sublist (List.filter_sublist.map _)
  right_nodup := m.right_nodup.sublist (List.filter_sublist.map _)

theorem mem_filter {m : BiMap α β} {test : α × β → Bool} {p : α × β} :
    p ∈ m.filter test ↔ p ∈ m ∧ test p = true := List.mem_filter

@[simp] theorem notMem_empty (p : α × β) : p ∉ (empty : BiMap α β) := List.not_mem_nil

/-- A left value has one partner. -/
theorem right_unique {m : BiMap α β} {a : α} {b b' : β} (h : (a, b) ∈ m) (h' : (a, b') ∈ m) :
    b = b' :=
  congrArg Prod.snd (List.inj_on_of_nodup_map m.left_nodup h h' rfl)

/-- A right value has one partner. -/
theorem left_unique {m : BiMap α β} {a a' : α} {b : β} (h : (a, b) ∈ m) (h' : (a', b) ∈ m) :
    a = a' :=
  congrArg Prod.fst (List.inj_on_of_nodup_map m.right_nodup h h' rfl)

variable [DecidableEq α] [DecidableEq β]

/-- Insert a pair; pairs with the same left or the same right value go. -/
def insert (m : BiMap α β) (a : α) (b : β) : BiMap α β where
  pairs := (a, b) :: (m.filter fun p => p.1 ≠ a ∧ p.2 ≠ b).pairs
  left_nodup := by
    refine List.nodup_cons.mpr ⟨fun hmem => ?_, (m.filter _).left_nodup⟩
    obtain ⟨p, hp, hpa⟩ := List.mem_map.mp hmem
    exact (of_decide_eq_true (List.mem_filter.mp hp).2).1 hpa
  right_nodup := by
    refine List.nodup_cons.mpr ⟨fun hmem => ?_, (m.filter _).right_nodup⟩
    obtain ⟨p, hp, hpb⟩ := List.mem_map.mp hmem
    exact (of_decide_eq_true (List.mem_filter.mp hp).2).2 hpb

theorem mem_insert {m : BiMap α β} {a : α} {b : β} {p : α × β} :
    p ∈ m.insert a b ↔ p = (a, b) ∨ (p ∈ m ∧ p.1 ≠ a ∧ p.2 ≠ b) := by
  refine List.mem_cons.trans (or_congr_right ?_)
  exact List.mem_filter.trans (and_congr_right fun _ => decide_eq_true_iff)

/-- Inserting pairs without a common value evicts none of them. -/
theorem mem_foldl_insert {ps : List (α × β)} (hleft : (ps.map Prod.fst).Nodup)
    (hright : (ps.map Prod.snd).Nodup) (p : α × β) :
    p ∈ ps.foldl (fun m q => m.insert q.1 q.2) empty ↔ p ∈ ps := by
  induction ps using List.reverseRecOn generalizing p with
  | nil => simp
  | append_singleton ps q ih =>
    rw [List.map_append, List.nodup_append] at hleft hright
    rw [List.foldl_append, List.foldl_cons, List.foldl_nil, mem_insert,
      ih hleft.1 hright.1, List.mem_append, List.mem_singleton, or_comm]
    refine or_congr_left (and_iff_left_of_imp fun hp => ⟨fun heq => ?_, fun heq => ?_⟩)
    · exact hleft.2.2 p.1 (List.mem_map_of_mem hp) q.1 (by simp) heq
    · exact hright.2.2 p.2 (List.mem_map_of_mem hp) q.2 (by simp) heq

omit [DecidableEq β] in
def getByLeft (m : BiMap α β) (a : α) : Option β := (m.pairs.find? (·.1 = a)).map Prod.snd

omit [DecidableEq α] in
def getByRight (m : BiMap α β) (b : β) : Option α := (m.pairs.find? (·.2 = b)).map Prod.fst

omit [DecidableEq α] in
def removeByRight (m : BiMap α β) (b : β) : BiMap α β := m.filter fun p => p.2 ≠ b

omit [DecidableEq α] in
theorem mem_removeByRight {m : BiMap α β} {b : β} {p : α × β} :
    p ∈ m.removeByRight b ↔ p ∈ m ∧ p.2 ≠ b :=
  mem_filter.trans (and_congr_right fun _ => decide_eq_true_iff)

omit [DecidableEq β] in
theorem getByLeft_iff_mem {m : BiMap α β} {a : α} {b : β} :
    m.getByLeft a = some b ↔ (a, b) ∈ m := by
  unfold getByLeft
  rw [Option.map_eq_some_iff]
  constructor
  · rintro ⟨⟨a', b⟩, hfind, rfl⟩
    have ha : a' = a := by simpa using List.find?_some hfind
    exact ha ▸ List.mem_of_find?_eq_some hfind
  · intro hmem
    have hsome : (m.pairs.find? (·.1 = a)).isSome = true :=
      List.find?_isSome.mpr ⟨(a, b), hmem, by simp⟩
    obtain ⟨⟨a', b'⟩, hfind⟩ := Option.isSome_iff_exists.mp hsome
    have ha : a' = a := by simpa using List.find?_some hfind
    subst ha
    exact ⟨_, hfind, right_unique (List.mem_of_find?_eq_some hfind) hmem⟩

omit [DecidableEq α] in
theorem getByRight_iff_mem {m : BiMap α β} {a : α} {b : β} :
    m.getByRight b = some a ↔ (a, b) ∈ m := by
  unfold getByRight
  rw [Option.map_eq_some_iff]
  constructor
  · rintro ⟨⟨a, b'⟩, hfind, rfl⟩
    have hb : b' = b := by simpa using List.find?_some hfind
    exact hb ▸ List.mem_of_find?_eq_some hfind
  · intro hmem
    have hsome : (m.pairs.find? (·.2 = b)).isSome = true :=
      List.find?_isSome.mpr ⟨(a, b), hmem, by simp⟩
    obtain ⟨⟨a', b'⟩, hfind⟩ := Option.isSome_iff_exists.mp hsome
    have hb : b' = b := by simpa using List.find?_some hfind
    subst hb
    exact ⟨_, hfind, left_unique (List.mem_of_find?_eq_some hfind) hmem⟩

theorem getByLeft_iff_getByRight {m : BiMap α β} {a : α} {b : β} :
    m.getByLeft a = some b ↔ m.getByRight b = some a :=
  getByLeft_iff_mem.trans getByRight_iff_mem.symm

omit [DecidableEq α] in
theorem getByRight_eq_none {m : BiMap α β} {b : β} :
    m.getByRight b = none ↔ ∀ a, (a, b) ∉ m := by
  rw [Option.eq_none_iff_forall_ne_some]
  exact forall_congr' fun a => not_congr getByRight_iff_mem

end BiMap

end BiMaps
