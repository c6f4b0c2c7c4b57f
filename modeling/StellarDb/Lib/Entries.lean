import Mathlib.Data.List.Basic

/-!
# Entry lists

A finite map as the list of its entries, without a key twice. `insertEntry` and `eraseEntry` are
the operations of a map, read through `List.lookup`.
-/

namespace Entries

variable {κ α : Type*} [DecidableEq κ] {es : List (κ × α)}

/-- The entries but for one key. -/
def eraseEntry (es : List (κ × α)) (k : κ) : List (κ × α) := es.filter (·.1 ≠ k)

/-- The value of a key is replaced, or the key is new. -/
def insertEntry (es : List (κ × α)) (k : κ) (v : α) : List (κ × α) := (k, v) :: eraseEntry es k

theorem mem_eraseEntry {k : κ} {e : κ × α} : e ∈ eraseEntry es k ↔ e ∈ es ∧ e.1 ≠ k := by
  simp [eraseEntry]

theorem mem_insertEntry {k : κ} {v : α} {e : κ × α} :
    e ∈ insertEntry es k v ↔ e = (k, v) ∨ e ∈ es ∧ e.1 ≠ k := by
  rw [insertEntry, List.mem_cons, mem_eraseEntry]

theorem nodup_eraseEntry (h : (es.map Prod.fst).Nodup) (k : κ) :
    ((eraseEntry es k).map Prod.fst).Nodup :=
  h.sublist (List.filter_sublist.map Prod.fst)

theorem nodup_insertEntry (h : (es.map Prod.fst).Nodup) (k : κ) (v : α) :
    ((insertEntry es k v).map Prod.fst).Nodup := by
  refine List.nodup_cons.mpr ⟨fun hmem => ?_, nodup_eraseEntry h k⟩
  obtain ⟨e, he, hk⟩ := List.mem_map.mp hmem
  exact (mem_eraseEntry.mp he).2 hk

theorem lookup_eraseEntry (es : List (κ × α)) (k k' : κ) :
    (eraseEntry es k).lookup k' = if k = k' then none else es.lookup k' := by
  induction es with
  | nil => simp [eraseEntry]
  | cons e es ih =>
    unfold eraseEntry at ih ⊢
    by_cases he : e.1 = k
    · rw [List.filter_cons_of_neg (by simpa using he), ih]
      by_cases hk : k = k'
      · rw [if_pos hk, if_pos hk]
      · rw [if_neg hk, if_neg hk, List.lookup_cons,
          beq_false_of_ne (fun h => hk (he.symm.trans h.symm))]
    · rw [List.filter_cons_of_pos (by simpa using he), List.lookup_cons, List.lookup_cons, ih]
      by_cases hk : k' = e.1
      · have hne : k ≠ k' := fun h => he (hk.symm.trans h.symm)
        simp only [beq_iff_eq.mpr hk, if_neg hne]
      · rw [beq_false_of_ne hk]

@[simp]
theorem lookup_insertEntry (es : List (κ × α)) (k k' : κ) (v : α) :
    (insertEntry es k v).lookup k' = if k = k' then some v else es.lookup k' := by
  rw [insertEntry, List.lookup_cons, lookup_eraseEntry]
  by_cases hk : k = k'
  · simp [hk]
  · rw [beq_false_of_ne (Ne.symm hk), if_neg hk, if_neg hk]

theorem mem_iff_lookup (h : (es.map Prod.fst).Nodup) {key : κ} {a : α} :
    (key, a) ∈ es ↔ es.lookup key = some a := by
  induction es with
  | nil => simp
  | cons e es ih =>
    obtain ⟨hfst, hes⟩ := List.nodup_cons.mp h
    rw [List.mem_cons, ih hes, List.lookup_cons]
    by_cases hkey : key = e.1
    · have hnot : es.lookup key ≠ some a := fun hlookup =>
        hfst (hkey ▸ List.mem_map.mpr ⟨_, (ih hes).mpr hlookup, rfl⟩)
      rw [beq_iff_eq.mpr hkey]
      constructor
      · rintro (rfl | hmem)
        · rfl
        · exact absurd hmem hnot
      · intro heq
        exact Or.inl (Prod.ext hkey (Option.some.inj heq).symm)
    · rw [beq_false_of_ne hkey]
      constructor
      · rintro (rfl | hmem)
        · exact absurd rfl hkey
        · exact hmem
      · exact Or.inr

/-- The last value of a key is what counts. -/
theorem insertEntry_insertEntry (es : List (κ × α)) (k : κ) (v w : α) :
    insertEntry (insertEntry es k v) k w = insertEntry es k w := by
  unfold insertEntry eraseEntry
  rw [List.filter_cons_of_neg (by simp), List.filter_filter]
  simp only [Bool.and_self]

theorem length_insertEntry_le (es : List (κ × α)) (k : κ) (v : α) :
    (insertEntry es k v).length ≤ es.length + 1 :=
  Nat.succ_le_succ (List.length_filter_le _ _)

theorem length_eraseEntry_lt {k : κ} {v : α} (h : (k, v) ∈ es) :
    (eraseEntry es k).length < es.length :=
  List.length_filter_lt_length_iff_exists.mpr ⟨(k, v), h, by simp⟩

/-- The value of a key is replaced where it stands, or the key is new and last. -/
def setEntry (k : κ) (v : α) : List (κ × α) → List (κ × α)
  | [] => [(k, v)]
  | e :: es => if e.1 = k then (k, v) :: es else e :: setEntry k v es

theorem lookup_setEntry (es : List (κ × α)) (k k' : κ) (v : α) :
    (setEntry k v es).lookup k' = if k = k' then some v else es.lookup k' := by
  induction es with
  | nil =>
    by_cases hk : k = k'
    · simp [setEntry, hk]
    · simp only [setEntry, List.lookup_cons, List.lookup_nil, beq_false_of_ne (Ne.symm hk), if_neg hk]
  | cons e es ih =>
    obtain ⟨a, w⟩ := e
    unfold setEntry
    by_cases ha : a = k
    · rw [if_pos ha]
      by_cases hk : k = k'
      · simp [hk]
      · simp only [List.lookup_cons, beq_false_of_ne (Ne.symm hk), if_neg hk, ha]
    · rw [if_neg ha, List.lookup_cons, List.lookup_cons, ih]
      by_cases hk : k = k'
      · have hne : k' ≠ a := hk ▸ Ne.symm ha
        rw [if_pos hk, if_pos hk, beq_false_of_ne hne]
      · rw [if_neg hk, if_neg hk]

theorem mem_setEntry {k : κ} {v : α} {e : κ × α}
    (h : e ∈ setEntry k v es) : e = (k, v) ∨ e ∈ es := by
  induction es with
  | nil => exact Or.inl (List.mem_singleton.mp h)
  | cons f es ih =>
    unfold setEntry at h
    split at h
    · rcases List.mem_cons.mp h with rfl | hmem
      · exact Or.inl rfl
      · exact Or.inr (List.mem_cons_of_mem _ hmem)
    · rcases List.mem_cons.mp h with rfl | hmem
      · exact Or.inr (List.mem_cons_self ..)
      · exact (ih hmem).imp_right (List.mem_cons_of_mem _)

theorem nodup_setEntry {k : κ} {v : α} (h : (es.map Prod.fst).Nodup) :
    ((setEntry k v es).map Prod.fst).Nodup := by
  induction es with
  | nil => simp [setEntry]
  | cons f es ih =>
    rw [List.map_cons, List.nodup_cons] at h
    unfold setEntry
    split
    · next hk =>
      rw [List.map_cons, List.nodup_cons, ← hk]
      exact h
    · next hk =>
      rw [List.map_cons, List.nodup_cons]
      refine ⟨fun hmem => ?_, ih h.2⟩
      obtain ⟨e, he, hfst⟩ := List.mem_map.mp hmem
      rcases mem_setEntry he with rfl | hold
      · exact hk hfst.symm
      · exact h.1 (hfst ▸ List.mem_map_of_mem hold)

/-- Setting a key to the value it has changes nothing. -/
theorem setEntry_self {k : κ} {v : α} (h : es.lookup k = some v) : setEntry k v es = es := by
  induction es with
  | nil => cases h
  | cons e es ih =>
    obtain ⟨a, w⟩ := e
    unfold setEntry
    by_cases ha : a = k
    · rw [ha, List.lookup_cons, beq_self_eq_true] at h
      rw [if_pos ha, ha, Option.some.inj h]
    · rw [List.lookup_cons, beq_false_of_ne (Ne.symm ha)] at h
      rw [if_neg ha, ih h]

end Entries
