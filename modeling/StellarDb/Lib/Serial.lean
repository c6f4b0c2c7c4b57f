import Mathlib.Data.List.Basic
import Mathlib.Data.List.Permutation

/-!
# Serial orders

A value that several calls change, each as a whole. It is `Serialized` when it comes from the first
value by the calls that are done, each once, in some order. A call that changes the value as it
finds it is put last in the order (`Serialized.commit`).
-/

namespace Serials

variable {ι α : Type*} {apply : ι → α → α} {done done' : ι → Prop} {v₀ v : α}

/-- The value after the calls in this order. -/
def serial (apply : ι → α → α) (order : List ι) (v₀ : α) : α :=
  order.foldl (fun v i => apply i v) v₀

/-- The value comes from the first one by the calls that are done, in some order. -/
def Serialized (apply : ι → α → α) (done : ι → Prop) (v₀ v : α) : Prop :=
  ∃ order : List ι, order.Nodup ∧ (∀ i, i ∈ order ↔ done i) ∧ serial apply order v₀ = v

theorem Serialized.initial (h : ∀ i, ¬done i) : Serialized apply done v v :=
  ⟨[], List.nodup_nil, fun i => by simpa using h i, rfl⟩

theorem Serialized.congr (h : Serialized apply done v₀ v) (hdone : ∀ i, done' i ↔ done i) :
    Serialized apply done' v₀ v := by
  obtain ⟨order, hnodup, hmem, hv⟩ := h
  exact ⟨order, hnodup, fun i => (hmem i).trans (hdone i).symm, hv⟩

/-- One more call, last in the order. -/
theorem Serialized.commit (h : Serialized apply done v₀ v) {i : ι} (hi : ¬done i)
    (hdone : ∀ j, done' j ↔ done j ∨ j = i) : Serialized apply done' v₀ (apply i v) := by
  obtain ⟨order, hnodup, hmem, hv⟩ := h
  refine ⟨order ++ [i], ?_, fun j => ?_, ?_⟩
  · refine List.nodup_append.mpr ⟨hnodup, List.nodup_singleton i, ?_⟩
    rintro a ha b hb rfl
    obtain rfl := List.mem_singleton.mp hb
    exact hi ((hmem a).mp ha)
  · rw [List.mem_append, List.mem_singleton, hmem, hdone]
  · rw [← hv]
    exact List.foldl_append

/-- The orders of finitely many calls. -/
theorem serialized_iff_permutations {calls : List ι} (hnodup : calls.Nodup)
    (hdone : ∀ i, done i ↔ i ∈ calls) : Serialized apply done v₀ v ↔
      ∃ order ∈ calls.permutations', serial apply order v₀ = v := by
  constructor
  · rintro ⟨order, horder, hmem, hv⟩
    refine ⟨order, List.mem_permutations'.mpr ?_, hv⟩
    exact (List.perm_ext_iff_of_nodup horder hnodup).mpr fun i => (hmem i).trans (hdone i)
  · rintro ⟨order, horder, hv⟩
    have hperm := List.mem_permutations'.mp horder
    exact ⟨order, hperm.nodup_iff.mpr hnodup, fun i => (hperm.mem_iff).trans (hdone i).symm, hv⟩

end Serials
