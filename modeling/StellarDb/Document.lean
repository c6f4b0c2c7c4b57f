import StellarDb.Value
import StellarDb.Lib.Entries

/-!
# StellarDb — documents as maps (`document.rs`)

Fields are inserted into and removed from a document; the id says where it is stored.
-/

namespace StellarDb

open Entries

theorem Value.wf_object_iff {es : List (String × Value)} : (Value.object es).wf = true ↔
    (es.map Prod.fst).Nodup ∧ ∀ e ∈ es, e.2.wf = true := by
  rw [Value.wf, Bool.and_eq_true, decide_eq_true_iff, Value.wfEntries_iff]

theorem Value.wf_string (s : String) : (Value.string s).wf = true := rfl

theorem Value.wf_int (n : Int64) : (Value.int n).wf = true := rfl

theorem Value.wf_insertEntry {es : List (String × Value)} (h : (Value.object es).wf = true)
    (k : String) {v : Value} (hv : v.wf = true) : (Value.object (insertEntry es k v)).wf = true := by
  obtain ⟨hnodup, hwf⟩ := wf_object_iff.mp h
  refine wf_object_iff.mpr ⟨nodup_insertEntry hnodup k v, fun e he => ?_⟩
  rcases mem_insertEntry.mp he with rfl | ⟨hmem, -⟩
  · exact hv
  · exact hwf e hmem

theorem Value.wf_eraseEntry {es : List (String × Value)} (h : (Value.object es).wf = true)
    (k : String) : (Value.object (eraseEntry es k)).wf = true := by
  obtain ⟨hnodup, hwf⟩ := wf_object_iff.mp h
  exact wf_object_iff.mpr ⟨nodup_eraseEntry hnodup k, fun e he => hwf e (mem_eraseEntry.mp he).1⟩

theorem Value.wf_setEntry {k : String} {v : Value} {es : List (String × Value)}
    (h : (Value.object es).wf = true) (hv : v.wf = true) :
    (Value.object (setEntry k v es)).wf = true := by
  rw [wf_object_iff] at h ⊢
  refine ⟨nodup_setEntry h.1, fun e he => ?_⟩
  rcases mem_setEntry he with rfl | hold
  · exact hv
  · exact h.2 e hold

namespace Document

/-- `doc.fields.insert` -/
def insertField (doc : Document) (k : String) (v : Value) (hv : v.wf = true) : Document where
  id := doc.id
  fields := insertEntry doc.fields k v
  wf := Value.wf_insertEntry doc.wf k hv

/-- `doc.fields.remove` -/
def removeField (doc : Document) (k : String) : Document where
  id := doc.id
  fields := eraseEntry doc.fields k
  wf := Value.wf_eraseEntry doc.wf k

@[simp]
theorem insertField_id (doc : Document) (k : String) (v : Value) (hv : v.wf = true) :
    (doc.insertField k v hv).id = doc.id := rfl

@[simp]
theorem lookup_insertField (doc : Document) (k k' : String) (v : Value) (hv : v.wf = true) :
    (doc.insertField k v hv).fields.lookup k' = if k = k' then some v else doc.fields.lookup k' :=
  lookup_insertEntry ..

@[simp]
theorem lookup_removeField (doc : Document) (k k' : String) :
    (doc.removeField k).fields.lookup k' = if k = k' then none else doc.fields.lookup k' :=
  lookup_eraseEntry ..

/-! ## Ids -/

section Id

variable {doc : Document} {c k : String}

theorem collection_of_id (hc : ':' ∉ c.toList) (h : doc.id = c ++ ":" ++ k) :
    doc.collection = c := by
  have hfront : ∀ x ∈ c.toList, decide (x ≠ ':') = true :=
    fun x hx => decide_eq_true fun heq => hc (heq ▸ hx)
  have hlist : doc.id.toList = c.toList ++ ':' :: k.toList := by
    rw [h]
    simp
  unfold collection
  rw [hlist, List.takeWhile_append_of_pos hfront, List.takeWhile_cons_of_neg (by simp),
    List.append_nil, String.ofList_toList]

theorem key_of_id (hc : ':' ∉ c.toList) (h : doc.id = c ++ ":" ++ k) : doc.key = k := by
  have hfront : ∀ x ∈ c.toList, decide (x ≠ ':') = true :=
    fun x hx => decide_eq_true fun heq => hc (heq ▸ hx)
  have hlist : doc.id.toList = c.toList ++ ':' :: k.toList := by
    rw [h]
    simp
  unfold key splitOnce
  rw [hlist, if_pos (List.mem_append_right _ List.mem_cons_self),
    List.takeWhile_append_of_pos hfront, List.dropWhile_append_of_pos hfront,
    List.dropWhile_cons_of_neg (by simp), List.drop_one, List.tail_cons, String.ofList_toList]

/-- Documents with one id are stored in one place. -/
theorem collection_congr {doc' : Document} (h : doc.id = doc'.id) :
    doc.collection = doc'.collection := by
  unfold collection
  rw [h]

theorem key_congr {doc' : Document} (h : doc.id = doc'.id) : doc.key = doc'.key := by
  unfold key
  rw [h]

end Id

end Document

end StellarDb
