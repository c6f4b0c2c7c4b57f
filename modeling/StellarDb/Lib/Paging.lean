import Mathlib

/-!
# Reading page by page

A client reads a listing with a cursor: it starts with none, passes on the cursor it got, and
stops when it gets none (`Drains`). Pages are cut from one list by looking the cursor up among
the keys of its items (`Cuts`); with distinct keys such a client reads the list once, from front
to end (`drains_from`). A page may return a cursor when it is full (`pageAfter`), or only when it
knows that there is more.
-/

namespace Paging

variable {α κ ε : Type}

/-- Reading on from a cursor until none is returned gives the items. -/
inductive Drains (page : Option κ → Except ε (List α × Option κ)) : Option κ → List α → Prop
  | last {after : Option κ} {items : List α} (h : page after = .ok (items, none)) :
    Drains page after items
  | next {after : Option κ} {items rest : List α} {cursor : κ}
    (h : page after = .ok (items, some cursor)) (hrest : Drains page (some cursor) rest) :
    Drains page after (items ++ rest)

/-- A client reads one list at most. -/
theorem Drains.unique {page : Option κ → Except ε (List α × Option κ)} {after : Option κ}
    {items items' : List α} (h : Drains page after items) (h' : Drains page after items') :
    items = items' := by
  induction h generalizing items' with
  | last h =>
    cases h' with
    | last h2 =>
      rw [h, Except.ok.injEq, Prod.mk.injEq] at h2
      exact h2.1
    | next h2 _ =>
      rw [h, Except.ok.injEq, Prod.mk.injEq] at h2
      exact absurd h2.2 (by simp)
  | next h _ ih =>
    cases h' with
    | last h2 =>
      rw [h, Except.ok.injEq, Prod.mk.injEq] at h2
      exact absurd h2.2 (by simp)
    | next h2 hrest2 =>
      rw [h, Except.ok.injEq, Prod.mk.injEq, Option.some_inj] at h2
      obtain ⟨rfl, rfl⟩ := h2
      rw [ih hrest2]

variable [DecidableEq κ]

/-- Where to go on: behind the item with the cursor's key, or at the end if there is none. -/
def startAfter (key : α → κ) (all : List α) : Option κ → Nat
  | none => 0
  | some cursor =>
    match all.findIdx? fun a => key a = cursor with
    | some i => i + 1
    | none => all.length

/-- A page, and the key of its last item if the page is full. -/
def pageAfter (key : α → κ) (all : List α) (limit : Nat) (after : Option κ) :
    List α × Option κ :=
  let page := (all.drop (startAfter key all after)).take limit
  (page, if page.length = limit then page.getLast?.map key else none)

theorem startAfter_cons (key : α → κ) (a : α) (all : List α) (cursor : κ) :
    startAfter key (a :: all) (some cursor) =
      if key a = cursor then 1 else startAfter key all (some cursor) + 1 := by
  simp only [startAfter, List.findIdx?_cons]
  by_cases h : key a = cursor
  · simp [h]
  · cases all.findIdx? fun b => key b = cursor <;> simp [h]

theorem startAfter_map {β : Type} (key : β → κ) (f : α → β) (all : List α) (after : Option κ) :
    startAfter key (all.map f) after = startAfter (fun a => key (f a)) all after := by
  cases after with
  | none => rfl
  | some cursor =>
    induction all with
    | nil => rfl
    | cons a all ih => rw [List.map_cons, startAfter_cons, startAfter_cons, ih]

theorem startAfter_getLast {key : α → κ} {all front rest : List α} {a : α}
    (hall : all = (front ++ [a]) ++ rest) (hkeys : (all.map key).Nodup) :
    startAfter key all (some (key a)) = (front ++ [a]).length := by
  have hfind : all.findIdx? (fun b => key b = key a) = some front.length := by
    subst hall
    rw [List.map_append, List.map_append, List.nodup_append, List.nodup_append] at hkeys
    have hfront : ∀ b ∈ front, decide (key b = key a) = false := by
      intro b hb
      have hne := hkeys.1.2.2 (key b) (List.mem_map_of_mem hb) (key a) (by simp)
      simpa using hne
    rw [List.append_assoc, List.findIdx?_append,
      List.findIdx?_eq_none_iff.mpr hfront]
    simp [List.findIdx?_cons]
  simp [startAfter, hfind]

/-- A page that starts where its cursor says: the cursor it returns is the key of its last item,
and it returns none only at the end of the list. -/
structure Cuts (key : α → κ) (all : List α) (limit : Nat) (after : Option κ)
    (r : List α × Option κ) : Prop where
  items : r.1 = (all.drop (startAfter key all after)).take limit
  last : r.2 = none → (all.drop (startAfter key all after)).length ≤ limit
  next : ∀ cursor, r.2 = some cursor → r.1.getLast?.map key = some cursor

theorem cuts_pageAfter {key : α → κ} {all : List α} {limit : Nat} (hlimit : 1 ≤ limit)
    (after : Option κ) : Cuts key all limit after (pageAfter key all limit after) where
  items := rfl
  last := by
    intro hnone
    simp only [pageAfter] at hnone
    split at hnone
    · next hfull =>
      rw [Option.map_eq_none_iff, List.getLast?_eq_none_iff] at hnone
      rw [hnone, List.length_nil] at hfull
      omega
    · next hshort =>
      rw [List.length_take] at hshort
      omega
  next := by
    intro cursor hcursor
    simp only [pageAfter] at hcursor ⊢
    split at hcursor
    · exact hcursor
    · cases hcursor

/-- Reading from a point where the front part of the list has been read. -/
theorem drains_from {key : α → κ} {all : List α} {limit : Nat}
    {page : Option κ → Except ε (List α × Option κ)} (hkeys : (all.map key).Nodup)
    (hpage : ∀ after, ∃ r, page after = .ok r ∧ Cuts key all limit after r) (after : Option κ) :
    Drains page after (all.drop (startAfter key all after)) := by
  -- what is left gets shorter with every page that has a successor
  induction hn : (all.drop (startAfter key all after)).length using Nat.strong_induction_on
    generalizing after with
  | _ n ih =>
    obtain ⟨⟨items, next⟩, hread, hcut⟩ := hpage after
    have hitems : items = (all.drop (startAfter key all after)).take limit := hcut.items
    set rest := all.drop (startAfter key all after) with hrest
    cases next with
    | none =>
      have hend : rest = items := (hitems.trans (List.take_of_length_le (hcut.last rfl))).symm
      rw [hend]
      exact .last hread
    | some cursor =>
      -- the last item of the page tells where the rest begins
      obtain ⟨a, hlast, rfl⟩ := Option.map_eq_some_iff.mp (hcut.next cursor rfl)
      obtain ⟨front, hfront⟩ := List.getLast?_eq_some_iff.mp hlast
      have hall : all = ((all.take (startAfter key all after) ++ front) ++ [a]) ++
          rest.drop limit := by
        rw [List.append_assoc (all.take _), ← hfront, hitems, List.append_assoc,
          List.take_append_drop, hrest, List.take_append_drop]
      have hdrop : all.drop (startAfter key all (some (key a))) = rest.drop limit := by
        rw [startAfter_getLast hall hkeys]
        exact (congrArg (List.drop _) hall).trans List.drop_left
      have hlt : (rest.drop limit).length < n := by
        have hlen := congrArg List.length (hitems.symm.trans hfront)
        rw [List.length_take, List.length_append, List.length_singleton] at hlen
        rw [List.length_drop, ← hn]
        omega
      have hdrains := ih _ hlt (some (key a)) (by rw [hdrop])
      rw [hdrop] at hdrains
      rw [← List.take_append_drop limit rest, ← hitems]
      exact .next hread hdrains

/-- A client that follows the cursors of pages cut from one list reads that list. -/
theorem drains_pageAfter {key : α → κ} {all : List α} {limit : Nat}
    {page : Option κ → Except ε (List α × Option κ)} (hlimit : 1 ≤ limit)
    (hkeys : (all.map key).Nodup)
    (hpage : ∀ after, page after = .ok (pageAfter key all limit after)) :
    Drains page none all :=
  drains_from hkeys (fun after => ⟨_, hpage after, cuts_pageAfter hlimit after⟩) none

end Paging
