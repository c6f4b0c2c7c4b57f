import Mathlib.Data.List.Basic
import Mathlib.Data.List.Flatten
import Mathlib.Data.List.Perm.Basic
import Mathlib.Data.Finset.Insert

/-!
# Walks and levels

A walk takes one edge after the other. Which edges may be taken in each place is given by a
`Next` function, and a list of them is a schedule. `walks` are the walks along a schedule, and
`level` the nodes in which they end, as often as walks end there. What the last place of the
schedule offers at the level before is what the walks take last (`last_hops`), so that walks can be
counted level by level.

A search that leaves out what it met before keeps the `fresh` part of each level.
-/

namespace Levels

variable {ν ε : Type*}

/-- The edges that may be taken from a node, each with the node it leads to. -/
abbrev Next (ν ε : Type*) := ν → List (ε × ν)

/-- The walks from a node that take one edge in each place of the schedule. -/
def walks : List (Next ν ε) → ν → List (List (ε × ν))
  | [], _ => [[]]
  | next :: rest, node => (next node).flatMap fun hop => (walks rest hop.2).map (hop :: ·)

/-- The edges that are taken from the nodes, one for each time a node is there. -/
def hops (next : Next ν ε) (nodes : List ν) : List (ε × ν) := nodes.flatMap next

/-- The nodes where the walks from the nodes end, one for each walk. -/
def level : List (Next ν ε) → List ν → List ν
  | [], nodes => nodes
  | next :: rest, nodes => level rest ((hops next nodes).map Prod.snd)

theorem hops_perm {next : Next ν ε} {nodes nodes' : List ν} (h : nodes.Perm nodes') :
    (hops next nodes).Perm (hops next nodes') := h.flatMap_right next

theorem mem_hops {next : Next ν ε} {nodes : List ν} {hop : ε × ν} :
    hop ∈ hops next nodes ↔ ∃ node ∈ nodes, hop ∈ next node := List.mem_flatMap

theorem level_snoc (schedule : List (Next ν ε)) (next : Next ν ε) (nodes : List ν) :
    level (schedule ++ [next]) nodes = (hops next (level schedule nodes)).map Prod.snd := by
  induction schedule generalizing nodes with
  | nil => rfl
  | cons first rest ih => exact ih _

theorem length_of_mem_walks {schedule : List (Next ν ε)} {node : ν} {walk : List (ε × ν)}
    (h : walk ∈ walks schedule node) : walk.length = schedule.length := by
  induction schedule generalizing node walk with
  | nil =>
    obtain rfl := List.mem_singleton.mp h
    rfl
  | cons next rest ih =>
    obtain ⟨hop, -, hwalk⟩ := List.mem_flatMap.mp h
    obtain ⟨tail, htail, rfl⟩ := List.mem_map.mp hwalk
    exact congrArg (· + 1) (ih htail)

/-- What the walks take last is what the last place offers at the level before. -/
theorem last_hops (schedule : List (Next ν ε)) (next : Next ν ε) (nodes : List ν) :
    (nodes.flatMap (walks (schedule ++ [next]))).map List.getLast? =
      (hops next (level schedule nodes)).map some := by
  induction schedule generalizing nodes with
  | nil =>
    have hone : ∀ node, (walks [next] node).map List.getLast? = (next node).map some := by
      intro node
      simp only [walks, List.map_singleton, List.map_flatMap]
      exact List.flatMap_pure_eq_map _ _
    rw [List.map_flatMap, List.nil_append]
    simp only [hone]
    exact (List.map_flatMap).symm
  | cons first rest ih =>
    have htail : ∀ hop : ε × ν, ((walks (rest ++ [next]) hop.2).map (hop :: ·)).map List.getLast? =
        (walks (rest ++ [next]) hop.2).map List.getLast? := by
      intro hop
      rw [List.map_map]
      refine List.map_congr_left fun tail htail => ?_
      have hlength := length_of_mem_walks htail
      cases tail with
      | nil => simp at hlength
      | cons second tail => rfl
    have hstep : (nodes.flatMap (walks (first :: rest ++ [next]))).map List.getLast? =
        ((((hops first nodes).map Prod.snd).flatMap (walks (rest ++ [next]))).map
          List.getLast?) := by
      simp only [List.cons_append, walks, hops, List.map_flatMap, List.flatMap_map,
        List.flatMap_assoc, htail]
    rw [hstep, ih]
    rfl

/-! ## Lists up to repetition -/

/-- The lists have the same elements, and under a condition as often. -/
structure Like {α : Type*} (c : Prop) (xs ys : List α) : Prop where
  mem : ∀ x, x ∈ xs ↔ x ∈ ys
  perm : c → xs.Perm ys

namespace Like

variable {α β : Type*} {c : Prop} {xs ys zs xs' ys' : List α}

theorem refl (c : Prop) (xs : List α) : Like c xs xs := ⟨fun _ => Iff.rfl, fun _ => List.Perm.refl _⟩

theorem of_perm (h : xs.Perm ys) : Like c xs ys := ⟨fun _ => h.mem_iff, fun _ => h⟩

theorem trans (h : Like c xs ys) (h' : Like c ys zs) : Like c xs zs :=
  ⟨fun x => (h.mem x).trans (h'.mem x), fun hc => (h.perm hc).trans (h'.perm hc)⟩

theorem append (h : Like c xs ys) (h' : Like c xs' ys') : Like c (xs ++ xs') (ys ++ ys') :=
  ⟨fun x => by rw [List.mem_append, List.mem_append, h.mem, h'.mem],
    fun hc => (h.perm hc).append (h'.perm hc)⟩

theorem map (h : Like c xs ys) (f : α → β) : Like c (xs.map f) (ys.map f) :=
  ⟨fun x => by simp only [List.mem_map, h.mem], fun hc => (h.perm hc).map f⟩

theorem hops {next : Next ν ε} {nodes nodes' : List ν} (h : Like c nodes nodes') :
    Like c (hops next nodes) (hops next nodes') :=
  ⟨fun x => by simp only [mem_hops, h.mem], fun hc => hops_perm (h.perm hc)⟩

end Like

/-! ## First occurrences -/

section Fresh

variable {α κ : Type*} [DecidableEq κ] {key : α → κ}

/-- The elements whose key is met for the first time. -/
def fresh (key : α → κ) : Finset κ → List α → List α
  | _, [] => []
  | visited, x :: rest =>
    if key x ∈ visited then fresh key visited rest
    else x :: fresh key (insert (key x) visited) rest

theorem fresh_sublist (visited : Finset κ) (xs : List α) : (fresh key visited xs).Sublist xs := by
  induction xs generalizing visited with
  | nil => exact List.Sublist.refl _
  | cons x rest ih =>
    rw [fresh]
    split
    · exact (ih visited).cons x
    · exact (ih _).cons_cons x

theorem notMem_of_mem_fresh {visited : Finset κ} {xs : List α} {x : α}
    (h : x ∈ fresh key visited xs) : key x ∉ visited := by
  induction xs generalizing visited with
  | nil => cases h
  | cons y rest ih =>
    rw [fresh] at h
    split at h
    · exact ih h
    · rename_i hy
      rcases List.mem_cons.mp h with rfl | h
      · exact hy
      · exact fun hx => ih h (Finset.mem_insert_of_mem hx)

theorem nodup_fresh (visited : Finset κ) (xs : List α) :
    ((fresh key visited xs).map key).Nodup := by
  induction xs generalizing visited with
  | nil => exact List.nodup_nil
  | cons x rest ih =>
    rw [fresh]
    split
    · exact ih visited
    · refine List.nodup_cons.mpr ⟨fun hmem => ?_, ih _⟩
      obtain ⟨y, hy, hkey⟩ := List.mem_map.mp hmem
      exact notMem_of_mem_fresh hy (hkey ▸ Finset.mem_insert_self _ _)

/-- Every key was visited before or is met for the first time once. -/
theorem exists_fresh {visited : Finset κ} {xs : List α} {x : α} (h : x ∈ xs)
    (hx : key x ∉ visited) : ∃ y ∈ fresh key visited xs, key y = key x := by
  induction xs generalizing visited with
  | nil => cases h
  | cons y rest ih =>
    rw [fresh]
    by_cases hy : key y ∈ visited
    · rw [if_pos hy]
      rcases List.mem_cons.mp h with rfl | h
      · exact absurd hy hx
      · exact ih h hx
    · rw [if_neg hy]
      by_cases heq : key y = key x
      · exact ⟨y, List.mem_cons_self, heq⟩
      · rcases List.mem_cons.mp h with rfl | h
        · exact absurd rfl heq
        · obtain ⟨z, hz, hkey⟩ := ih h (by
            rw [Finset.mem_insert, not_or]
            exact ⟨Ne.symm heq, hx⟩)
          exact ⟨z, List.mem_cons_of_mem _ hz, hkey⟩

end Fresh

end Levels
