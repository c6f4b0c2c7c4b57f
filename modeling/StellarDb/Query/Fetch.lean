import Mathlib.Data.Set.Insert
import StellarDb.Lib.Entries
import StellarDb.Document
import StellarDb.Query.Eval

/-!
# StellarDb — FETCH (`execute/fetch.rs`)

For every prefix of every path the references found there are collected, their documents loaded
in one batch, and the references replaced. Arrays are walked through at every level, so a place
of a path is a set of leaves (`Value.leaves`, `Value.onLeaves`).

`expand` says what comes of it: along a set of paths, every value at a place is replaced once and
then entered. One pass at a path adds that path to the set (`passAt_expand`), and which documents
it loads does not depend on the paths before it (`refsAt_expand`); a whole FETCH depends on the
set of the prefixes only.
-/

namespace StellarDb

open Entries

structure FetchItem where
  path : List String
  aliasName : Option String

/-! ## Collecting -/

/-- `refs.push(id)` unless it is there. -/
def pushRef (id : String) (refs : List String) : List String :=
  if id ∈ refs then refs else refs ++ [id]

mutual

/-- `collect_refs_at_depth_value` -/
def collectRefsAtDepthValue : Value → List String → List String → List String
  | .reference id, [], refs => pushRef id refs
  -- strings of the form `collection:key` count as references
  | .string s, [], refs => if ':' ∈ s.toList then pushRef s refs else refs
  | .array items, path, refs => collectItems items path refs
  | .object obj, field :: rest, refs => collectField obj field rest refs
  | _, _, refs => refs

def collectItems : List Value → List String → List String → List String
  | [], _, refs => refs
  | item :: items, path, refs =>
    collectItems items path (collectRefsAtDepthValue item path refs)

/-- The value under the field, if there is one. -/
def collectField : List (String × Value) → String → List String → List String → List String
  | [], _, _, refs => refs
  | (k, v) :: obj, field, rest, refs =>
    if k = field then collectRefsAtDepthValue v rest refs else collectField obj field rest refs

end

def collectRefsAtDepth (doc : Document) (path : List String) (refs : List String) :
    List String :=
  match path with
  | [] => refs
  | field :: rest => collectField doc.fields field rest refs

/-! ## Replacing -/

/-- The fields with the id among them. -/
def documentToValue (doc : Document) : Value :=
  .object (setEntry "id" (.string doc.id) doc.fields)

mutual

/-- `replace_ref_value` -/
def replaceRefValue (docs : String → Option Document) : Value → Value
  | .reference id =>
    match docs id with
    | some doc => documentToValue doc
    | none => .null
  | .string s =>
    if ':' ∈ s.toList then
      match docs s with
      | some doc => documentToValue doc
      | none => .string s
    else .string s
  | .array items => .array (replaceRefValues docs items)
  | other => other

def replaceRefValues (docs : String → Option Document) : List Value → List Value
  | [] => []
  | v :: vs => replaceRefValue docs v :: replaceRefValues docs vs

end

/-- The replaced value goes under the alias, or back under its field. -/
def replaceField (docs : String → Option Document) (aliasName : Option String) (field : String)
    (obj : List (String × Value)) : List (String × Value) :=
  match obj.lookup field with
  | some inner => setEntry (aliasName.getD field) (replaceRefValue docs inner) obj
  | none => obj

mutual

/-- `replace_refs_at_depth_value` -/
def replaceRefsAtDepthValue (docs : String → Option Document) (aliasName : Option String) :
    Value → List String → Value
  | .object obj, [field] => .object (replaceField docs aliasName field obj)
  | .object obj, field :: next :: rest =>
    .object (replaceInField docs aliasName obj field (next :: rest))
  | .array items, field :: rest => .array (replaceInItems docs aliasName items (field :: rest))
  | v, _ => v

def replaceInItems (docs : String → Option Document) (aliasName : Option String) :
    List Value → List String → List Value
  | [], _ => []
  | v :: vs, path =>
    replaceRefsAtDepthValue docs aliasName v path :: replaceInItems docs aliasName vs path

/-- The value under the field changed in place. -/
def replaceInField (docs : String → Option Document) (aliasName : Option String) :
    List (String × Value) → String → List String → List (String × Value)
  | [], _, _ => []
  | (k, v) :: obj, field, path =>
    if k = field then (k, replaceRefsAtDepthValue docs aliasName v path) :: obj
    else (k, v) :: replaceInField docs aliasName obj field path

end

/-! ## Maps stay maps -/

section Wf

variable (docs : String → Option Document) (aliasName : Option String)

theorem wf_documentToValue (doc : Document) : (documentToValue doc).wf = true :=
  Value.wf_setEntry doc.wf rfl

theorem replaceRefValues_eq_map (vs : List Value) :
    replaceRefValues docs vs = vs.map (replaceRefValue docs) := by
  induction vs with
  | nil => rfl
  | cons v vs ih => rw [replaceRefValues, ih, List.map_cons]

theorem wf_replaceRefValue (v : Value) (h : v.wf = true) :
    (replaceRefValue docs v).wf = true := by
  induction v with
  | reference id =>
    unfold replaceRefValue
    split
    · exact wf_documentToValue _
    · rfl
  | string s =>
    unfold replaceRefValue
    split
    · split
      · exact wf_documentToValue _
      · rfl
    · rfl
  | array items ih =>
    rw [Value.wf, Value.wfElems_iff] at h
    rw [replaceRefValue, Value.wf, Value.wfElems_iff, replaceRefValues_eq_map,
      List.forall_mem_map]
    exact fun v hv => ih v hv (h v hv)
  | _ => exact h

theorem wf_replaceField {field : String} {obj : List (String × Value)}
    (h : (Value.object obj).wf = true) :
    (Value.object (replaceField docs aliasName field obj)).wf = true := by
  unfold replaceField
  split
  · next inner hinner =>
    have hwf := (Value.wf_object_iff.mp h).2 _ (Value.mem_of_lookup hinner)
    exact Value.wf_setEntry h (wf_replaceRefValue docs inner hwf)
  · exact h

theorem map_fst_replaceInField (obj : List (String × Value)) (field : String)
    (path : List String) :
    (replaceInField docs aliasName obj field path).map Prod.fst = obj.map Prod.fst := by
  induction obj with
  | nil => rfl
  | cons e obj ih =>
    unfold replaceInField
    split
    · rfl
    · rw [List.map_cons, List.map_cons, ih]

mutual

theorem wf_replaceRefsAtDepthValue (v : Value) (path : List String) (h : v.wf = true) :
    (replaceRefsAtDepthValue docs aliasName v path).wf = true := by
  match v, path with
  | .object obj, [] => exact h
  | .object obj, [field] => exact wf_replaceField docs aliasName h
  | .object obj, field :: next :: rest =>
    rw [replaceRefsAtDepthValue]
    rw [Value.wf_object_iff] at h ⊢
    rw [map_fst_replaceInField]
    exact ⟨h.1, wf_replaceInField obj field (next :: rest) h.2⟩
  | .array items, [] => exact h
  | .array items, field :: rest =>
    rw [Value.wf, Value.wfElems_iff] at h
    rw [replaceRefsAtDepthValue, Value.wf, Value.wfElems_iff]
    exact wf_replaceInItems items (field :: rest) h
  | .null, _ => exact h
  | .bool _, _ => exact h
  | .int _, _ => exact h
  | .float _, _ => exact h
  | .decimal _, _ => exact h
  | .string _, _ => exact h
  | .reference _, _ => exact h
  | .datetime _, _ => exact h
  | .duration _, _ => exact h
  | .bytes _, _ => exact h
  | .range _ _, _ => exact h

theorem wf_replaceInItems (items : List Value) (path : List String)
    (h : ∀ v ∈ items, v.wf = true) :
    ∀ v ∈ replaceInItems docs aliasName items path, v.wf = true := by
  match items with
  | [] => exact nofun
  | v :: vs =>
    rw [List.forall_mem_cons] at h
    rw [replaceInItems, List.forall_mem_cons]
    exact ⟨wf_replaceRefsAtDepthValue v path h.1, wf_replaceInItems vs path h.2⟩

theorem wf_replaceInField (obj : List (String × Value)) (field : String) (path : List String)
    (h : ∀ e ∈ obj, e.2.wf = true) :
    ∀ e ∈ replaceInField docs aliasName obj field path, e.2.wf = true := by
  match obj with
  | [] => exact nofun
  | (k, v) :: obj =>
    rw [List.forall_mem_cons] at h
    unfold replaceInField
    split
    · rw [List.forall_mem_cons]
      exact ⟨wf_replaceRefsAtDepthValue v path h.1, h.2⟩
    · rw [List.forall_mem_cons]
      exact ⟨h.1, wf_replaceInField obj field path h.2⟩

end

end Wf

def replaceRefsAtDepth (docs : String → Option Document) (aliasName : Option String)
    (doc : Document) (path : List String) : Document :=
  match path with
  | [] => doc
  | [field] => ⟨doc.id, replaceField docs aliasName field doc.fields,
      wf_replaceField docs aliasName doc.wf⟩
  | field :: next :: rest => ⟨doc.id, replaceInField docs aliasName doc.fields field (next :: rest),
      wf_replaceRefsAtDepthValue docs aliasName (.object doc.fields) (field :: next :: rest) doc.wf⟩

/-! ## FETCH -/

section Fetch

variable (getDocument : String → String → Except StorageError (Option Document))

/-- The document of one id: an id without a colon names none. -/
def loadDocument (id : String) : Except ExecuteError (Option Document) :=
  match splitOnce ':' id with
  | some (collection, key) =>
    match getDocument collection key with
    | .ok doc => .ok doc
    | .error e => .error (.storage e)
  | none => .ok none

/-- `batch_load_documents` -/
def batchLoadDocuments (refIds : List String) : Except ExecuteError (List (String × Document)) :=
  refIds.foldlM (fun docs id => do
    match ← loadDocument getDocument id with
    | some doc => return insertEntry docs id doc
    | none => return docs) []

/-- One prefix of a path on all rows. -/
def fetchDepth (path : List String) (aliasName : Option String) (rows : List Row) :
    Except ExecuteError (List Row) := do
  let refIds := rows.foldl (fun refs row => collectRefsAtDepth row.doc path refs) []
  let docs ← batchLoadDocuments getDocument refIds
  return rows.map fun row =>
    { row with doc := replaceRefsAtDepth (fun id => docs.lookup id) aliasName row.doc path }

/-- The prefixes of one item's path, the shortest first; the alias is for the last of them. -/
def fetchItem (rows : List Row) (item : FetchItem) : Except ExecuteError (List Row) :=
  (List.range item.path.length).foldlM (fun rows depth =>
    fetchDepth getDocument (item.path.take (depth + 1))
      (if depth = item.path.length - 1 then item.aliasName else none) rows) rows

/-- `execute_fetch` -/
def executeFetch (rows : List Row) (fetchItems : List FetchItem) :
    Except ExecuteError (List Row) :=
  if fetchItems.isEmpty then .ok rows else fetchItems.foldlM (fetchItem getDocument) rows

end Fetch

/-! ## Through arrays -/

namespace Value

mutual

/-- The values an array of arrays holds; any other value is one itself. -/
def leaves : Value → List Value
  | .array items => leavesAll items
  | v => [v]

def leavesAll : List Value → List Value
  | [] => []
  | v :: vs => leaves v ++ leavesAll vs

end

mutual

def onLeaves (h : Value → Value) : Value → Value
  | .array items => .array (onLeavesAll h items)
  | v => h v

def onLeavesAll (h : Value → Value) : List Value → List Value
  | [] => []
  | v :: vs => onLeaves h v :: onLeavesAll h vs

end

def IsLeaf (v : Value) : Prop := ∀ items, v ≠ .array items

theorem leavesAll_eq_flatMap (vs : List Value) : leavesAll vs = vs.flatMap leaves := by
  induction vs with
  | nil => rfl
  | cons v vs ih => rw [leavesAll, ih, List.flatMap_cons]

theorem onLeavesAll_eq_map (h : Value → Value) (vs : List Value) :
    onLeavesAll h vs = vs.map (onLeaves h) := by
  induction vs with
  | nil => rfl
  | cons v vs ih => rw [onLeavesAll, ih, List.map_cons]

theorem onLeaves_of_isLeaf {h : Value → Value} {v : Value} (hv : v.IsLeaf) :
    v.onLeaves h = h v := by
  cases v with
  | array items => exact absurd rfl (hv items)
  | _ => rfl

theorem leaves_of_isLeaf {v : Value} (hv : v.IsLeaf) : v.leaves = [v] := by
  cases v with
  | array items => exact absurd rfl (hv items)
  | _ => rfl

/-- A fact about values from the leaves and from the items of an array. -/
theorem leafInduction {motive : Value → Prop} (leaf : ∀ v, v.IsLeaf → motive v)
    (array : ∀ items, (∀ v ∈ items, motive v) → motive (.array items)) (v : Value) :
    motive v := by
  induction v with
  | array items ih => exact array items ih
  | _ => exact leaf _ nofun

theorem isLeaf_of_mem_leaves {v x : Value} (h : x ∈ v.leaves) : x.IsLeaf := by
  induction v using leafInduction with
  | leaf v hv =>
    rw [leaves_of_isLeaf hv, List.mem_singleton] at h
    exact h ▸ hv
  | array items ih =>
    rw [leaves, leavesAll_eq_flatMap, List.mem_flatMap] at h
    obtain ⟨v, hv, hx⟩ := h
    exact ih v hv hx

theorem onLeaves_congr {h h' : Value → Value} {v : Value} (heq : ∀ x ∈ v.leaves, h x = h' x) :
    v.onLeaves h = v.onLeaves h' := by
  induction v using leafInduction with
  | leaf v hv =>
    rw [onLeaves_of_isLeaf hv, onLeaves_of_isLeaf hv]
    exact heq v (by rw [leaves_of_isLeaf hv]; exact List.mem_singleton_self v)
  | array items ih =>
    rw [onLeaves, onLeaves, onLeavesAll_eq_map, onLeavesAll_eq_map, array.injEq]
    refine List.map_congr_left fun v hv => ih v hv fun x hx => heq x ?_
    rw [leaves, leavesAll_eq_flatMap, List.mem_flatMap]
    exact ⟨v, hv, hx⟩

theorem onLeaves_onLeaves (h k : Value → Value) (v : Value) :
    (v.onLeaves h).onLeaves k = v.onLeaves fun x => (h x).onLeaves k := by
  induction v using leafInduction with
  | leaf v hv => rw [onLeaves_of_isLeaf hv, onLeaves_of_isLeaf hv]
  | array items ih =>
    simp only [onLeaves, onLeavesAll_eq_map, List.map_map, array.injEq]
    exact List.map_congr_left ih

theorem onLeaves_self {h : Value → Value} {v : Value} (heq : ∀ x ∈ v.leaves, h x = x) :
    v.onLeaves h = v := by
  induction v using leafInduction with
  | leaf v hv =>
    rw [onLeaves_of_isLeaf hv]
    exact heq v (by rw [leaves_of_isLeaf hv]; exact List.mem_singleton_self v)
  | array items ih =>
    rw [onLeaves, onLeavesAll_eq_map, array.injEq]
    refine (List.map_congr_left fun v hv => ih v hv fun x hx => heq x ?_).trans (List.map_id' _)
    rw [leaves, leavesAll_eq_flatMap, List.mem_flatMap]
    exact ⟨v, hv, hx⟩

theorem leaves_onLeaves {h : Value → Value} (hleaf : ∀ x, x.IsLeaf → (h x).IsLeaf) (v : Value) :
    (v.onLeaves h).leaves = v.leaves.map h := by
  induction v using leafInduction with
  | leaf v hv =>
    rw [onLeaves_of_isLeaf hv, leaves_of_isLeaf hv, leaves_of_isLeaf (hleaf v hv)]
    rfl
  | array items ih =>
    rw [onLeaves, onLeavesAll_eq_map, leaves, leaves, leavesAll_eq_flatMap, leavesAll_eq_flatMap,
      List.flatMap_map, List.map_flatMap]
    exact List.flatMap_congr ih

theorem wf_of_mem_leaves {v x : Value} (hwf : v.wf = true) (h : x ∈ v.leaves) : x.wf = true := by
  induction v using leafInduction with
  | leaf v hv =>
    rw [leaves_of_isLeaf hv, List.mem_singleton] at h
    exact h ▸ hwf
  | array items ih =>
    rw [wf, wfElems_iff] at hwf
    rw [leaves, leavesAll_eq_flatMap, List.mem_flatMap] at h
    obtain ⟨v, hv, hx⟩ := h
    exact ih v hv (hwf v hv) hx

/-- A change of the entries of an object. -/
def mapObject (g : List (String × Value) → List (String × Value)) : Value → Value
  | .object es => .object (g es)
  | v => v

theorem isLeaf_mapObject (g : List (String × Value) → List (String × Value)) {v : Value}
    (h : v.IsLeaf) : (mapObject g v).IsLeaf := by
  cases v with
  | object es => exact nofun
  | array items => exact absurd rfl (h items)
  | _ => exact h

end Value

/-! ## Replacing by the store -/

section Replace

variable (store : String → Option Document)

theorem replaceRefValue_eq_onLeaves (v : Value) :
    replaceRefValue store v = v.onLeaves (replaceRefValue store) := by
  induction v using Value.leafInduction with
  | leaf v hv => rw [Value.onLeaves_of_isLeaf hv]
  | array items ih =>
    rw [replaceRefValue, Value.onLeaves, replaceRefValues_eq_map, Value.onLeavesAll_eq_map,
      List.map_congr_left ih]

/-- A replaced leaf is an object, null, or what it was. -/
theorem replaceRefValue_leaf {v : Value} (h : v.IsLeaf) :
    (∃ es, replaceRefValue store v = .object es) ∨ replaceRefValue store v = .null ∨
      replaceRefValue store v = v := by
  cases v with
  | array items => exact absurd rfl (h items)
  | reference id =>
    unfold replaceRefValue
    split
    · exact Or.inl ⟨_, rfl⟩
    · exact Or.inr (Or.inl rfl)
  | string s =>
    unfold replaceRefValue
    split
    · split
      · exact Or.inl ⟨_, rfl⟩
      · exact Or.inr (Or.inr rfl)
    · exact Or.inr (Or.inr rfl)
  | _ => exact Or.inr (Or.inr rfl)

theorem isLeaf_replaceRefValue {v : Value} (h : v.IsLeaf) :
    (replaceRefValue store v).IsLeaf := by
  rcases replaceRefValue_leaf store h with ⟨es, heq⟩ | heq | heq
  · rw [heq]
    exact nofun
  · rw [heq]
    exact nofun
  · rw [heq]
    exact h

/-- What is replaced is not replaced again, also when objects in it have changed meanwhile. -/
theorem replaceRefValue_mapObject (g : List (String × Value) → List (String × Value)) {v : Value}
    (h : v.IsLeaf) : replaceRefValue store (Value.mapObject g (replaceRefValue store v)) =
      Value.mapObject g (replaceRefValue store v) := by
  rcases replaceRefValue_leaf store h with ⟨es, heq⟩ | heq | heq
  · rw [heq]
    rfl
  · rw [heq]
    rfl
  · rw [heq]
    cases v with
    | object es => rfl
    | _ => exact heq

end Replace

/-! ## What a FETCH comes to -/

/-- The paths behind a field. -/
def residual (field : String) (paths : Set (List String)) : Set (List String) :=
  {path | field :: path ∈ paths}

section Expand

variable (store : String → Option Document)

open Classical in
/-- Along the paths, down to a depth: the value of a field that is on one of them is replaced, and
then its own fields are looked at. -/
noncomputable def expand : Nat → Set (List String) → Value → Value
  | 0, _, v => v
  | n + 1, paths, v => v.onLeaves (Value.mapObject fun es => es.map fun e =>
      (e.1, if (residual e.1 paths).Nonempty then
        expand n (residual e.1 paths) (replaceRefValue store e.2) else e.2))

/-- The entries of one key changed. -/
def updateKey (field : String) (h : Value → Value) (es : List (String × Value)) :
    List (String × Value) :=
  es.map fun e => (e.1, if e.1 = field then h e.2 else e.2)

/-- One pass at a path: the value at the end of it is replaced. -/
def passAt : List String → Value → Value
  | [], v => replaceRefValue store v
  | field :: rest, v => v.onLeaves (Value.mapObject (updateKey field (passAt rest)))

/-- No path without its beginnings. -/
def Closed (paths : Set (List String)) : Prop :=
  ∀ front back, front ≠ [] → front ++ back ∈ paths → front ∈ paths

variable {store}

theorem Closed.residual {paths : Set (List String)} (h : Closed paths) (field : String) :
    Closed (residual field paths) :=
  fun front back _ hmem => (h (field :: front) back nofun hmem : field :: front ∈ paths)

theorem Closed.head {paths : Set (List String)} (h : Closed paths) {field : String}
    (hne : (StellarDb.residual field paths).Nonempty) : [field] ∈ paths := by
  obtain ⟨back, hback⟩ := hne
  exact h [field] back nofun hback

theorem residual_insert_self (field : String) (rest : List String) (paths : Set (List String)) :
    residual field (insert (field :: rest) paths) = insert rest (residual field paths) := by
  ext path
  simp [residual]

theorem residual_insert_of_ne {field other : String} (hne : field ≠ other) (rest : List String)
    (paths : Set (List String)) :
    residual other (insert (field :: rest) paths) = residual other paths := by
  ext path
  simp [residual, Ne.symm hne]

theorem residual_insert_nil (field : String) (paths : Set (List String)) :
    residual field (insert [] paths) = residual field paths := by
  ext path
  simp [residual]

open Classical in
/-- The empty path asks for nothing more. -/
theorem expand_insert_nil (n : Nat) (paths : Set (List String)) (v : Value) :
    expand store n (insert [] paths) v = expand store n paths v := by
  cases n with
  | zero => rfl
  | succ n =>
    unfold expand
    simp only [residual_insert_nil]

theorem expand_empty (n : Nat) (v : Value) : expand store n ∅ v = v := by
  cases n with
  | zero => rfl
  | succ n =>
    unfold expand
    refine Value.onLeaves_self fun x _ => ?_
    cases x with
    | object es =>
      refine congrArg Value.object ((List.map_congr_left fun e _ => ?_).trans (List.map_id es))
      have hempty : ¬ (residual e.1 ∅).Nonempty := fun ⟨_, h⟩ => h
      rw [if_neg hempty]
      rfl
    | _ => rfl

/-- A replaced value stays replaced while it is entered. -/
theorem replace_expand (n : Nat) (paths : Set (List String)) (v : Value) :
    replaceRefValue store (expand store n paths (replaceRefValue store v)) =
      expand store n paths (replaceRefValue store v) := by
  have htwice : replaceRefValue store (replaceRefValue store v) = replaceRefValue store v := by
    conv_lhs =>
      rw [replaceRefValue_eq_onLeaves store v, replaceRefValue_eq_onLeaves store (v.onLeaves _),
        Value.onLeaves_onLeaves]
    rw [replaceRefValue_eq_onLeaves store v]
    refine Value.onLeaves_congr fun x hx => ?_
    have hleaf := Value.isLeaf_of_mem_leaves hx
    rw [Value.onLeaves_of_isLeaf (isLeaf_replaceRefValue store hleaf)]
    have hid := replaceRefValue_mapObject store id hleaf
    have hmap : ∀ y : Value, Value.mapObject id y = y := by
      intro y
      cases y <;> rfl
    rwa [hmap] at hid
  cases n with
  | zero => exact htwice
  | succ n =>
    unfold expand
    rw [replaceRefValue_eq_onLeaves store v, Value.onLeaves_onLeaves,
      replaceRefValue_eq_onLeaves store, Value.onLeaves_onLeaves]
    refine Value.onLeaves_congr fun x hx => ?_
    have hleaf := Value.isLeaf_of_mem_leaves hx
    have hrep := isLeaf_replaceRefValue store hleaf
    rw [Value.onLeaves_of_isLeaf hrep,
      Value.onLeaves_of_isLeaf (Value.isLeaf_mapObject _ hrep)]
    exact replaceRefValue_mapObject store _ hleaf

open Classical in
/-- A pass at a path whose beginnings were passed adds the path to them. -/
theorem passAt_expand {path : List String} (hpath : path ≠ []) {n : Nat}
    (hn : path.length ≤ n) {paths : Set (List String)}
    (hfront : ∀ front back, front ≠ [] → back ≠ [] → path = front ++ back → front ∈ paths)
    (v : Value) : passAt store path (expand store n paths v) =
      expand store n (insert path paths) v := by
  induction path generalizing n paths v with
  | nil => exact absurd rfl hpath
  | cons field rest ih =>
    cases n with
    | zero => cases hn
    | succ n =>
      unfold passAt expand
      rw [Value.onLeaves_onLeaves]
      refine Value.onLeaves_congr fun x hx => ?_
      have hleaf := Value.isLeaf_of_mem_leaves hx
      rw [Value.onLeaves_of_isLeaf (Value.isLeaf_mapObject _ hleaf)]
      cases x with
      | object es =>
        show Value.object (updateKey field _ (es.map _)) = Value.object (es.map _)
        unfold updateKey
        rw [List.map_map]
        refine congrArg Value.object (List.map_congr_left fun e _ => Prod.ext rfl ?_)
        show (if e.1 = field then passAt store rest (if _ then _ else _) else if _ then _ else _) =
          if _ then _ else _
        by_cases hfield : e.1 = field
        · subst hfield
          rw [if_pos rfl, residual_insert_self, if_pos (Set.insert_nonempty _ _)]
          cases rest with
          | nil =>
            rw [expand_insert_nil]
            show replaceRefValue store _ = _
            split
            · exact replace_expand n _ e.2
            · next hnone =>
              rw [Set.not_nonempty_iff_eq_empty.mp hnone, expand_empty]
          | cons next rest =>
            -- the value of the field was replaced before the path goes on behind it
            have hhere : [e.1] ∈ paths := hfront [e.1] (next :: rest) nofun nofun rfl
            rw [if_pos ⟨[], hhere⟩]
            refine ih nofun (Nat.le_of_succ_le_succ hn) (fun front back hne hback heq => ?_) _
            exact hfront (e.1 :: front) back nofun hback (by rw [heq]; rfl)
        · rw [if_neg hfield, residual_insert_of_ne (Ne.symm hfield)]
      | array items => exact absurd rfl (hleaf items)
      | _ => rfl

end Expand

/-! ## The references of a pass -/

/-- The id a leaf refers to. -/
def leafRef : Value → List String
  | .reference id => [id]
  | .string s => if ':' ∈ s.toList then [s] else []
  | _ => []

def leafRefs (v : Value) : List String := v.leaves.flatMap leafRef

/-- The value of a field in the objects among the leaves. -/
def fieldsAt (field : String) (v : Value) : List Value :=
  v.leaves.flatMap fun
    | .object es => (es.lookup field).toList
    | _ => []

/-- The references a pass finds. -/
def refsAt : List String → Value → List String
  | [], v => leafRefs v
  | field :: rest, v => (fieldsAt field v).flatMap (refsAt rest)

theorem mem_pushRef {id new : String} {refs : List String} :
    id ∈ pushRef new refs ↔ id ∈ refs ∨ id = new := by
  unfold pushRef
  split
  · next hmem => exact ⟨Or.inl, fun h => h.elim (fun h => h) (fun h => h ▸ hmem)⟩
  · rw [List.mem_append, List.mem_singleton]

theorem mem_collectItems {items : List Value} {path refs : List String} {id : String}
    (ih : ∀ v ∈ items, ∀ refs, id ∈ collectRefsAtDepthValue v path refs ↔
      id ∈ refs ∨ id ∈ refsAt path v) :
    id ∈ collectItems items path refs ↔ id ∈ refs ∨ ∃ v ∈ items, id ∈ refsAt path v := by
  induction items generalizing refs with
  | nil => exact ⟨Or.inl, fun h => h.elim (fun h => h) fun ⟨_, h, _⟩ => by cases h⟩
  | cons item items ihs =>
    rw [List.forall_mem_cons] at ih
    rw [collectItems, ihs ih.2, ih.1, or_assoc]
    refine or_congr_right ⟨fun h => ?_, fun ⟨v, hv, hid⟩ => ?_⟩
    · exact h.elim (fun hid => ⟨item, List.mem_cons_self .., hid⟩)
        fun ⟨v, hv, hid⟩ => ⟨v, List.mem_cons_of_mem _ hv, hid⟩
    · rcases List.mem_cons.mp hv with rfl | hold
      · exact Or.inl hid
      · exact Or.inr ⟨v, hold, hid⟩

theorem mem_collectField {obj : List (String × Value)} {field : String} {rest refs : List String}
    {id : String} (ih : ∀ e ∈ obj, ∀ refs, id ∈ collectRefsAtDepthValue e.2 rest refs ↔
      id ∈ refs ∨ id ∈ refsAt rest e.2) :
    id ∈ collectField obj field rest refs ↔
      id ∈ refs ∨ id ∈ (obj.lookup field).toList.flatMap (refsAt rest) := by
  induction obj with
  | nil => exact ⟨Or.inl, fun h => h.elim (fun h => h) fun h => by cases h⟩
  | cons e obj ihs =>
    rw [List.forall_mem_cons] at ih
    rw [collectField]
    by_cases hkey : e.1 = field
    · have hlookup : (e :: obj).lookup field = some e.2 := by
        rw [List.lookup, ← hkey, beq_self_eq_true]
      rw [if_pos hkey, ih.1, hlookup]
      simp
    · have hlookup : (e :: obj).lookup field = obj.lookup field := by
        rw [List.lookup, beq_false_of_ne (Ne.symm hkey)]
      rw [if_neg hkey, ihs ih.2, hlookup]

theorem refsAt_array (path : List String) (items : List Value) (id : String) :
    id ∈ refsAt path (.array items) ↔ ∃ v ∈ items, id ∈ refsAt path v := by
  cases path with
  | nil =>
    simp only [refsAt, leafRefs, Value.leaves, Value.leavesAll_eq_flatMap, List.mem_flatMap]
    exact ⟨fun ⟨x, ⟨v, hv, hx⟩, h⟩ => ⟨v, hv, x, hx, h⟩,
      fun ⟨v, hv, x, hx, h⟩ => ⟨x, ⟨v, hv, hx⟩, h⟩⟩
  | cons field rest =>
    simp only [refsAt, fieldsAt, Value.leaves, Value.leavesAll_eq_flatMap, List.mem_flatMap]
    exact ⟨fun ⟨w, ⟨x, ⟨v, hv, hx⟩, hw⟩, h⟩ => ⟨v, hv, w, ⟨x, hx, hw⟩, h⟩,
      fun ⟨v, hv, w, ⟨x, hx, hw⟩, h⟩ => ⟨w, ⟨x, ⟨v, hv, hx⟩, hw⟩, h⟩⟩

theorem refsAt_object (field : String) (rest : List String) (es : List (String × Value)) :
    refsAt (field :: rest) (.object es) = (es.lookup field).toList.flatMap (refsAt rest) := by
  show ([Value.object es].flatMap _).flatMap _ = _
  rw [List.flatMap_singleton]

/-- Collecting finds the references of the pass, next to those found before. -/
theorem mem_collectRefs (v : Value) (path refs : List String) (id : String) :
    id ∈ collectRefsAtDepthValue v path refs ↔ id ∈ refs ∨ id ∈ refsAt path v := by
  induction v generalizing path refs with
  | array items ih =>
    have hcollect : collectRefsAtDepthValue (.array items) path refs =
        collectItems items path refs := by
      cases path <;> rfl
    rw [hcollect, mem_collectItems fun v hv refs => ih v hv path refs, refsAt_array]
  | object obj ih =>
    cases path with
    | nil => exact ⟨Or.inl, fun h => h.elim (fun h => h) fun h => by cases h⟩
    | cons field rest =>
      rw [collectRefsAtDepthValue, mem_collectField fun e he refs => ih e he rest refs,
        refsAt_object]
  | reference other =>
    cases path with
    | nil =>
      rw [collectRefsAtDepthValue, mem_pushRef]
      show _ ↔ _ ∨ id ∈ [other]
      rw [List.mem_singleton]
    | cons field rest => exact ⟨Or.inl, fun h => h.elim (fun h => h) fun h => by cases h⟩
  | string s =>
    cases path with
    | nil =>
      rw [collectRefsAtDepthValue]
      show _ ↔ _ ∨ id ∈ (if ':' ∈ s.toList then [s] else []) ++ []
      rw [List.append_nil]
      split
      · rw [mem_pushRef, List.mem_singleton]
      · exact ⟨Or.inl, fun h => h.elim (fun h => h) fun h => by cases h⟩
    | cons field rest => exact ⟨Or.inl, fun h => h.elim (fun h => h) fun h => by cases h⟩
  | _ => cases path <;> exact ⟨Or.inl, fun h => h.elim (fun h => h) fun h => by cases h⟩

theorem mem_collectRefsAtDepth (doc : Document) {path : List String} (hpath : path ≠ [])
    (refs : List String) (id : String) : id ∈ collectRefsAtDepth doc path refs ↔
      id ∈ refs ∨ id ∈ refsAt path (.object doc.fields) := by
  cases path with
  | nil => exact absurd rfl hpath
  | cons field rest => exact mem_collectRefs (.object doc.fields) (field :: rest) refs id

/-! ## A pass of the code -/

/-- Only the found references matter to a replacement. -/
theorem replaceRefValue_congr {docs store : String → Option Document} {v : Value}
    (h : ∀ id ∈ leafRefs v, docs id = store id) :
    replaceRefValue docs v = replaceRefValue store v := by
  rw [replaceRefValue_eq_onLeaves docs, replaceRefValue_eq_onLeaves store]
  refine Value.onLeaves_congr fun x hx => ?_
  have hsame : ∀ id ∈ leafRef x, docs id = store id :=
    fun id hid => h id (List.mem_flatMap.mpr ⟨x, hx, hid⟩)
  cases x with
  | reference id =>
    unfold replaceRefValue
    rw [hsame id (List.mem_singleton_self id)]
  | string s =>
    unfold replaceRefValue
    split
    · next hcolon =>
      rw [hsame s (by rw [leafRef, if_pos hcolon]; exact List.mem_singleton_self s)]
    · rfl
  | array items => exact absurd rfl (Value.isLeaf_of_mem_leaves hx items)
  | _ => rfl

theorem updateKey_of_lookup {field : String} {h : Value → Value} {es : List (String × Value)}
    (hnd : (es.map Prod.fst).Nodup) : updateKey field h es =
      match es.lookup field with
      | some v => setEntry field (h v) es
      | none => es := by
  induction es with
  | nil => rfl
  | cons e es ih =>
    rw [List.map_cons, List.nodup_cons] at hnd
    unfold updateKey at ih ⊢
    by_cases hkey : e.1 = field
    · have hlookup : (e :: es).lookup field = some e.2 := by
        rw [List.lookup, ← hkey, beq_self_eq_true]
      have hrest : es.map (fun e => (e.1, if e.1 = field then h e.2 else e.2)) = es := by
        refine (List.map_congr_left fun e' he' => ?_).trans (List.map_id es)
        have hother : e'.1 ≠ field := by
          intro heq
          exact hnd.1 ((hkey.trans heq.symm) ▸ List.mem_map_of_mem he')
        rw [if_neg hother]
        rfl
      rw [hlookup, List.map_cons, if_pos hkey, hrest]
      show _ = setEntry field (h e.2) (e :: es)
      rw [setEntry, if_pos hkey, hkey]
    · have hlookup : (e :: es).lookup field = es.lookup field := by
        rw [List.lookup, beq_false_of_ne (Ne.symm hkey)]
      rw [hlookup, List.map_cons, if_neg hkey, ih hnd.2]
      cases es.lookup field with
      | none => rfl
      | some v =>
        show _ = setEntry field (h v) (e :: es)
        rw [setEntry, if_neg hkey]

/-- In place or by its key, the entry changes alike. -/
theorem replaceInField_eq {docs : String → Option Document} {field : String}
    {path : List String} {es : List (String × Value)} (hnd : (es.map Prod.fst).Nodup) :
    replaceInField docs none es field path =
      updateKey field (fun v => replaceRefsAtDepthValue docs none v path) es := by
  rw [updateKey_of_lookup hnd]
  induction es with
  | nil => rfl
  | cons e es ih =>
    rw [List.map_cons, List.nodup_cons] at hnd
    rw [replaceInField]
    by_cases hkey : e.1 = field
    · have hlookup : (e :: es).lookup field = some e.2 := by
        rw [List.lookup, ← hkey, beq_self_eq_true]
      rw [hlookup, if_pos hkey]
      show _ = setEntry field _ (e :: es)
      rw [setEntry, if_pos hkey, hkey]
    · have hlookup : (e :: es).lookup field = es.lookup field := by
        rw [List.lookup, beq_false_of_ne (Ne.symm hkey)]
      rw [hlookup, if_neg hkey, ih hnd.2]
      cases es.lookup field with
      | none => rfl
      | some v =>
        show _ = setEntry field _ (e :: es)
        rw [setEntry, if_neg hkey]

theorem replaceInItems_eq_map (docs : String → Option Document) (items : List Value)
    (path : List String) : replaceInItems docs none items path =
      items.map fun v => replaceRefsAtDepthValue docs none v path := by
  induction items with
  | nil => rfl
  | cons v vs ih => rw [replaceInItems, ih, List.map_cons]

/-- With the documents of the references it finds, a pass of the code is a pass. -/
theorem replaceRefsAtDepthValue_eq {docs store : String → Option Document} (v : Value)
    {path : List String} (hpath : path ≠ []) (hwf : v.wf = true)
    (h : ∀ id ∈ refsAt path v, docs id = store id) :
    replaceRefsAtDepthValue docs none v path = passAt store path v := by
  induction v generalizing path with
  | array items ih =>
    cases path with
    | nil => exact absurd rfl hpath
    | cons field rest =>
      rw [Value.wf, Value.wfElems_iff] at hwf
      rw [replaceRefsAtDepthValue, replaceInItems_eq_map, passAt, Value.onLeaves,
        Value.onLeavesAll_eq_map, Value.array.injEq]
      refine List.map_congr_left fun v hv => ih v hv hpath (hwf v hv) fun id hid => h id ?_
      exact (refsAt_array _ _ _).mpr ⟨v, hv, hid⟩
  | object es ih =>
    rw [Value.wf_object_iff] at hwf
    cases path with
    | nil => exact absurd rfl hpath
    | cons field rest =>
      rw [refsAt_object] at h
      show _ = Value.object (updateKey field (passAt store rest) es)
      have hentry : ∀ e ∈ es, e.1 = field → es.lookup field = some e.2 :=
        fun e he hkey => hkey ▸ Value.lookup_of_mem hwf.1 he
      cases rest with
      | nil =>
        rw [replaceRefsAtDepthValue, Value.object.injEq, updateKey_of_lookup hwf.1, replaceField]
        cases hlookup : es.lookup field with
        | none => rfl
        | some inner =>
          rw [hlookup] at h
          have hinner : ∀ id ∈ leafRefs inner, docs id = store id := by
            intro id hid
            exact h id (by simpa [refsAt] using hid)
          show setEntry field (replaceRefValue docs inner) es =
            setEntry field (replaceRefValue store inner) es
          rw [replaceRefValue_congr hinner]
      | cons next rest =>
        rw [replaceRefsAtDepthValue, Value.object.injEq, replaceInField_eq hwf.1]
        refine List.map_congr_left fun e he => Prod.ext rfl ?_
        show (if e.1 = field then _ else e.2) = if e.1 = field then _ else e.2
        split
        · next hkey =>
          refine ih e he nofun (hwf.2 e he) fun id hid => h id ?_
          rw [hentry e he hkey]
          simpa using hid
        · rfl
  | _ =>
    cases path with
    | nil => exact absurd rfl hpath
    | cons field rest => rfl

/-! ## Which documents a pass needs -/

section Needed

variable (store : String → Option Document)

/-- The references at a path once everything at its beginnings was replaced. -/
def neededAt : List String → Value → List String
  | [], v => leafRefs v
  | [field], v => (fieldsAt field v).flatMap leafRefs
  | field :: next :: rest, v =>
    (fieldsAt field v).flatMap fun w => neededAt (next :: rest) (replaceRefValue store w)

variable {store}

theorem leafRef_mapObject (g : List (String × Value) → List (String × Value)) (v : Value) :
    leafRef (v.mapObject g) = leafRef v := by
  cases v <;> rfl

theorem leafRefs_expand (n : Nat) (paths : Set (List String)) (v : Value) :
    leafRefs (expand store n paths v) = leafRefs v := by
  cases n with
  | zero => rfl
  | succ n =>
    unfold leafRefs expand
    rw [Value.leaves_onLeaves fun x hx => Value.isLeaf_mapObject _ hx, List.flatMap_map]
    exact List.flatMap_congr fun x _ => leafRef_mapObject _ x

/-- What stays a reference was one before. -/
theorem leafRefs_replaceRefValue {v : Value} {id : String}
    (h : id ∈ leafRefs (replaceRefValue store v)) : id ∈ leafRefs v := by
  rw [replaceRefValue_eq_onLeaves, leafRefs,
    Value.leaves_onLeaves fun x hx => isLeaf_replaceRefValue store hx, List.flatMap_map] at h
  obtain ⟨x, hx, hid⟩ := List.mem_flatMap.mp h
  refine List.mem_flatMap.mpr ⟨x, hx, ?_⟩
  rcases replaceRefValue_leaf store (Value.isLeaf_of_mem_leaves hx) with ⟨es, heq⟩ | heq | heq
  · rw [heq] at hid
    cases hid
  · rw [heq] at hid
    cases hid
  · rwa [heq] at hid

/-- Values changed under their keys are found changed. -/
theorem lookup_map_snd (g : String → Value → Value) (es : List (String × Value)) (key : String) :
    (es.map fun e => (e.1, g e.1 e.2)).lookup key = (es.lookup key).map (g key) := by
  induction es with
  | nil => rfl
  | cons e es ih =>
    rw [List.map_cons, List.lookup, List.lookup, ih]
    by_cases hkey : key = e.1
    · rw [beq_iff_eq.mpr hkey, hkey]
      rfl
    · rw [beq_false_of_ne hkey]

open Classical in
theorem fieldsAt_expand (field : String) (n : Nat) (paths : Set (List String)) (v : Value) :
    fieldsAt field (expand store (n + 1) paths v) = (fieldsAt field v).map fun w =>
      if (residual field paths).Nonempty then
        expand store n (residual field paths) (replaceRefValue store w) else w := by
  unfold fieldsAt
  rw [expand, Value.leaves_onLeaves fun x hx => Value.isLeaf_mapObject _ hx, List.flatMap_map,
    List.map_flatMap]
  refine List.flatMap_congr fun x _ => ?_
  cases x with
  | object es =>
    show (List.lookup field (es.map _)).toList = (es.lookup field).toList.map _
    rw [lookup_map_snd fun key w => if (residual key paths).Nonempty then
      expand store n (residual key paths) (replaceRefValue store w) else w]
    cases es.lookup field <;> rfl
  | _ => rfl

/-- Earlier passes leave a pass with no more to load than it needs. -/
theorem refsAt_expand_subset {path : List String} (hpath : path ≠ []) {n : Nat}
    (hn : path.length ≤ n) {paths : Set (List String)}
    (hfront : ∀ front back, front ≠ [] → back ≠ [] → path = front ++ back → front ∈ paths)
    {v : Value} {id : String} (h : id ∈ refsAt path (expand store n paths v)) :
    id ∈ neededAt store path v := by
  induction path generalizing n paths v with
  | nil => exact absurd rfl hpath
  | cons field rest ih =>
    cases n with
    | zero => cases hn
    | succ n =>
      rw [refsAt, fieldsAt_expand, List.flatMap_map] at h
      obtain ⟨w, hw, hid⟩ := List.mem_flatMap.mp h
      cases rest with
      | nil =>
        refine List.mem_flatMap.mpr ⟨w, hw, ?_⟩
        rw [refsAt] at hid
        split at hid
        · rw [leafRefs_expand] at hid
          exact leafRefs_replaceRefValue hid
        · exact hid
      | cons next rest =>
        refine List.mem_flatMap.mpr ⟨w, hw, ?_⟩
        have hhere : [field] ∈ paths := hfront [field] (next :: rest) nofun nofun rfl
        rw [if_pos ⟨[], hhere⟩] at hid
        refine ih nofun (Nat.le_of_succ_le_succ hn) (fun front back _ hback heq => ?_) hid
        exact hfront (field :: front) back nofun hback (by rw [heq]; rfl)

/-- A pass not made yet loads all that it needs. -/
theorem subset_refsAt_expand {path : List String} (hpath : path ≠ []) {n : Nat}
    (hn : path.length ≤ n) {paths : Set (List String)} (hclosed : Closed paths)
    (hfront : ∀ front back, front ≠ [] → back ≠ [] → path = front ++ back → front ∈ paths)
    (hnew : path ∉ paths) {v : Value} {id : String} (h : id ∈ neededAt store path v) :
    id ∈ refsAt path (expand store n paths v) := by
  induction path generalizing n paths v with
  | nil => exact absurd rfl hpath
  | cons field rest ih =>
    cases n with
    | zero => cases hn
    | succ n =>
      rw [refsAt, fieldsAt_expand, List.flatMap_map]
      cases rest with
      | nil =>
        obtain ⟨w, hw, hid⟩ := List.mem_flatMap.mp h
        refine List.mem_flatMap.mpr ⟨w, hw, ?_⟩
        rw [if_neg fun hne => hnew (hclosed.head hne)]
        exact hid
      | cons next rest =>
        obtain ⟨w, hw, hid⟩ := List.mem_flatMap.mp h
        refine List.mem_flatMap.mpr ⟨w, hw, ?_⟩
        have hhere : [field] ∈ paths := hfront [field] (next :: rest) nofun nofun rfl
        rw [if_pos ⟨[], hhere⟩]
        refine ih nofun (Nat.le_of_succ_le_succ hn) (hclosed.residual field)
          (fun front back _ hback heq => ?_) hnew hid
        exact hfront (field :: front) back nofun hback (by rw [heq]; rfl)

end Needed

/-! ## Loading -/

section Loading

variable (getDocument : String → String → Except StorageError (Option Document))

def Loadable (id : String) : Prop := ∃ doc, loadDocument getDocument id = .ok doc

/-- The documents of the references, as far as they load. -/
def storeOf (id : String) : Option Document :=
  match loadDocument getDocument id with
  | .ok doc => doc
  | .error _ => none

variable {getDocument}

theorem loadDocument_eq {id : String} (h : Loadable getDocument id) :
    loadDocument getDocument id = .ok (storeOf getDocument id) := by
  obtain ⟨doc, hdoc⟩ := h
  unfold storeOf
  rw [hdoc]

/-- A batch loads if every reference does, and then it holds the document of each. -/
theorem batchLoadDocuments_ok {ids : List String} (h : ∀ id ∈ ids, Loadable getDocument id) :
    ∃ docs, batchLoadDocuments getDocument ids = .ok docs ∧
      ∀ id ∈ ids, docs.lookup id = storeOf getDocument id := by
  -- what the map holds before is right as well, or absent
  have hgen : ∀ docs : List (String × Document),
      (∀ id, docs.lookup id = none ∨ docs.lookup id = storeOf getDocument id) →
      ∃ docs', ids.foldlM (fun docs id => do
          match ← loadDocument getDocument id with
          | some doc => return insertEntry docs id doc
          | none => return docs) docs = (.ok docs' : Except ExecuteError _) ∧
        (∀ id, docs.lookup id = storeOf getDocument id →
          docs'.lookup id = storeOf getDocument id) ∧
        ∀ id ∈ ids, docs'.lookup id = storeOf getDocument id := by
    induction ids with
    | nil => exact fun docs _ => ⟨docs, rfl, fun _ heq => heq, nofun⟩
    | cons id ids ih =>
      rw [List.forall_mem_cons] at h
      intro docs hdocs
      rw [List.foldlM_cons, loadDocument_eq h.1]
      cases hstore : storeOf getDocument id with
      | none =>
        obtain ⟨docs', hfold, hkeep, hids⟩ := ih h.2 docs hdocs
        have hnone : docs.lookup id = storeOf getDocument id := by
          rcases hdocs id with heq | heq
          · rw [heq, hstore]
          · exact heq
        exact ⟨docs', hfold, hkeep, List.forall_mem_cons.mpr ⟨hkeep id hnone, hids⟩⟩
      | some doc =>
        have hinsert : ∀ other, docs.lookup other = storeOf getDocument other →
            (insertEntry docs id doc).lookup other = storeOf getDocument other := by
          intro other heq
          rw [lookup_insertEntry]
          split
          · next hid => rw [← hid, hstore]
          · exact heq
        have hself : (insertEntry docs id doc).lookup id = storeOf getDocument id := by
          rw [lookup_insertEntry, if_pos rfl, hstore]
        obtain ⟨docs', hfold, hkeep, hids⟩ := ih h.2 (insertEntry docs id doc) fun other => by
          rcases hdocs other with heq | heq
          · by_cases hid : id = other
            · exact Or.inr (hid ▸ hself)
            · exact Or.inl (by rw [lookup_insertEntry, if_neg hid, heq])
          · exact Or.inr (hinsert other heq)
        exact ⟨docs', hfold, fun other heq => hkeep other (hinsert other heq),
          List.forall_mem_cons.mpr ⟨hkeep id hself, hids⟩⟩
  obtain ⟨docs, hfold, -, hids⟩ := hgen [] fun _ => Or.inl rfl
  exact ⟨docs, hfold, hids⟩

theorem loadable_of_batchLoadDocuments {ids : List String} {docs : List (String × Document)}
    (h : batchLoadDocuments getDocument ids = .ok docs) : ∀ id ∈ ids, Loadable getDocument id := by
  unfold batchLoadDocuments at h
  generalize ([] : List (String × Document)) = start at h
  induction ids generalizing start with
  | nil => exact nofun
  | cons id ids ih =>
    rw [List.foldlM_cons] at h
    cases hload : loadDocument getDocument id with
    | error e =>
      rw [hload] at h
      cases h
    | ok doc =>
      rw [hload] at h
      refine List.forall_mem_cons.mpr ⟨⟨doc, hload⟩, ?_⟩
      cases doc <;> exact ih _ h

/-- What the rows refer to at a path. -/
def rowRefs (path : List String) (rows : List Row) : List String :=
  rows.flatMap fun row => refsAt path (.object row.doc.fields)

theorem mem_foldl_collectRefs {path : List String} (hpath : path ≠ []) (rows : List Row)
    (refs : List String) (id : String) :
    id ∈ rows.foldl (fun refs row => collectRefsAtDepth row.doc path refs) refs ↔
      id ∈ refs ∨ id ∈ rowRefs path rows := by
  induction rows generalizing refs with
  | nil => exact ⟨Or.inl, fun h => h.elim (fun h => h) fun h => by cases h⟩
  | cons row rows ih =>
    rw [List.foldl_cons, ih, mem_collectRefsAtDepth row.doc hpath, rowRefs, rowRefs,
      List.flatMap_cons, List.mem_append, or_assoc]

end Loading

/-! ## Rows -/

section Rows

variable (store : String → Option Document)

open Classical in
noncomputable def expandFields :
    Nat → Set (List String) → List (String × Value) → List (String × Value)
  | 0, _, es => es
  | n + 1, paths, es => es.map fun e => (e.1, if (residual e.1 paths).Nonempty then
      expand store n (residual e.1 paths) (replaceRefValue store e.2) else e.2)

theorem expand_object (n : Nat) (paths : Set (List String)) (es : List (String × Value)) :
    expand store n paths (.object es) = .object (expandFields store n paths es) := by
  cases n <;> rfl

theorem Value.wf_onLeaves {h : Value → Value} {v : Value}
    (hleaf : ∀ x ∈ v.leaves, (h x).wf = true) : (v.onLeaves h).wf = true := by
  induction v using Value.leafInduction with
  | leaf v hv =>
    rw [Value.onLeaves_of_isLeaf hv]
    exact hleaf v (by rw [Value.leaves_of_isLeaf hv]; exact List.mem_singleton_self v)
  | array items ih =>
    rw [Value.onLeaves, Value.onLeavesAll_eq_map, Value.wf, Value.wfElems_iff, List.forall_mem_map]
    refine fun v hv => ih v hv fun x hx => hleaf x ?_
    rw [Value.leaves, Value.leavesAll_eq_flatMap, List.mem_flatMap]
    exact ⟨v, hv, hx⟩

open Classical in
theorem wf_expand (n : Nat) (paths : Set (List String)) {v : Value} (hwf : v.wf = true) :
    (expand store n paths v).wf = true := by
  induction n generalizing paths v with
  | zero => exact hwf
  | succ n ih =>
    refine Value.wf_onLeaves fun x hx => ?_
    have hx := Value.wf_of_mem_leaves hwf hx
    cases x with
    | object es =>
      rw [Value.wf_object_iff] at hx
      refine Value.wf_object_iff.mpr ⟨?_, ?_⟩
      · rw [List.map_map]
        exact hx.1
      · rw [List.forall_mem_map]
        intro e he
        show (if _ then _ else e.2 : Value).wf = true
        split
        · exact ih _ (wf_replaceRefValue store e.2 (hx.2 e he))
        · exact hx.2 e he
    | _ => exact hx

theorem wf_expandFields (n : Nat) (paths : Set (List String)) (doc : Document) :
    (Value.object (expandFields store n paths doc.fields)).wf = true :=
  expand_object store n paths doc.fields ▸ wf_expand store n paths doc.wf

/-- A row expanded along the paths. -/
noncomputable def expandRow (n : Nat) (paths : Set (List String)) (row : Row) : Row :=
  { row with doc := ⟨row.doc.id, expandFields store n paths row.doc.fields,
      wf_expandFields store n paths row.doc⟩ }

end Rows

/-! ## From pass to pass -/

section Passes

variable {getDocument : String → String → Except StorageError (Option Document)}

/-- All the rows need at a path can be loaded. -/
def Fetchable (getDocument : String → String → Except StorageError (Option Document))
    (rows : List Row) (path : List String) : Prop :=
  ∀ row ∈ rows, ∀ id ∈ neededAt (storeOf getDocument) path (.object row.doc.fields),
    Loadable getDocument id

theorem Row.ext_doc {row row' : Row} (hid : row.doc.id = row'.doc.id)
    (hfields : row.doc.fields = row'.doc.fields) (hvalue : row.scalarValue = row'.scalarValue)
    (halias : row.scalarAlias = row'.scalarAlias) : row = row' := by
  obtain ⟨⟨id, fields, hwf⟩, value, name⟩ := row
  obtain ⟨⟨id', fields', hwf'⟩, value', name'⟩ := row'
  cases hid
  cases hfields
  cases hvalue
  cases halias
  rfl

/-- Replacing in a document is a pass over its object. -/
theorem object_replaceRefsAtDepth (store docs : String → Option Document) (doc : Document)
    {path : List String} (hpath : path ≠ [])
    (h : ∀ id ∈ refsAt path (.object doc.fields), docs id = store id) :
    Value.object (replaceRefsAtDepth docs none doc path).fields =
      passAt store path (.object doc.fields) := by
  rw [← replaceRefsAtDepthValue_eq _ hpath doc.wf h]
  match path with
  | [] => exact absurd rfl hpath
  | [field] => rfl
  | field :: next :: rest => rfl

theorem id_replaceRefsAtDepth (docs : String → Option Document) (doc : Document)
    (path : List String) : (replaceRefsAtDepth docs none doc path).id = doc.id := by
  match path with
  | [] => rfl
  | [field] => rfl
  | field :: next :: rest => rfl

/-- A pass at a path whose beginnings were passed expands along it too, if all that is needed
there loads, and fails otherwise. -/
theorem fetchDepth_iff {rows r : List Row} {path : List String} (hpath : path ≠ []) {n : Nat}
    (hn : path.length ≤ n) {paths : Set (List String)} (hclosed : Closed paths)
    (hfront : ∀ front back, front ≠ [] → back ≠ [] → path = front ++ back → front ∈ paths)
    (hloads : ∀ before ∈ paths, Fetchable getDocument rows before) :
    fetchDepth getDocument path none (rows.map (expandRow (storeOf getDocument) n paths)) = .ok r ↔
      Fetchable getDocument rows path ∧
        r = rows.map (expandRow (storeOf getDocument) n (insert path paths)) := by
  -- the references of the pass are the needed ones, but for those that were loaded before
  have hrefs : (∀ id ∈ (rows.map (expandRow (storeOf getDocument) n paths)).foldl
        (fun refs row => collectRefsAtDepth row.doc path refs) [], Loadable getDocument id) ↔
      Fetchable getDocument rows path := by
    simp only [mem_foldl_collectRefs hpath, List.not_mem_nil, false_or, rowRefs, List.mem_flatMap,
      List.mem_map]
    constructor
    · intro h row hrow id hid
      by_cases hold : path ∈ paths
      · exact hloads path hold row hrow id hid
      · refine h id ⟨_, ⟨row, hrow, rfl⟩, ?_⟩
        show id ∈ refsAt path (.object (expandFields _ n paths row.doc.fields))
        rw [← expand_object]
        exact subset_refsAt_expand hpath hn hclosed hfront hold hid
    · rintro h id ⟨-, ⟨row, hrow, rfl⟩, hid⟩
      refine h row hrow id ?_
      apply refsAt_expand_subset hpath hn hfront
      rw [expand_object]
      exact hid
  -- with the documents loaded, every row is passed over
  have hrows : ∀ docs : List (String × Document),
      (∀ id ∈ (rows.map (expandRow (storeOf getDocument) n paths)).foldl
        (fun refs row => collectRefsAtDepth row.doc path refs) [],
        docs.lookup id = storeOf getDocument id) →
      (rows.map (expandRow (storeOf getDocument) n paths)).map (fun row =>
        { row with doc := replaceRefsAtDepth (fun id => docs.lookup id) none row.doc path }) =
        rows.map (expandRow (storeOf getDocument) n (insert path paths)) := by
    intro docs hlookup
    rw [List.map_map]
    refine List.map_congr_left fun row hrow => Row.ext_doc ?_ ?_ rfl rfl
    · exact id_replaceRefsAtDepth ..
    · have hpass := object_replaceRefsAtDepth (storeOf getDocument) (fun id => docs.lookup id)
        (expandRow (storeOf getDocument) n paths row).doc hpath
        fun id hid => hlookup id ((mem_foldl_collectRefs hpath _ _ _).mpr
          (Or.inr (List.mem_flatMap.mpr ⟨_, List.mem_map_of_mem hrow, hid⟩)))
      have hobject : Value.object (expandRow (storeOf getDocument) n paths row).doc.fields =
          expand (storeOf getDocument) n paths (.object row.doc.fields) :=
        (expand_object ..).symm
      rw [hobject, passAt_expand hpath hn hfront, expand_object] at hpass
      exact Value.object.inj hpass
  rw [← hrefs]
  constructor
  · intro h
    obtain ⟨docs, hbatch, hmap⟩ := bind_eq_ok_iff.mp h
    have hall := loadable_of_batchLoadDocuments hbatch
    obtain ⟨docs', hdocs', hlookup⟩ := batchLoadDocuments_ok hall
    cases hbatch.symm.trans hdocs'
    exact ⟨hall, (Except.ok.inj hmap).symm.trans (hrows docs hlookup)⟩
  · rintro ⟨hall, rfl⟩
    obtain ⟨docs, hbatch, hlookup⟩ := batchLoadDocuments_ok hall
    exact bind_eq_ok_iff.mpr ⟨docs, hbatch, congrArg Except.ok (hrows docs hlookup)⟩

/-- The beginnings of a path up to a length. -/
def beginnings (path : List String) (k : Nat) : Set (List String) :=
  {front | front ≠ [] ∧ front <+: path ∧ front.length ≤ k}

theorem closed_union_beginnings {paths : Set (List String)} (h : Closed paths)
    (path : List String) (k : Nat) : Closed (paths ∪ beginnings path k) := by
  intro front back hne hmem
  rcases hmem with hold | ⟨-, hprefix, hlen⟩
  · exact Or.inl (h front back hne hold)
  · rw [List.length_append] at hlen
    exact Or.inr ⟨hne, (List.prefix_append front back).trans hprefix, by omega⟩

theorem beginnings_succ {path : List String} {k : Nat} (hk : k < path.length) :
    beginnings path (k + 1) = insert (path.take (k + 1)) (beginnings path k) := by
  have htake : (path.take (k + 1)).length = k + 1 := by
    rw [List.length_take]
    omega
  ext front
  constructor
  · rintro ⟨hne, hprefix, hlen⟩
    rcases Nat.lt_or_ge k front.length with hlong | hshort
    · have hlength : front.length = k + 1 := by omega
      exact Or.inl (hlength ▸ List.prefix_iff_eq_take.mp hprefix)
    · exact Or.inr ⟨hne, hprefix, hshort⟩
  · rintro (rfl | ⟨hne, hprefix, hlen⟩)
    · refine ⟨fun hnil => ?_, List.take_prefix .., htake.le⟩
      rw [hnil] at htake
      cases htake
    · exact ⟨hne, hprefix, by omega⟩

/-- The passes of one item. -/
theorem fetchItem_iff {rows r : List Row} {item : FetchItem} (halias : item.aliasName = none)
    {n : Nat} (hn : item.path.length ≤ n) {paths : Set (List String)} (hclosed : Closed paths)
    (hloads : ∀ before ∈ paths, Fetchable getDocument rows before) :
    fetchItem getDocument (rows.map (expandRow (storeOf getDocument) n paths)) item = .ok r ↔
      (∀ front ∈ beginnings item.path item.path.length, Fetchable getDocument rows front) ∧
      r = rows.map (expandRow (storeOf getDocument) n
        (paths ∪ beginnings item.path item.path.length)) := by
  unfold fetchItem
  rw [halias]
  simp only [ite_self]
  -- after `k` passes the beginnings up to the length `k` are passed
  have hrun : ∀ k ≤ item.path.length, ∀ r, (List.range k).foldlM (fun rows depth =>
        fetchDepth getDocument (item.path.take (depth + 1)) none rows)
        (rows.map (expandRow (storeOf getDocument) n paths)) = .ok r ↔
      (∀ front ∈ beginnings item.path k, Fetchable getDocument rows front) ∧
      r = rows.map (expandRow (storeOf getDocument) n (paths ∪ beginnings item.path k)) := by
    intro k
    induction k with
    | zero =>
      intro _ r
      have hnone : beginnings item.path 0 = ∅ := by
        refine Set.eq_empty_of_forall_notMem fun front hmem => hmem.1 ?_
        exact List.length_eq_zero_iff.mp (Nat.le_zero.mp hmem.2.2)
      rw [hnone, Set.union_empty]
      exact ⟨fun h => ⟨nofun, (Except.ok.inj h).symm⟩, fun h => congrArg Except.ok h.2.symm⟩
    | succ k ih =>
      intro hk r
      have hlength : (item.path.take (k + 1)).length = k + 1 := by
        rw [List.length_take]
        omega
      have hne : item.path.take (k + 1) ≠ [] := by
        intro hnil
        rw [hnil] at hlength
        cases hlength
      have hfront : ∀ front back, front ≠ [] → back ≠ [] →
          item.path.take (k + 1) = front ++ back → front ∈ paths ∪ beginnings item.path k := by
        intro front back hfront hback heq
        refine Or.inr ⟨hfront, ⟨back ++ item.path.drop (k + 1), ?_⟩, ?_⟩
        · rw [← List.append_assoc, ← heq, List.take_append_drop]
        · have hshort := congrArg List.length heq
          have hpos := List.length_pos_of_ne_nil hback
          rw [hlength, List.length_append] at hshort
          omega
      rw [List.range_succ, List.foldlM_append, beginnings_succ hk, Set.union_insert]
      constructor
      · intro h
        obtain ⟨mid, hmid, hlast⟩ := bind_eq_ok_iff.mp h
        obtain ⟨hbefore, rfl⟩ := (ih (Nat.le_of_lt hk) mid).mp hmid
        rw [List.foldlM_cons] at hlast
        obtain ⟨last, hpass, hend⟩ := bind_eq_ok_iff.mp hlast
        cases Except.ok.inj hend
        obtain ⟨hhere, heq⟩ := (fetchDepth_iff hne (by omega) (closed_union_beginnings hclosed _ k)
          hfront fun before hmem => hmem.elim (hloads before) (hbefore before)).mp hpass
        exact ⟨fun front hmem => hmem.elim (fun hfront => hfront ▸ hhere) (hbefore front), heq⟩
      · rintro ⟨hall, rfl⟩
        have hbefore : ∀ front ∈ beginnings item.path k, Fetchable getDocument rows front :=
          fun front hmem => hall front (Or.inr hmem)
        refine bind_eq_ok_iff.mpr ⟨_, (ih (Nat.le_of_lt hk) _).mpr ⟨hbefore, rfl⟩, ?_⟩
        rw [List.foldlM_cons]
        refine bind_eq_ok_iff.mpr ⟨_, ?_, rfl⟩
        exact (fetchDepth_iff hne (by omega) (closed_union_beginnings hclosed _ k) hfront
          fun before hmem => hmem.elim (hloads before) (hbefore before)).mpr
          ⟨hall _ (Or.inl rfl), rfl⟩
  exact hrun _ le_rfl r

/-- All prefixes of the items' paths. -/
def placesOf (items : List FetchItem) : Set (List String) :=
  {front | front ≠ [] ∧ ∃ item ∈ items, front <+: item.path}

/-- No item goes deeper. -/
def depthOf (items : List FetchItem) : Nat :=
  (items.map fun item => item.path.length).foldr max 0

theorem length_le_depthOf {item : FetchItem} {items : List FetchItem} (h : item ∈ items) :
    item.path.length ≤ depthOf items := by
  induction items with
  | nil => cases h
  | cons other items ih =>
    show _ ≤ max other.path.length (depthOf items)
    rcases List.mem_cons.mp h with rfl | hmem
    · exact Nat.le_max_left _ _
    · exact (ih hmem).trans (Nat.le_max_right _ _)

theorem placesOf_cons (item : FetchItem) (items : List FetchItem) :
    placesOf (item :: items) = beginnings item.path item.path.length ∪ placesOf items := by
  ext front
  constructor
  · rintro ⟨hne, other, hmem, hprefix⟩
    rcases List.mem_cons.mp hmem with rfl | hold
    · exact Or.inl ⟨hne, hprefix, hprefix.length_le⟩
    · exact Or.inr ⟨hne, other, hold, hprefix⟩
  · rintro (⟨hne, hprefix, -⟩ | ⟨hne, other, hmem, hprefix⟩)
    · exact ⟨hne, item, List.mem_cons_self .., hprefix⟩
    · exact ⟨hne, other, List.mem_cons_of_mem _ hmem, hprefix⟩

theorem placesOf_perm {items items' : List FetchItem} (h : items'.Perm items) :
    placesOf items' = placesOf items := by
  ext front
  exact and_congr_right fun _ => exists_congr fun item => and_congr_left fun _ => h.mem_iff

theorem closed_placesOf (items : List FetchItem) : Closed (placesOf items) :=
  fun front back hne ⟨_, item, hmem, hprefix⟩ =>
    ⟨hne, item, hmem, (List.prefix_append front back).trans hprefix⟩

/-- The passes of all items, over rows that some were made on. -/
theorem foldlM_fetchItem_iff {rows r : List Row} {items : List FetchItem}
    (halias : ∀ item ∈ items, item.aliasName = none) {n : Nat}
    (hn : ∀ item ∈ items, item.path.length ≤ n) {paths : Set (List String)}
    (hclosed : Closed paths) (hloads : ∀ before ∈ paths, Fetchable getDocument rows before) :
    items.foldlM (fetchItem getDocument) (rows.map (expandRow (storeOf getDocument) n paths)) =
        .ok r ↔
      (∀ front ∈ placesOf items, Fetchable getDocument rows front) ∧
      r = rows.map (expandRow (storeOf getDocument) n (paths ∪ placesOf items)) := by
  induction items generalizing paths with
  | nil =>
    have hnone : placesOf [] = ∅ :=
      Set.eq_empty_of_forall_notMem fun front h => by
        obtain ⟨-, item, hmem, -⟩ := h
        cases hmem
    rw [hnone, Set.union_empty]
    exact ⟨fun h => ⟨nofun, (Except.ok.inj h).symm⟩, fun h => congrArg Except.ok h.2.symm⟩
  | cons item items ih =>
    rw [List.forall_mem_cons] at halias hn
    have hstep := fun mid => fetchItem_iff (r := mid) halias.1 hn.1 hclosed hloads
    have hrest := fun hbefore : ∀ front ∈ beginnings item.path item.path.length,
        Fetchable getDocument rows front =>
      ih halias.2 hn.2 (closed_union_beginnings hclosed item.path item.path.length)
        fun before hmem => hmem.elim (hloads before) (hbefore before)
    rw [List.foldlM_cons, bind_eq_ok_iff, placesOf_cons, ← Set.union_assoc]
    constructor
    · rintro ⟨mid, hmid, hlast⟩
      obtain ⟨hbefore, rfl⟩ := (hstep mid).mp hmid
      obtain ⟨hafter, heq⟩ := (hrest hbefore).mp hlast
      exact ⟨fun front hmem => hmem.elim (hbefore front) (hafter front), heq⟩
    · rintro ⟨hall, rfl⟩
      have hbefore := fun front hmem => hall front (Or.inl hmem)
      exact ⟨_, (hstep _).mpr ⟨hbefore, rfl⟩,
        (hrest hbefore).mpr ⟨fun front hmem => hall front (Or.inr hmem), rfl⟩⟩

theorem executeFetch_eq_foldlM (rows : List Row) (items : List FetchItem) :
    executeFetch getDocument rows items = items.foldlM (fetchItem getDocument) rows := by
  unfold executeFetch
  cases items <;> rfl

theorem map_expandRow_empty (n : Nat) (rows : List Row) :
    rows.map (expandRow (storeOf getDocument) n ∅) = rows := by
  have hrow : ∀ row ∈ rows, expandRow (storeOf getDocument) n ∅ row = id row := by
    intro row _
    have hsame := @expand_empty (storeOf getDocument) n (.object row.doc.fields)
    rw [expand_object] at hsame
    exact Row.ext_doc rfl (Value.object.inj hsame) rfl rfl
  rw [List.map_congr_left hrow, List.map_id]

/-- A FETCH expands the rows along the prefixes of its paths. -/
theorem executeFetch_iff {rows r : List Row} {items : List FetchItem}
    (halias : ∀ item ∈ items, item.aliasName = none) {n : Nat}
    (hn : ∀ item ∈ items, item.path.length ≤ n) :
    executeFetch getDocument rows items = .ok r ↔
      (∀ front ∈ placesOf items, Fetchable getDocument rows front) ∧
      r = rows.map (expandRow (storeOf getDocument) n (placesOf items)) := by
  have hclosed : Closed ∅ := fun _ _ _ hmem => hmem
  have hrun : (rows.map (expandRow (storeOf getDocument) n ∅)) = rows := map_expandRow_empty n rows
  have hall := @foldlM_fetchItem_iff getDocument rows r items halias n hn ∅ hclosed nofun
  rwa [hrun, Set.empty_union, ← executeFetch_eq_foldlM] at hall

/-- Once the rows are expanded along them, the same passes change nothing. -/
theorem executeFetch_again {rows r : List Row} {items : List FetchItem}
    (halias : ∀ item ∈ items, item.aliasName = none)
    (h : executeFetch getDocument rows items = .ok r) :
    executeFetch getDocument r items = .ok r := by
  have hn := fun item (hmem : item ∈ items) => length_le_depthOf hmem
  obtain ⟨hall, rfl⟩ := (executeFetch_iff halias hn).mp h
  rw [executeFetch_eq_foldlM]
  exact (foldlM_fetchItem_iff halias hn (closed_placesOf items) hall).mpr
    ⟨hall, by rw [Set.union_self]⟩

theorem executeFetch_perm {rows r : List Row} {items items' : List FetchItem}
    (halias : ∀ item ∈ items, item.aliasName = none) (hperm : items'.Perm items) :
    executeFetch getDocument rows items' = .ok r ↔
      executeFetch getDocument rows items = .ok r := by
  have hn := fun item (hmem : item ∈ items) => length_le_depthOf hmem
  have halias' := fun item (hmem : item ∈ items') => halias item (hperm.mem_iff.mp hmem)
  have hn' := fun item (hmem : item ∈ items') => hn item (hperm.mem_iff.mp hmem)
  rw [executeFetch_iff halias hn, executeFetch_iff halias' hn', placesOf_perm hperm]

end Passes

/-- A FETCH without aliases answers when all the documents it needs can be read, with every
reference at a prefix of its paths replaced and nothing else; made again it changes nothing, and
the order of its items makes no difference. -/
theorem fetch_expands (getDocument : String → String → Except StorageError (Option Document))
    (items : List FetchItem) (halias : ∀ item ∈ items, item.aliasName = none)
    (rows r : List Row) :
    (executeFetch getDocument rows items = .ok r ↔
      (∀ front ∈ placesOf items, Fetchable getDocument rows front) ∧
      r = rows.map (expandRow (storeOf getDocument) (depthOf items) (placesOf items))) ∧
    (executeFetch getDocument rows items = .ok r → executeFetch getDocument r items = .ok r) ∧
    ∀ items' : List FetchItem, items'.Perm items →
      (executeFetch getDocument rows items' = .ok r ↔
        executeFetch getDocument rows items = .ok r) :=
  ⟨executeFetch_iff halias fun _ => length_le_depthOf, executeFetch_again halias,
    fun _ hperm => executeFetch_perm halias hperm⟩

namespace Penpals

/-- Ann is her own friend. -/
def ann : Document := ⟨"users:ann", [("friend", .reference "users:ann")], rfl⟩

def getDocument (collection key : String) : Except StorageError (Option Document) :=
  if collection = "users" ∧ key = "ann" then .ok (some ann) else .ok none

def post : Row := .fromDoc ⟨"posts:1", [("author", .reference "users:ann")], rfl⟩

def author : FetchItem := ⟨["author"], none⟩

def friend : FetchItem := ⟨["author", "friend"], none⟩

/-- Her friend is put in once, under her as the author. -/
def expanded : Row := .fromDoc ⟨"posts:1", [("author", .object [
  ("friend", .object [("friend", .reference "users:ann"), ("id", .string "users:ann")]),
  ("id", .string "users:ann")])], by decide⟩

end Penpals

open Penpals in
theorem fetch_expands_penpals :
    executeFetch getDocument [post] [author, friend] = .ok [expanded] ∧
    executeFetch getDocument [expanded] [author, friend] = .ok [expanded] ∧
    executeFetch getDocument [post] [friend, author] = .ok [expanded] := by
  have hfetch : executeFetch getDocument [post] [author, friend] = .ok [expanded] := by
    rfl
  have h := fetch_expands getDocument [author, friend] (by decide) [post] [expanded]
  exact ⟨hfetch, h.2.1 hfetch, (h.2.2 _ (List.Perm.swap ..)).mpr hfetch⟩

end StellarDb
