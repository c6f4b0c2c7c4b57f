import StellarDb.Document
import StellarDb.Query.Temporal

/-!
# StellarDb — reading and setting nested fields (`eval/access.rs`)

`set_nested_field` goes down a path of segments and makes the objects that are missing; it fails
where something else than an object stands in the way. `resolve_nested_field` reads a path that is
written with dots. `objectBelow` is the object a path goes on in, made or found, and says both of
the read and of the update what a first segment does; the laws are by induction on the path
(`setNestedField_laws`). A failure below an object that had to be made is impossible, which is why
none is left behind.
-/

namespace StellarDb

open Entries

namespace Access

/-! ## The functions -/

/-- Resolve a dot-separated field path against the fields of a document. -/
def resolveNestedField (fields : List (String × Value)) (path : String) : Option Value :=
  match splitChar '.' path with
  | [] => none
  | root :: segments => do
    let current ← fields.lookup root
    segments.foldlM Value.getSegment current

/-- Set a value at a nested path: the result, and the fields that are left. -/
def setNestedField (fields : List (String × Value)) :
    List String → Value → Except ExecuteError Unit × List (String × Value)
  | [], _ => (.error (.unexpectedExpression "empty assignment path"), fields)
  | [field], value => (.ok (), setEntry field value fields)
  | first :: second :: rest, value =>
    -- `entry(first).or_insert_with(..)`
    let (nested, fields) :=
      match fields.lookup first with
      | some nested => (nested, fields)
      | none => (.object [], setEntry first (.object []) fields)
    match nested with
    | .object obj =>
      let (result, obj) := setNestedField obj (second :: rest) value
      (result, setEntry first (.object obj) fields)
    | nested =>
      (.error (.typeError "Object" (valueTypeName nested) "nested field update"), fields)

/-! ## One segment -/

/-- What a path reads, by its segments. -/
def readPath (fields : List (String × Value)) : List String → Option Value
  | [] => none
  | root :: segments => do
    let current ← fields.lookup root
    segments.foldlM Value.getSegment current

/-- The object that a path goes on in below its first segment. -/
def objectBelow (fields : List (String × Value)) (first : String) :
    Option (List (String × Value)) :=
  match fields.lookup first with
  | none => some []
  | some (.object obj) => some obj
  | some _ => none

section Segment

variable {fields fields' obj : List (String × Value)} {first : String} {rest : List String}

theorem readPath_congr (h : fields.lookup first = fields'.lookup first) (rest : List String) :
    readPath fields (first :: rest) = readPath fields' (first :: rest) := by
  rw [readPath, readPath, h]

theorem readPath_nil (path : List String) : readPath [] path = none := by
  cases path <;> rfl

/-- Reading goes on in the object below. -/
theorem readPath_cons (hrest : rest ≠ []) (h : objectBelow fields first = some obj) :
    readPath fields (first :: rest) = readPath obj rest := by
  obtain ⟨second, rest, rfl⟩ := List.exists_cons_of_ne_nil hrest
  unfold objectBelow at h
  split at h
  · next hlookup =>
    -- nothing is read of an object that is not there
    obtain rfl := Option.some.inj h
    rw [readPath_nil, readPath, hlookup]
    rfl
  · next hlookup =>
    obtain rfl := Option.some.inj h
    rw [readPath, hlookup]
    rfl
  · cases h

/-- Setting goes on in the object below, and nothing but the first segment is changed. -/
theorem setNestedField_cons (hrest : rest ≠ []) (h : objectBelow fields first = some obj)
    (value : Value) :
    (setNestedField fields (first :: rest) value).1 = (setNestedField obj rest value).1 ∧
      ∀ k, (setNestedField fields (first :: rest) value).2.lookup k =
        if first = k then some (.object (setNestedField obj rest value).2) else fields.lookup k := by
  obtain ⟨second, rest, rfl⟩ := List.exists_cons_of_ne_nil hrest
  unfold objectBelow at h
  split at h
  · next hlookup =>
    obtain rfl := Option.some.inj h
    rw [setNestedField, hlookup]
    refine ⟨rfl, fun k => ?_⟩
    show (setEntry first _ (setEntry first _ fields)).lookup k = _
    rw [lookup_setEntry, lookup_setEntry]
    split
    · rfl
    · rfl
  · next hlookup =>
    obtain rfl := Option.some.inj h
    rw [setNestedField, hlookup]
    exact ⟨rfl, fun k => lookup_setEntry fields first k _⟩
  · cases h

/-- Where no object is below, setting fails at once. -/
theorem setNestedField_blocked (hrest : rest ≠ []) (h : objectBelow fields first = none)
    (value : Value) :
    ∃ nested, fields.lookup first = some nested ∧
      setNestedField fields (first :: rest) value =
        (.error (.typeError "Object" (valueTypeName nested) "nested field update"), fields) := by
  obtain ⟨second, rest, rfl⟩ := List.exists_cons_of_ne_nil hrest
  unfold objectBelow at h
  split at h
  · cases h
  · cases h
  · next nested hno hlookup =>
    refine ⟨nested, hlookup, ?_⟩
    rw [setNestedField, hlookup]
    cases nested with
    | object obj => exact absurd rfl (hno obj)
    | _ => rfl

theorem setNestedField_below_of_ok (hrest : rest ≠ []) {value : Value}
    (h : (setNestedField fields (first :: rest) value).1 = .ok ()) :
    ∃ obj, objectBelow fields first = some obj := by
  cases hbelow : objectBelow fields first with
  | some obj => exact ⟨obj, rfl⟩
  | none =>
    obtain ⟨nested, -, hset⟩ := setNestedField_blocked hrest hbelow value
    rw [hset] at h
    cases h

theorem objectBelow_congr (h : fields.lookup first = fields'.lookup first) :
    objectBelow fields first = objectBelow fields' first := by
  rw [objectBelow, objectBelow, h]

theorem objectBelow_of_lookup (h : fields.lookup first = some (.object obj)) :
    objectBelow fields first = some obj := by
  rw [objectBelow, h]

end Segment

/-! ## Whole paths -/

section Paths

variable {fields : List (String × Value)} {p q : List String} {v w : Value}

/-- Below an object that has just been made, nothing is in the way. -/
theorem setNestedField_nil (hp : p ≠ []) (v : Value) : (setNestedField [] p v).1 = .ok () := by
  induction p with
  | nil => exact absurd rfl hp
  | cons first rest ih =>
    by_cases hrest : rest = []
    · rw [hrest]
      rfl
    · rw [(setNestedField_cons hrest (show objectBelow [] first = some [] from rfl) v).1]
      exact ih hrest

/-- A set that fails leaves the fields as they were. -/
theorem setNestedField_failed (h : (setNestedField fields p v).1 ≠ .ok ()) :
    (setNestedField fields p v).2 = fields := by
  induction p generalizing fields with
  | nil => rfl
  | cons first rest ih =>
    cases rest with
    | nil => exact absurd rfl h
    | cons second rest =>
      have hrest := List.cons_ne_nil second rest
      cases hbelow : objectBelow fields first with
      | none =>
        obtain ⟨nested, -, hset⟩ := setNestedField_blocked hrest hbelow v
        rw [hset]
      | some obj =>
        rw [(setNestedField_cons hrest hbelow v).1] at h
        have hobj := ih h
        unfold objectBelow at hbelow
        split at hbelow
        · obtain rfl := Option.some.inj hbelow
          exact absurd (setNestedField_nil hrest v) h
        · next hlookup =>
          obtain rfl := Option.some.inj hbelow
          rw [setNestedField, hlookup]
          show setEntry first (.object (setNestedField _ (second :: rest) v).2) fields = fields
          rw [hobj, setEntry_self hlookup]
        · cases hbelow

/-- What was set is read. -/
theorem readPath_setNestedField (h : (setNestedField fields p v).1 = .ok ()) :
    readPath (setNestedField fields p v).2 p = some v := by
  induction p generalizing fields with
  | nil => cases h
  | cons first rest ih =>
    by_cases hrest : rest = []
    · subst hrest
      show ((setEntry first v fields).lookup first).bind _ = some v
      rw [lookup_setEntry, if_pos rfl]
      rfl
    · obtain ⟨obj, hbelow⟩ := setNestedField_below_of_ok hrest h
      obtain ⟨hresult, hlookup⟩ := setNestedField_cons hrest hbelow v
      rw [hresult] at h
      have hfound := hlookup first
      rw [if_pos rfl] at hfound
      rw [readPath_cons hrest (objectBelow_of_lookup hfound)]
      exact ih h

/-- Neither path is the front of the other. -/
structure Apart (p q : List String) : Prop where
  left : ¬ p <+: q
  right : ¬ q <+: p

theorem Apart.tails {a : String} (h : Apart (a :: p) (a :: q)) : Apart p q where
  left hpq := h.left (List.cons_prefix_cons.mpr ⟨rfl, hpq⟩)
  right hqp := h.right (List.cons_prefix_cons.mpr ⟨rfl, hqp⟩)

theorem Apart.ne_nil (h : Apart p q) : p ≠ [] ∧ q ≠ [] := by
  constructor
  · intro hp
    exact h.left (hp ▸ List.nil_prefix)
  · intro hq
    exact h.right (hq ▸ List.nil_prefix)

/-- The result of a set, and what it puts under the first segment, depend on nothing but what
stands there. -/
theorem setNestedField_local (fields : List (String × Value)) (first : String)
    (rest : List String) (v : Value) :
    ∃ (result : Except ExecuteError Unit) (x : Option Value),
      ∀ fields' : List (String × Value), fields'.lookup first = fields.lookup first →
        (setNestedField fields' (first :: rest) v).1 = result ∧
          ∀ k, (setNestedField fields' (first :: rest) v).2.lookup k =
            if first = k then x else fields'.lookup k := by
  by_cases hrest : rest = []
  · subst hrest
    exact ⟨.ok (), some v, fun fields' _ => ⟨rfl, fun k => lookup_setEntry fields' first k v⟩⟩
  · cases hbelow : objectBelow fields first with
    | some obj =>
      refine ⟨(setNestedField obj rest v).1, some (.object (setNestedField obj rest v).2), ?_⟩
      intro fields' hsame
      exact setNestedField_cons hrest ((objectBelow_congr hsame).trans hbelow) v
    | none =>
      obtain ⟨nested, hnested, -⟩ := setNestedField_blocked hrest hbelow v
      refine ⟨.error (.typeError "Object" (valueTypeName nested) "nested field update"),
        some nested, ?_⟩
      intro fields' hsame
      obtain ⟨nested', hnested', hset⟩ :=
        setNestedField_blocked hrest ((objectBelow_congr hsame).trans hbelow) v
      rw [hsame, hnested] at hnested'
      obtain rfl := Option.some.inj hnested'
      rw [hset]
      refine ⟨rfl, fun k => ?_⟩
      by_cases hk : first = k
      · rw [if_pos hk, ← hk, hsame, hnested]
      · rw [if_neg hk]

/-- What stands under another first segment is left alone. -/
theorem lookup_setNestedField_of_ne {first k : String} (hk : first ≠ k) (rest : List String)
    (v : Value) :
    (setNestedField fields (first :: rest) v).2.lookup k = fields.lookup k := by
  obtain ⟨_, _, heffect⟩ := setNestedField_local fields first rest v
  rw [(heffect fields rfl).2 k, if_neg hk]

/-- Other paths read what they did. -/
theorem readPath_of_apart (h : Apart p q) (v : Value) :
    readPath (setNestedField fields p v).2 q = readPath fields q := by
  induction p generalizing fields q with
  | nil => exact absurd rfl h.ne_nil.1
  | cons first rest ih =>
    cases q with
    | nil => exact absurd rfl h.ne_nil.2
    | cons head tail =>
      by_cases hhead : first = head
      · -- the paths part further down
        subst hhead
        have htails := h.tails
        cases hbelow : objectBelow fields first with
        | none =>
          obtain ⟨nested, -, hset⟩ := setNestedField_blocked htails.ne_nil.1 hbelow v
          rw [hset]
        | some obj =>
          have hfound := (setNestedField_cons htails.ne_nil.1 hbelow v).2 first
          rw [if_pos rfl] at hfound
          rw [readPath_cons htails.ne_nil.2 (objectBelow_of_lookup hfound), ih htails,
            readPath_cons htails.ne_nil.2 hbelow]
      · exact readPath_congr (lookup_setNestedField_of_ne hhead rest v) tail

/-- After a set has succeeded, a set elsewhere has the result it would have had before. -/
theorem result_of_apart (h : Apart p q) (hp : (setNestedField fields p v).1 = .ok ()) (w : Value) :
    (setNestedField (setNestedField fields p v).2 q w).1 = (setNestedField fields q w).1 := by
  induction p generalizing fields q with
  | nil => exact absurd rfl h.ne_nil.1
  | cons first rest ih =>
    cases q with
    | nil => exact absurd rfl h.ne_nil.2
    | cons head tail =>
      by_cases hhead : first = head
      · subst hhead
        have htails := h.tails
        obtain ⟨obj, hbelow⟩ := setNestedField_below_of_ok htails.ne_nil.1 hp
        obtain ⟨hresult, hlookup⟩ := setNestedField_cons htails.ne_nil.1 hbelow v
        have hfound := hlookup first
        rw [if_pos rfl] at hfound
        rw [hresult] at hp
        rw [(setNestedField_cons htails.ne_nil.2 (objectBelow_of_lookup hfound) w).1,
          (setNestedField_cons htails.ne_nil.2 hbelow w).1]
        exact ih htails hp
      · obtain ⟨result, _, heffect⟩ := setNestedField_local fields head tail w
        rw [(heffect _ (lookup_setNestedField_of_ne hhead rest v)).1, (heffect fields rfl).1]

end Paths

/-! ## Two orders -/

/-- Values that differ in nothing but the order in which the fields of objects are kept. -/
inductive Same : Value → Value → Prop where
  | refl (v : Value) : Same v v
  | object {fs gs : List (String × Value)}
    (keys : ∀ k, (fs.lookup k).isSome = (gs.lookup k).isSome)
    (values : ∀ k v w, fs.lookup k = some v → gs.lookup k = some w → Same v w) :
    Same (.object fs) (.object gs)

theorem Same.of_lookup_eq {fs gs : List (String × Value)} (h : ∀ k, fs.lookup k = gs.lookup k) :
    Same (.object fs) (.object gs) := by
  refine .object (fun k => by rw [h k]) fun k v w hv hw => ?_
  rw [h k, hw] at hv
  obtain rfl := Option.some.inj hv
  exact .refl w

section Commute

variable {fields : List (String × Value)} {p q : List String} {v w : Value}

/-- Sets that succeed on the same fields, apart from each other, can be made in either order. -/
theorem setNestedField_comm (h : Apart p q) (hp : (setNestedField fields p v).1 = .ok ())
    (hq : (setNestedField fields q w).1 = .ok ()) :
    Same (.object (setNestedField (setNestedField fields p v).2 q w).2)
      (.object (setNestedField (setNestedField fields q w).2 p v).2) := by
  induction p generalizing fields q with
  | nil => exact absurd rfl h.ne_nil.1
  | cons first rest ih =>
    cases q with
    | nil => exact absurd rfl h.ne_nil.2
    | cons head tail =>
      by_cases hhead : first = head
      · subst hhead
        have htails := h.tails
        obtain ⟨obj, hbelow⟩ := setNestedField_below_of_ok htails.ne_nil.1 hp
        obtain ⟨hpresult, hplookup⟩ := setNestedField_cons htails.ne_nil.1 hbelow v
        obtain ⟨hqresult, hqlookup⟩ := setNestedField_cons htails.ne_nil.2 hbelow w
        rw [hpresult] at hp
        rw [hqresult] at hq
        have hpfound := hplookup first
        have hqfound := hqlookup first
        rw [if_pos rfl] at hpfound hqfound
        -- the object below is the same after both orders, the rest is as it was
        have hpq := (setNestedField_cons htails.ne_nil.2 (objectBelow_of_lookup hpfound) w).2
        have hqp := (setNestedField_cons htails.ne_nil.1 (objectBelow_of_lookup hqfound) v).2
        refine .object (fun k => ?_) fun k x y hx hy => ?_
        · rw [hpq, hqp]
          by_cases hk : first = k
          · rw [if_pos hk, if_pos hk]
            rfl
          · rw [if_neg hk, if_neg hk, hplookup, hqlookup, if_neg hk, if_neg hk]
        · rw [hpq] at hx
          rw [hqp] at hy
          by_cases hk : first = k
          · rw [if_pos hk] at hx hy
            rw [← Option.some.inj hx, ← Option.some.inj hy]
            exact ih htails hp hq
          · rw [if_neg hk, hplookup, if_neg hk] at hx
            rw [if_neg hk, hqlookup, if_neg hk, hx] at hy
            rw [Option.some.inj hy]
            exact .refl y
      · -- different first segments: what each set puts there does not depend on the other
        obtain ⟨_, x, hx⟩ := setNestedField_local fields first rest v
        obtain ⟨_, y, hy⟩ := setNestedField_local fields head tail w
        have hpq := hy _ (lookup_setNestedField_of_ne hhead rest v)
        have hqp := hx _ (lookup_setNestedField_of_ne (Ne.symm hhead) tail w)
        apply Same.of_lookup_eq
        intro k
        rw [hpq.2, hqp.2, (hx fields rfl).2, (hy fields rfl).2]
        by_cases hk : first = k
        · rw [if_pos hk, if_pos hk, if_neg (fun hk' => hhead (hk.trans hk'.symm))]
        · rw [if_neg hk, if_neg hk]

end Commute

/-! ## The laws -/

section Laws

variable {fields : List (String × Value)} {p : List String} {v : Value}

theorem splitChar_intercalate (hp : p ≠ []) (hplain : ∀ s ∈ p, '.' ∉ s.toList) :
    splitChar '.' (".".intercalate p) = p := by
  have hdots : ∀ cs ∈ p.map String.toList, '.' ∉ cs := by
    intro cs hcs
    obtain ⟨s, hs, rfl⟩ := List.mem_map.mp hcs
    exact hplain s hs
  have hlist : ".".toList = ['.'] := rfl
  rw [splitChar, String.toList_intercalate, hlist,
    List.splitOn_intercalate '.' hdots (by simpa using hp), List.map_map]
  conv_rhs => rw [← List.map_id p]
  exact List.map_congr_left fun s _ => String.ofList_toList

theorem resolveNestedField_eq (fields : List (String × Value)) (path : String) :
    resolveNestedField fields path = readPath fields (splitChar '.' path) := by
  rw [resolveNestedField]
  cases splitChar '.' path <;> rfl

/-- The laws of nested field updates. -/
theorem setNestedField_laws (fields : List (String × Value)) (hp : p ≠ [])
    (hplain : ∀ s ∈ p, '.' ∉ s.toList) (v : Value) :
    ((setNestedField fields p v).1 = .ok () →
      resolveNestedField (setNestedField fields p v).2 (".".intercalate p) = some v ∧
      ∀ path : String, Apart p (splitChar '.' path) →
        resolveNestedField (setNestedField fields p v).2 path = resolveNestedField fields path) ∧
    (∀ (q : List String) (w : Value), Apart p q → (setNestedField fields p v).1 = .ok () →
      (setNestedField (setNestedField fields p v).2 q w).1 = (setNestedField fields q w).1 ∧
      ((setNestedField fields q w).1 = .ok () →
        (setNestedField (setNestedField fields q w).2 p v).1 = .ok () ∧
        Same (.object (setNestedField (setNestedField fields p v).2 q w).2)
          (.object (setNestedField (setNestedField fields q w).2 p v).2))) ∧
    ((setNestedField fields p v).1 ≠ .ok () → (setNestedField fields p v).2 = fields) := by
  refine ⟨fun hok => ⟨?_, fun path hapart => ?_⟩, fun q w hapart hok => ⟨?_, fun hq => ⟨?_, ?_⟩⟩,
    setNestedField_failed⟩
  · rw [resolveNestedField_eq, splitChar_intercalate hp hplain]
    exact readPath_setNestedField hok
  · rw [resolveNestedField_eq, resolveNestedField_eq]
    exact readPath_of_apart hapart v
  · exact result_of_apart hapart hok w
  · rw [result_of_apart ⟨hapart.right, hapart.left⟩ hq v]
    exact hok
  · exact setNestedField_comm hapart hok hq

end Laws

end Access

namespace Contacts

open Access

/-- The city is set in an address that is not there yet; the name stays. -/
theorem city_set :
    resolveNestedField (setNestedField [("name", .string "Ada")] ["address", "city"]
      (.string "NYC")).2 "address.city" = some (.string "NYC") ∧
    resolveNestedField (setNestedField [("name", .string "Ada")] ["address", "city"]
      (.string "NYC")).2 "name" = some (.string "Ada") := by
  have hlaws := setNestedField_laws (p := ["address", "city"]) [("name", .string "Ada")]
    (by decide) (by decide) (.string "NYC")
  obtain ⟨hread, hframe⟩ := hlaws.1 rfl
  exact ⟨hread, hframe "name" ⟨by decide, by decide⟩⟩

end Contacts

end StellarDb
