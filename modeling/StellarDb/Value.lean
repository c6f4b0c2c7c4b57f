import StellarDb.Lib.Keyspace

/-!
# StellarDb — values and documents (`document.rs`, `error/mod.rs`)

`Value` is the thirteen-way value type of a document field. Three of its payloads need care:

* `Float` holds an IEEE double by its bits (`F64`), so that the equality of doubles (`NaN`
  differs from itself, `-0.0` equals `0.0`) and their decimal text can be computed;
* `Decimal` holds sign, scale and 96-bit mantissa, and is compared by representation, as the
  sixteen stored bytes are;
* `Object` is a hash map. It is modelled by one iteration order of its entries; `Value.wf`
  says that no key occurs twice, and a `Document` carries that fact as a field.

`Value.beq` is the derived `PartialEq`. It is symmetric on well-formed values (`beq_symm`),
which is what makes undoing a lock update visit the same indexes as doing it.
-/

namespace StellarDb

open Keyspaces

/-! ## Errors -/

inductive StorageError where
  | fjall (msg : String)
  | serialization (msg : String)
  | conflict (msg : String)
  | index (msg : String)
  | notFound (msg : String)
  | alreadyExists (msg : String)
  | invalidOperation (msg : String)
  | collectionNotLoaded (msg : String)
  | other (msg : String)
  deriving DecidableEq, Repr

theorem ok_bind {ε α β : Type} (a : α) (f : α → Except ε β) : Except.ok a >>= f = f a := rfl

/-- A call and what follows it answer if both do. -/
theorem bind_eq_ok_iff {ε α β : Type} {x : Except ε α} {f : α → Except ε β} {b : β} :
    (x >>= f) = .ok b ↔ ∃ a, x = .ok a ∧ f a = .ok b := by
  cases x with
  | error e => simp [bind, Except.bind]
  | ok a => simp [bind, Except.bind]

/-! ## Hash maps -/

/-- The order in which a hash map hands out its entries. -/
structure IterOrder where
  iter : {α : Type} → List α → List α
  perm : ∀ {α : Type} (entries : List α), (iter entries).Perm entries

/-- The entries as they are kept. -/
def IterOrder.asKept : IterOrder where
  iter entries := entries
  perm entries := List.Perm.refl entries

/-! ## Doubles -/

/-- An `f64`, by its bits. -/
structure F64 where
  bits : UInt64
  deriving DecidableEq, Repr

namespace F64

def isNegative (f : F64) : Bool := f.bits.toNat / 2 ^ 63 = 1

def expBits (f : F64) : Nat := f.bits.toNat / 2 ^ 52 % 2048

def fraction (f : F64) : Nat := f.bits.toNat % 2 ^ 52

def isNan (f : F64) : Bool := f.expBits = 2047 && f.fraction ≠ 0

def isInfinite (f : F64) : Bool := f.expBits = 2047 && f.fraction = 0

def isZero (f : F64) : Bool := f.expBits = 0 && f.fraction = 0

/-- `==` on `f64`. -/
def eq (f g : F64) : Bool := !f.isNan && !g.isNan && (f = g || (f.isZero && g.isZero))

/-- The integer significand: a finite `|f|` is `significand * 2 ^ exponent`. -/
def significand (f : F64) : Nat := if f.expBits = 0 then f.fraction else f.fraction + 2 ^ 52

def exponent (f : F64) : Int := (max f.expBits 1 : Nat) - 1075

/-- `abs_f == abs_f.trunc()` for a finite double. -/
def isIntegral (f : F64) : Bool :=
  0 ≤ f.exponent || f.significand % 2 ^ (-f.exponent).toNat = 0

/-- `abs_f.trunc()` for a finite double. -/
def truncAbs (f : F64) : Nat :=
  if 0 ≤ f.exponent then f.significand * 2 ^ f.exponent.toNat
  else f.significand / 2 ^ (-f.exponent).toNat

/-- The exact value of a finite `|f|`. -/
def absRat (f : F64) : ℚ := f.significand * (2 : ℚ) ^ f.exponent

/-- The fewest decimal digits that still read back as `|f|`, and where the point goes: the
number is `0.d₁d₂… * 10 ^ point`. Among the candidates of one length the closest wins. -/
def shortestDigits (f : F64) : List Nat × Int :=
  let x := f.absRat
  let ulp : ℚ := (2 : ℚ) ^ f.exponent
  let up := x + ulp / 2
  let down := x - (if f.fraction = 0 && 1 < f.expBits then ulp / 4 else ulp / 2)
  let reads (c : ℚ) : Bool :=
    if f.significand % 2 = 0 then down ≤ c && c ≤ up else down < c && c < up
  let point : Int :=
    (((List.range 640).map fun i => (i : Int) - 325).find? fun k => x < (10 : ℚ) ^ k).getD 315
  let candidate (n : Nat) : Option Nat :=
    let scale : ℚ := (10 : ℚ) ^ ((n : Int) - point)
    let lo := (x * scale).floor.toNat
    match reads (lo / scale), reads ((lo + 1) / scale) with
    | true, true => some (if x - lo / scale ≤ (lo + 1) / scale - x then lo else lo + 1)
    | true, false => some lo
    | false, true => some (lo + 1)
    | false, false => none
  let digitsOf (c : Nat) : List Nat := (Nat.digits 10 c).reverse
  match ((List.range 17).map (· + 1)).findSome? fun n => (candidate n).map (n, ·) with
  | some (n, c) =>
    let ds := digitsOf c
    ((ds.reverse.dropWhile (· = 0)).reverse, point + (ds.length - n : Int))
  | none => ([], 0)

/-- `abs_f.to_string()`: positional notation, never an exponent. -/
def absToString (f : F64) : String :=
  let (digits, point) := f.shortestDigits
  let chars := digits.map Nat.digitChar
  let zeros (n : Nat) : List Char := List.replicate n '0'
  String.ofList <|
    if point ≤ 0 then ['0', '.'] ++ zeros (-point).toNat ++ chars
    else if digits.length ≤ point.toNat then chars ++ zeros (point.toNat - digits.length)
    else chars.take point.toNat ++ ['.'] ++ chars.drop point.toNat

theorem eq_symm (f g : F64) : f.eq g = g.eq f := by
  unfold eq
  rw [Bool.and_comm (!f.isNan), Bool.and_comm f.isZero]
  congr 2
  simp [eq_comm]

end F64

/-! ## Decimals -/

/-- A decimal number: `(-1)^negative * mantissa / 10 ^ scale`. Equality is that of the
sixteen stored bytes, hence of the representation. -/
structure Decimal where
  negative : Bool
  scale : Fin 29
  mantissa : Fin (2 ^ 96)
  deriving DecidableEq, Repr

instance Decimal.neZeroScale : NeZero 29 := ⟨by decide⟩

instance Decimal.neZeroMantissa : NeZero (2 ^ 96) := ⟨by decide⟩

/-! ## Values -/

inductive Value where
  | null
  | bool (b : Bool)
  | int (n : Int64)
  | float (f : F64)
  | decimal (d : Decimal)
  | string (s : String)
  | array (elems : List Value)
  | object (entries : List (String × Value))
  | reference (id : String)
  | datetime (ms : Int64)
  | duration (ns : UInt64)
  | bytes (b : Bytes)
  | range (start stop : Value)

namespace Value

mutual

/-- No object inside the value has a key twice. -/
def wf : Value → Bool
  | .array elems => wfElems elems
  | .object entries => decide (entries.map Prod.fst).Nodup && wfEntries entries
  | .range start stop => start.wf && stop.wf
  | _ => true

def wfElems : List Value → Bool
  | [] => true
  | v :: vs => v.wf && wfElems vs

def wfEntries : List (String × Value) → Bool
  | [] => true
  | (_, v) :: es => v.wf && wfEntries es

end

mutual

/-- The derived `PartialEq`: values of different kinds differ, maps are equal when they have
as many entries and each entry of the left one has an equal partner in the right one. -/
def beq : Value → Value → Bool
  | .null, .null => true
  | .bool a, .bool b => a == b
  | .int a, .int b => a == b
  | .float a, .float b => a.eq b
  | .decimal a, .decimal b => a == b
  | .string a, .string b => a == b
  | .array as, .array bs => beqElems as bs
  | .object fs, .object gs => fs.length == gs.length && beqEntries fs gs
  | .reference a, .reference b => a == b
  | .datetime a, .datetime b => a == b
  | .duration a, .duration b => a == b
  | .bytes a, .bytes b => a == b
  | .range s e, .range s' e' => s.beq s' && e.beq e'
  | _, _ => false

def beqElems : List Value → List Value → Bool
  | [], [] => true
  | a :: as, b :: bs => a.beq b && beqElems as bs
  | _, _ => false

/-- Every entry of the first list has an equal value under the same key in the second. -/
def beqEntries : List (String × Value) → List (String × Value) → Bool
  | [], _ => true
  | (k, v) :: fs, gs =>
    (match gs.lookup k with
      | some w => v.beq w
      | none => false) && beqEntries fs gs

end

/-! ## Induction over nested values

The eliminator Lean generates has separate motives for lists and pairs; the one below has
the single motive that proofs about values use. -/

section Induction

variable {motive : Value → Prop}
  (null : motive .null) (bool : ∀ b, motive (.bool b)) (int : ∀ n, motive (.int n))
  (float : ∀ f, motive (.float f)) (decimal : ∀ d, motive (.decimal d))
  (string : ∀ s, motive (.string s))
  (array : ∀ elems, (∀ v ∈ elems, motive v) → motive (.array elems))
  (object : ∀ entries : List (String × Value), (∀ e ∈ entries, motive e.2) →
    motive (.object entries))
  (reference : ∀ id, motive (.reference id)) (datetime : ∀ ms, motive (.datetime ms))
  (duration : ∀ ns, motive (.duration ns)) (bytes : ∀ b, motive (.bytes b))
  (range : ∀ start stop, motive start → motive stop → motive (.range start stop))

include null bool int float decimal string array object reference datetime duration bytes range

@[elab_as_elim, induction_eliminator]
theorem induct (v : Value) : motive v :=
  @Value.rec motive (fun vs => ∀ v ∈ vs, motive v) (fun es => ∀ e ∈ es, motive e.2)
    (fun e => motive e.2)
    null bool int float decimal string array object reference datetime duration bytes range
    (by simp) (fun _ _ hv hvs => List.forall_mem_cons.mpr ⟨hv, hvs⟩)
    (by simp) (fun _ _ he hes => List.forall_mem_cons.mpr ⟨he, hes⟩)
    (fun _ _ hv => hv) v

end Induction

theorem wfElems_iff (vs : List Value) : wfElems vs = true ↔ ∀ v ∈ vs, v.wf = true := by
  induction vs with
  | nil => simp [wfElems]
  | cons v vs ih => simp [wfElems, ih]

theorem wfEntries_iff (es : List (String × Value)) :
    wfEntries es = true ↔ ∀ e ∈ es, e.2.wf = true := by
  induction es with
  | nil => simp [wfEntries]
  | cons e es ih => simp [wfEntries, ih]

/-! ## Equality of maps

`beqEntries` is the left-to-right half of map equality. On duplicate-free entry lists of the
same length the two halves agree, because the keys of one list are then a permutation of the
keys of the other. -/

theorem beqEntries_iff (fs gs : List (String × Value)) :
    beqEntries fs gs = true ↔ ∀ e ∈ fs, ∃ w, gs.lookup e.1 = some w ∧ e.2.beq w = true := by
  induction fs with
  | nil => simp [beqEntries]
  | cons e fs ih =>
    simp only [beqEntries, Bool.and_eq_true, ih, List.forall_mem_cons]
    refine and_congr_left fun _ => ?_
    cases gs.lookup e.1 <;> simp

/-- In a duplicate-free entry list, looking a member's key up finds that member. -/
theorem lookup_of_mem {es : List (String × Value)} (hnd : (es.map Prod.fst).Nodup)
    {e : String × Value} (he : e ∈ es) : es.lookup e.1 = some e.2 := by
  induction es with
  | nil => simp at he
  | cons f es ih =>
    rw [List.map_cons, List.nodup_cons] at hnd
    rcases List.mem_cons.mp he with rfl | hmem
    · simp [List.lookup]
    · have hne : e.1 ≠ f.1 := by
        rintro heq
        exact hnd.1 (heq ▸ List.mem_map_of_mem hmem)
      rw [List.lookup, beq_false_of_ne hne]
      exact ih hnd.2 hmem

theorem mem_of_lookup {es : List (String × Value)} {k : String} {v : Value}
    (h : es.lookup k = some v) : (k, v) ∈ es := by
  induction es with
  | nil => simp at h
  | cons f es ih =>
    rw [List.lookup] at h
    split at h
    · next hk =>
      have hkf : k = f.1 := by simpa using hk
      have hvf : f.2 = v := by simpa using h
      exact List.mem_cons.mpr (Or.inl (by rw [hkf, ← hvf]))
    · exact List.mem_cons_of_mem _ (ih h)

/-- Equal maps have the same keys. -/
theorem keys_perm_of_beqEntries {fs gs : List (String × Value)}
    (hfs : (fs.map Prod.fst).Nodup) (hlen : fs.length = gs.length)
    (h : beqEntries fs gs = true) : (fs.map Prod.fst).Perm (gs.map Prod.fst) := by
  have hsub : fs.map Prod.fst ⊆ gs.map Prod.fst := by
    intro k hk
    obtain ⟨e, he, rfl⟩ := List.mem_map.mp hk
    obtain ⟨w, hw, -⟩ := (beqEntries_iff fs gs).mp h e he
    exact List.mem_map.mpr ⟨_, mem_of_lookup hw, rfl⟩
  exact (List.subperm_of_subset hfs hsub).perm_of_length_le (by simp [hlen])

theorem beqElems_symm (vs ws : List Value)
    (h : ∀ v ∈ vs, ∀ w, v.wf = true → w.wf = true → v.beq w = true → w.beq v = true)
    (hvs : wfElems vs = true) (hws : wfElems ws = true) (hb : beqElems vs ws = true) :
    beqElems ws vs = true := by
  induction vs generalizing ws with
  | nil => cases ws <;> simp_all [beqElems]
  | cons v vs ih =>
    cases ws with
    | nil => simp [beqElems] at hb
    | cons w ws =>
      simp only [beqElems, wfElems, Bool.and_eq_true, List.forall_mem_cons] at *
      exact ⟨h.1 w hvs.1 hws.1 hb.1, ih ws h.2 hvs.2 hws.2 hb.2⟩

theorem beq_symm_imp (v : Value) :
    ∀ w, v.wf = true → w.wf = true → v.beq w = true → w.beq v = true := by
  induction v with
  | array elems ih =>
    intro w hv hw hb
    cases w <;> simp only [beq, wf] at * <;> try contradiction
    exact beqElems_symm _ _ ih hv hw hb
  | object entries ih =>
    intro w hv hw hb
    cases w with
    | object gs =>
      simp only [wf, Bool.and_eq_true, decide_eq_true_eq, wfEntries_iff, beq,
        beq_iff_eq] at *
      have hperm := keys_perm_of_beqEntries hv.1 hb.1 hb.2
      refine ⟨hb.1.symm, (beqEntries_iff gs entries).mpr ?_⟩
      intro g hg
      -- the key of `g` occurs on the left, and its partner there is `g` itself
      obtain ⟨e, he, heg⟩ := List.mem_map.mp (hperm.mem_iff.mpr (List.mem_map_of_mem hg))
      obtain ⟨w, hw', hbe⟩ := (beqEntries_iff entries gs).mp hb.2 e he
      rw [heg, lookup_of_mem hw.1 hg, Option.some.injEq] at hw'
      subst hw'
      refine ⟨e.2, ?_, ih e he g.2 (hv.2 e he) (hw.2 g hg) hbe⟩
      rw [← heg]
      exact lookup_of_mem hv.1 he
    | _ => simp [beq] at hb
  | range start stop ihs ihe =>
    intro w hv hw hb
    cases w <;> simp only [beq, wf, Bool.and_eq_true] at * <;> try contradiction
    exact ⟨ihs _ hv.1 hw.1 hb.1, ihe _ hv.2 hw.2 hb.2⟩
  | float f =>
    intro w _ _ hb
    cases w <;> simp only [beq] at * <;> try contradiction
    rw [F64.eq_symm]; exact hb
  | _ =>
    intro w _ _ hb
    cases w <;> simp_all [beq]

/-- The derived equality is symmetric on well-formed values. -/
theorem beq_symm {v w : Value} (hv : v.wf = true) (hw : w.wf = true) : v.beq w = w.beq v :=
  Bool.eq_iff_iff.mpr ⟨beq_symm_imp v w hv hw, beq_symm_imp w v hw hv⟩

end Value

/-! ## Documents -/

/-- `s.split_once(c)`. -/
def splitOnce (c : Char) (s : String) : Option (String × String) :=
  if c ∈ s.toList then
    some (String.ofList (s.toList.takeWhile (· ≠ c)),
      String.ofList ((s.toList.dropWhile (· ≠ c)).drop 1))
  else none

theorem splitOnce_of_notMem {c : Char} {a : String} (ha : c ∉ a.toList) (b : String) :
    splitOnce c (a ++ String.singleton c ++ b) = some (a, b) := by
  have hall : ∀ x ∈ a.toList, decide (x ≠ c) = true :=
    fun x hx => decide_eq_true fun h => ha (h ▸ hx)
  have hlist : (a ++ String.singleton c ++ b).toList = a.toList ++ c :: b.toList := by
    simp
  unfold splitOnce
  rw [hlist, if_pos (List.mem_append_right _ List.mem_cons_self),
    List.takeWhile_append_of_pos hall, List.dropWhile_append_of_pos hall,
    List.takeWhile_cons_of_neg (by simp), List.dropWhile_cons_of_neg (by simp)]
  simp

/-- The parts, joined again. -/
theorem append_of_splitOnce {c : Char} {s a b : String} (h : splitOnce c s = some (a, b)) :
    s = a ++ String.singleton c ++ b := by
  unfold splitOnce at h
  split at h
  · next hmem =>
    obtain ⟨rfl, rfl⟩ := Prod.mk.inj (Option.some.inj h)
    -- what is left at the first `c` starts with it
    have hdrop : s.toList.dropWhile (· ≠ c) = c :: (s.toList.dropWhile (· ≠ c)).drop 1 := by
      cases hd : s.toList.dropWhile (· ≠ c) with
      | nil =>
        have hall := List.dropWhile_eq_nil_iff.mp hd c hmem
        simp at hall
      | cons x xs =>
        have hne : s.toList.dropWhile (· ≠ c) ≠ [] := by
          rw [hd]
          exact List.cons_ne_nil x xs
        have hx := List.head_dropWhile_not (· ≠ c) hne
        simp only [hd, List.head_cons, decide_eq_false_iff_not, not_not] at hx
        rw [hx]
        rfl
    have hall : s.toList.takeWhile (· ≠ c) ++ s.toList.dropWhile (· ≠ c) = s.toList :=
      List.takeWhile_append_dropWhile
    rw [hdrop] at hall
    refine String.toList_inj.mp ?_
    rw [String.toList_append, String.toList_append, String.toList_ofList, String.toList_ofList,
      String.toList_singleton, List.append_assoc]
    exact hall.symm
  · cases h

theorem splitOnce_append {a : String} (ha : ':' ∉ a.toList) (b : String) :
    splitOnce ':' (a ++ ":" ++ b) = some (a, b) :=
  splitOnce_of_notMem ha b

theorem Value.wf_no_fields : (Value.object []).wf = true := rfl

/-- A stored document. `fields` lists the entries of its hash map, so it has no key twice. -/
structure Document where
  id : String
  fields : List (String × Value)
  wf : (Value.object fields).wf = true

namespace Document

/-- Collection name: the part of the id before the first `:`. -/
def collection (d : Document) : String := String.ofList (d.id.toList.takeWhile (· ≠ ':'))

theorem colon_notMem_collection (d : Document) : ':' ∉ d.collection.toList := by
  intro h
  rw [collection, String.toList_ofList] at h
  have hc := List.mem_takeWhile_imp h
  simp at hc

/-- Key: the part of the id after the first `:`, or the whole id. -/
def key (d : Document) : String :=
  match splitOnce ':' d.id with
  | some (_, k) => k
  | none => d.id

/-- The key as it is stored (`doc.key().as_bytes()`). -/
def keyBytes (d : Document) : Bytes := utf8 d.key

theorem wf_of_lookup (d : Document) {k : String} {v : Value} (h : d.fields.lookup k = some v) :
    v.wf = true := by
  have hwf := d.wf
  simp only [Value.wf, Bool.and_eq_true, Value.wfEntries_iff] at hwf
  exact hwf.2 (k, v) (Value.mem_of_lookup h)

end Document

end StellarDb
