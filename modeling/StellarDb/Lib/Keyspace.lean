import Mathlib

/-!
# Byte-keyed ordered maps

A storage engine keyspace is an ordered map from byte strings to values. The map itself
is `Std.ExtTreeMap` over the bytewise order, whose extensionality makes two keyspaces with
the same entries equal; this module adds what a client of a keyspace needs on top of it:

* point reads after an insert or an erase, phrased with `=` on keys (`getElem?_insert_eq`,
  `getElem?_erase_eq`);
* buffers of writes, to one keyspace (`Keyspace.applyWrites`) or to a named family of them
  (`applyNamed`);
* half-open range scans (`Keyspace.range`) and their membership (`mem_range`), and scans of
  the keys that pass a test (`Keyspace.keysWhere`);
* the scan of `[p ++ [0], p ++ [1])`, which yields exactly the keys with prefix `p ++ [0]`
  (`inRange_sep_iff`);
* zero-separated keys, which determine their parts (`append_zero_inj`);
* UTF-8 bytes of a string, its lossy inverse, and little-endian words.

Nothing here names a particular database.
-/

namespace Keyspaces

abbrev Bytes := List UInt8

/-- An ordered byte-keyed map. -/
abbrev Keyspace (V : Type) := Std.ExtTreeMap Bytes V compare

/-! ## Point reads -/

variable {V : Type}

theorem getElem?_insert_eq (ks : Keyspace V) (k a : Bytes) (v : V) :
    (ks.insert k v)[a]? = if k = a then some v else ks[a]? := by
  simp [Std.ExtTreeMap.getElem?_insert]

theorem getElem?_erase_eq (ks : Keyspace V) (k a : Bytes) :
    (ks.erase k)[a]? = if k = a then none else ks[a]? := by
  simp [Std.ExtTreeMap.getElem?_erase]

/-! ## Buffered writes -/

/-- A buffered write: the value to store, or `none` to remove the key. -/
abbrev Write (V : Type) := Bytes × Option V

namespace Keyspace

def write (ks : Keyspace V) (w : Write V) : Keyspace V :=
  match w.2 with
  | some v => ks.insert w.1 v
  | none => ks.erase w.1

/-- Apply a buffer of writes, oldest first. -/
def applyWrites (ks : Keyspace V) (ws : List (Write V)) : Keyspace V := ws.foldl write ks

theorem getElem?_write (ks : Keyspace V) (w : Write V) (k : Bytes) :
    (ks.write w)[k]? = if w.1 = k then w.2 else ks[k]? := by
  obtain ⟨a, v⟩ := w
  cases v with
  | none => exact getElem?_erase_eq ks a k
  | some v => exact getElem?_insert_eq ks a k v

@[simp] theorem applyWrites_nil (ks : Keyspace V) : ks.applyWrites [] = ks := rfl

@[simp] theorem applyWrites_cons (ks : Keyspace V) (w : Write V) (ws : List (Write V)) :
    ks.applyWrites (w :: ws) = (ks.write w).applyWrites ws := rfl

theorem applyWrites_append (ks : Keyspace V) (ws ws' : List (Write V)) :
    ks.applyWrites (ws ++ ws') = (ks.applyWrites ws).applyWrites ws' :=
  List.foldl_append ..

theorem getElem?_applyWrites_of_untouched {ws : List (Write V)} {k : Bytes}
    (h : ∀ w ∈ ws, w.1 ≠ k) (ks : Keyspace V) : (ks.applyWrites ws)[k]? = ks[k]? := by
  induction ws generalizing ks with
  | nil => rfl
  | cons w ws ih =>
    rw [List.forall_mem_cons] at h
    rw [applyWrites_cons, ih h.2, getElem?_write, if_neg h.1]

/-- Of a buffer that writes no key twice, every write is there. -/
theorem getElem?_applyWrites_of_mem {ws : List (Write V)} (hnodup : (ws.map Prod.fst).Nodup)
    {w : Write V} (hmem : w ∈ ws) (ks : Keyspace V) : (ks.applyWrites ws)[w.1]? = w.2 := by
  induction ws generalizing ks with
  | nil => cases hmem
  | cons w' ws ih =>
    rw [List.map_cons, List.nodup_cons] at hnodup
    rw [applyWrites_cons]
    rcases List.mem_cons.mp hmem with rfl | hmem
    · rw [getElem?_applyWrites_of_untouched, getElem?_write, if_pos rfl]
      intro w' hw' hk
      exact hnodup.1 (List.mem_map.mpr ⟨w', hw', hk⟩)
    · exact ih hnodup.2 hmem _

/-- A key to which the buffer writes one thing only has it. -/
theorem getElem?_applyWrites_of_same {ws : List (Write V)} {k : Bytes} {o : Option V}
    (hmem : (k, o) ∈ ws) (hall : ∀ w ∈ ws, w.1 = k → w.2 = o) (ks : Keyspace V) :
    (ks.applyWrites ws)[k]? = o := by
  induction ws generalizing ks with
  | nil => cases hmem
  | cons w ws ih =>
    rw [List.forall_mem_cons] at hall
    rw [applyWrites_cons]
    by_cases htail : (k, o) ∈ ws
    · exact ih htail hall.2 _
    · -- the head is the write, and nothing behind it touches the key
      have hw : w = (k, o) := (List.mem_cons.mp hmem).resolve_right htail |>.symm
      have hun : ∀ w' ∈ ws, w'.1 ≠ k := by
        intro w' hw' hk
        have hsame := hall.2 w' hw' hk
        exact htail (by rw [← hk, ← hsame]; exact hw')
      rw [getElem?_applyWrites_of_untouched hun, getElem?_write, hw, if_pos rfl]

end Keyspace

/-- Apply writes to a family of named keyspaces. -/
def applyNamed (kss : String → Keyspace V) (ws : List (String × Write V)) :
    String → Keyspace V :=
  ws.foldl (fun kss w => Function.update kss w.1 ((kss w.1).write w.2)) kss

/-- The writes to one keyspace, in order. -/
def writesTo (n : String) (ws : List (String × Write V)) : List (Write V) :=
  ws.filterMap fun w => if w.1 = n then some w.2 else none

theorem applyNamed_apply (kss : String → Keyspace V) (ws : List (String × Write V))
    (n : String) : applyNamed kss ws n = (kss n).applyWrites (writesTo n ws) := by
  induction ws generalizing kss with
  | nil => rfl
  | cons w ws ih =>
    show applyNamed (Function.update kss w.1 ((kss w.1).write w.2)) ws n = _
    rw [ih, writesTo, writesTo, List.filterMap_cons]
    by_cases hn : w.1 = n
    · subst hn
      simp
    · rw [if_neg hn, Function.update_of_ne (Ne.symm hn)]

theorem mem_writesTo {n : String} {ws : List (String × Write V)} {w : Write V} :
    w ∈ writesTo n ws ↔ (n, w) ∈ ws := by
  unfold writesTo
  rw [List.mem_filterMap]
  constructor
  · rintro ⟨⟨n', w'⟩, hmem, hw⟩
    split at hw
    · next hn => rwa [← hn, ← Option.some.inj hw]
    · cases hw
  · intro hmem
    exact ⟨(n, w), hmem, if_pos rfl⟩

/-- Removals change nothing exactly if none of their keys is there. -/
theorem applyNamed_eq_self_iff {kss : String → Keyspace V} {ws : List (String × Write V)}
    (hnone : ∀ n w, (n, w) ∈ ws → w.2 = none) :
    applyNamed kss ws = kss ↔ ∀ n w, (n, w) ∈ ws → (kss n)[w.1]? = none := by
  have hremoved : ∀ n w, (n, w) ∈ ws → (applyNamed kss ws n)[w.1]? = none := by
    intro n w hw
    rw [applyNamed_apply]
    apply Keyspace.getElem?_applyWrites_of_same
    · rw [mem_writesTo, ← hnone n w hw]
      exact hw
    · intro w' hw' _
      exact hnone n w' (mem_writesTo.mp hw')
  constructor
  · intro h n w hw
    rw [← h]
    exact hremoved n w hw
  · intro h
    funext n
    apply Std.ExtTreeMap.ext_getElem?
    intro k
    by_cases hk : ∃ w, (n, w) ∈ ws ∧ w.1 = k
    · obtain ⟨w, hw, rfl⟩ := hk
      rw [hremoved n w hw, h n w hw]
    · rw [applyNamed_apply]
      apply Keyspace.getElem?_applyWrites_of_untouched
      intro w hw hwk
      exact hk ⟨w, mem_writesTo.mp hw, hwk⟩

theorem applyNamed_append (kss : String → Keyspace V) (ws ws' : List (String × Write V)) :
    applyNamed kss (ws ++ ws') = applyNamed (applyNamed kss ws) ws' :=
  List.foldl_append ..

/-! ## Zero-separated keys -/

/-- The part before the first separator is determined. -/
theorem append_zero_inj {a b x y : Bytes} (ha : (0 : UInt8) ∉ a) (hb : (0 : UInt8) ∉ b) :
    a ++ 0 :: x = b ++ 0 :: y ↔ a = b ∧ x = y := by
  induction a generalizing b with
  | nil =>
    cases b with
    | nil => simp
    | cons c b =>
      have hc : (0 : UInt8) ≠ c := fun h => hb (by rw [h]; exact List.mem_cons_self ..)
      simp [hc]
  | cons c a ih =>
    cases b with
    | nil =>
      have hc : c ≠ 0 := fun h => ha (by rw [h]; exact List.mem_cons_self ..)
      simp [hc]
    | cons d b =>
      rw [List.mem_cons, not_or] at ha hb
      rw [List.cons_append, List.cons_append, List.cons.injEq, ih ha.2 hb.2, List.cons.injEq,
        and_assoc]

theorem splitOn_zero_append {a : Bytes} (ha : (0 : UInt8) ∉ a) (x : Bytes) :
    (a ++ 0 :: x).splitOn 0 = a :: x.splitOn 0 := by
  rw [List.splitOn_append_cons_self, List.splitOn_eq_singleton ha]
  rfl

theorem takeWhile_zero_append {a : Bytes} (ha : (0 : UInt8) ∉ a) (x : Bytes) :
    (a ++ 0 :: x).takeWhile (· ≠ 0) = a := by
  have hall : ∀ b ∈ a, decide (b ≠ 0) = true := by
    intro b hb
    have : b ≠ 0 := by rintro rfl; exact ha hb
    simpa using this
  rw [List.takeWhile_append_of_pos hall]
  simp

theorem dropWhile_zero_append {a : Bytes} (ha : (0 : UInt8) ∉ a) (x : Bytes) :
    (a ++ 0 :: x).dropWhile (· ≠ 0) = 0 :: x := by
  have hall : ∀ b ∈ a, decide (b ≠ 0) = true := by
    intro b hb
    have : b ≠ 0 := by rintro rfl; exact ha hb
    simpa using this
  rw [List.dropWhile_append_of_pos hall]
  simp

/-! ## Range scans -/

/-- `lo ≤ k < hi` in the bytewise order. -/
def inRange (lo hi k : Bytes) : Bool :=
  (compare lo k).isLE && (compare k hi).isLT

/-- The entries with `lo ≤ key < hi`, in key order. -/
def Keyspace.range (ks : Keyspace V) (lo hi : Bytes) : List (Bytes × V) :=
  ks.toList.filter fun e => inRange lo hi e.1

theorem mem_range {ks : Keyspace V} {lo hi : Bytes} {e : Bytes × V} :
    e ∈ Keyspace.range ks lo hi ↔ ks[e.1]? = some e.2 ∧ inRange lo hi e.1 = true := by
  unfold Keyspace.range
  rw [List.mem_filter]
  obtain ⟨k, v⟩ := e
  rw [Std.ExtTreeMap.mem_toList_iff_getElem?_eq_some]

theorem range_ordered (ks : Keyspace V) (lo hi : Bytes) :
    ((Keyspace.range ks lo hi).map Prod.fst).Pairwise fun a b => compare a b = .lt :=
  List.pairwise_map.mpr (Std.ExtTreeMap.ordered_keys_toList.filter _)

/-- A scan meets each key at most once. -/
theorem range_keys_nodup (ks : Keyspace V) (lo hi : Bytes) :
    ((Keyspace.range ks lo hi).map Prod.fst).Nodup := by
  refine (range_ordered ks lo hi).imp fun {a b} hab heq => ?_
  have hself : compare b b = .eq := Std.ReflCmp.compare_self
  rw [heq, hself] at hab
  cases hab

/-- The keys that pass a test, in key order. -/
def Keyspace.keysWhere (ks : Keyspace V) (test : Bytes → Bool) : List Bytes :=
  ks.keys.filter test

theorem mem_keysWhere {ks : Keyspace V} {test : Bytes → Bool} {k : Bytes} :
    k ∈ Keyspace.keysWhere ks test ↔ ks[k]?.isSome = true ∧ test k = true := by
  unfold Keyspace.keysWhere
  rw [List.mem_filter, Std.ExtTreeMap.mem_keys, Std.ExtTreeMap.mem_iff_isSome_getElem?]

theorem keysWhere_ordered (ks : Keyspace V) (test : Bytes → Bool) :
    (Keyspace.keysWhere ks test).Pairwise fun a b => compare a b = .lt :=
  Std.ExtTreeMap.ordered_keys.filter _

theorem keysWhere_nodup (ks : Keyspace V) (test : Bytes → Bool) :
    (Keyspace.keysWhere ks test).Nodup := by
  refine (keysWhere_ordered ks test).imp fun {a b} hab heq => ?_
  have hself : compare b b = .eq := Std.ReflCmp.compare_self
  rw [heq, hself] at hab
  cases hab

/-- Only `0` lies strictly below `1` among the bytes; every other byte is at least `1`. -/
theorem compare_one_isGE {b : UInt8} (hb : b ≠ 0) : (compare b 1).isGE = true := by
  have hb0 : b.toNat ≠ 0 := fun h => hb (UInt8.toNat_inj.mp (by simpa using h))
  have hlt : ¬ b < 1 := by
    rw [UInt8.lt_iff_toNat_lt]
    simp
    omega
  simp only [compare, compareOfLessAndEq, hlt, if_false]
  split <;> rfl

/-- The separator range: `[p ++ [0], p ++ [1])` holds exactly the keys that extend
`p ++ [0]`. Induction on `p`; at the end of `p` the next byte is squeezed to `0`. -/
theorem inRange_sep_iff (p k : Bytes) :
    inRange (p ++ [0]) (p ++ [1]) k = true ↔ (p ++ [0]) <+: k := by
  induction p generalizing k with
  | nil =>
    cases k with
    | nil => decide
    | cons b bs =>
      simp only [inRange, List.nil_append, List.compare_cons_cons, List.cons_prefix_cons,
        List.nil_prefix, and_true, Bool.and_eq_true]
      constructor
      · rintro ⟨-, h1⟩
        by_contra hb
        -- a first byte other than `0` is at least `1`, so the key is not below `[1]`
        have hge := compare_one_isGE (fun h => hb h.symm)
        revert hge h1
        cases compare b 1 <;> cases bs <;> simp [List.compare_cons_nil]
      · rintro rfl
        have h01 : compare (0 : UInt8) 1 = .lt := by decide
        cases bs <;> simp [h01, List.compare_nil_cons]
  | cons a p ih =>
    cases k with
    | nil => simp [inRange, List.compare_cons_nil]
    | cons b bs =>
      have hih := ih bs
      simp only [inRange, Bool.and_eq_true] at hih
      simp only [inRange, List.cons_append, List.compare_cons_cons, List.cons_prefix_cons,
        Bool.and_eq_true]
      rw [@Std.OrientedCmp.eq_swap UInt8 compare _ b a]
      cases hab : compare a b with
      | lt =>
        have hne : a ≠ b := by rintro rfl; simp at hab
        simp [hne]
      | eq =>
        have heq : a = b := by simpa using hab
        simpa [heq] using hih
      | gt =>
        have hne : a ≠ b := by rintro rfl; simp at hab
        simp [hne]

/-! ## Text as bytes -/

/-- The UTF-8 bytes of a string (`str::as_bytes`). -/
def utf8 (s : String) : Bytes := s.toByteArray.data.toList

theorem utf8_injective : Function.Injective utf8 := by
  intro s t h
  apply String.toByteArray_inj.mp
  exact ByteArray.ext (Array.toList_inj.mp h)

@[simp] theorem utf8_inj {s t : String} : utf8 s = utf8 t ↔ s = t := utf8_injective.eq_iff

theorem utf8_eq_flatMap (s : String) : utf8 s = s.toList.flatMap String.utf8EncodeChar := by
  rw [utf8, ← String.utf8Encode_toList, List.utf8Encode]
  simp

theorem ofNat_ne_ff {n : Nat} (h : n < 255) : (0xFF : UInt8) ≠ UInt8.ofNat n := by
  intro heq
  have hnat : (0xFF : UInt8).toNat = (UInt8.ofNat n).toNat := congrArg UInt8.toNat heq
  have hlow : (UInt8.ofNat n).toNat = n % 256 := UInt8.toNat_ofNat'
  have h255 : (0xFF : UInt8).toNat = 255 := rfl
  omega

/-- No byte of a UTF-8 encoded character is `0xFF`: lead bytes stop at `0xF7` and
continuation bytes at `0xBF`. -/
theorem ff_notMem_utf8EncodeChar (c : Char) : (0xFF : UInt8) ∉ String.utf8EncodeChar c := by
  intro hmem
  unfold String.utf8EncodeChar at hmem
  simp only at hmem
  split at hmem
  · simp only [List.mem_cons, List.not_mem_nil, or_false] at hmem
    exact ofNat_ne_ff (by omega) hmem
  · split at hmem
    · simp only [List.mem_cons, List.not_mem_nil, or_false] at hmem
      rcases hmem with h | h <;> exact ofNat_ne_ff (by omega) h
    · split at hmem
      · simp only [List.mem_cons, List.not_mem_nil, or_false] at hmem
        rcases hmem with h | h | h <;> exact ofNat_ne_ff (by omega) h
      · simp only [List.mem_cons, List.not_mem_nil, or_false] at hmem
        rcases hmem with h | h | h | h <;> exact ofNat_ne_ff (by omega) h

theorem ff_notMem_utf8 (s : String) : (0xFF : UInt8) ∉ utf8 s := by
  rw [utf8_eq_flatMap, List.mem_flatMap]
  rintro ⟨c, -, hc⟩
  exact ff_notMem_utf8EncodeChar c hc

/-- The characters `String::from_utf8_lossy` reads from ill-formed bytes: a well-formed
sequence gives its character, a maximal ill-formed subpart gives `U+FFFD`. -/
def lossyChars : Bytes → List Char
  | [] => []
  | b0 :: rest =>
    let bad := Char.ofNat 0xFFFD
    let cont (b : UInt8) : Bool := 0x80 ≤ b && b ≤ 0xBF
    let low6 (b : UInt8) : Nat := b.toNat % 64
    if b0 < 0x80 then Char.ofNat b0.toNat :: lossyChars rest
    else if 0xC2 ≤ b0 && b0 ≤ 0xDF then
      match rest with
      | b1 :: r1 =>
        if cont b1 then Char.ofNat (b0.toNat % 32 * 64 + low6 b1) :: lossyChars r1
        else bad :: lossyChars (b1 :: r1)
      | [] => [bad]
    else if 0xE0 ≤ b0 && b0 ≤ 0xEF then
      match rest with
      | b1 :: r1 =>
        let lo : UInt8 := if b0 = 0xE0 then 0xA0 else 0x80
        let hi : UInt8 := if b0 = 0xED then 0x9F else 0xBF
        if lo ≤ b1 && b1 ≤ hi then
          match r1 with
          | b2 :: r2 =>
            if cont b2 then
              Char.ofNat (b0.toNat % 16 * 4096 + low6 b1 * 64 + low6 b2) :: lossyChars r2
            else bad :: lossyChars (b2 :: r2)
          | [] => [bad]
        else bad :: lossyChars (b1 :: r1)
      | [] => [bad]
    else if 0xF0 ≤ b0 && b0 ≤ 0xF4 then
      match rest with
      | b1 :: r1 =>
        let lo : UInt8 := if b0 = 0xF0 then 0x90 else 0x80
        let hi : UInt8 := if b0 = 0xF4 then 0x8F else 0xBF
        if lo ≤ b1 && b1 ≤ hi then
          match r1 with
          | b2 :: r2 =>
            if cont b2 then
              match r2 with
              | b3 :: r3 =>
                if cont b3 then
                  Char.ofNat (b0.toNat % 8 * 262144 + low6 b1 * 4096 + low6 b2 * 64 + low6 b3)
                    :: lossyChars r3
                else bad :: lossyChars (b3 :: r3)
              | [] => [bad]
            else bad :: lossyChars (b2 :: r2)
          | [] => [bad]
        else bad :: lossyChars (b1 :: r1)
      | [] => [bad]
    else bad :: lossyChars rest

/-- `String::from_utf8_lossy`: the string itself on well-formed bytes. -/
def fromUtf8Lossy (b : Bytes) : String :=
  match String.fromUTF8? ⟨b.toArray⟩ with
  | some s => s
  | none => String.ofList (lossyChars b)

@[simp] theorem fromUtf8Lossy_utf8 (s : String) : fromUtf8Lossy (utf8 s) = s := by
  have harr : (⟨(utf8 s).toArray⟩ : ByteArray) = s.toByteArray := by
    simp [utf8]
  have hvalid : String.fromUTF8? s.toByteArray = some s := by
    rw [String.fromUTF8?, dif_pos s.isValidUTF8]
    rfl
  unfold fromUtf8Lossy
  rw [harr, hvalid]

/-- `str::from_utf8`: `none` on ill-formed bytes. -/
def fromUtf8 (b : Bytes) : Option String := String.fromUTF8? ⟨b.toArray⟩

@[simp] theorem fromUtf8_utf8 (s : String) : fromUtf8 (utf8 s) = some s := by
  have harr : (⟨(utf8 s).toArray⟩ : ByteArray) = s.toByteArray := by
    simp [utf8]
  unfold fromUtf8
  rw [harr, String.fromUTF8?, dif_pos s.isValidUTF8]
  rfl

/-! ## Little-endian words -/

/-- The `n` low bytes of `x`, least significant first. -/
def leBytes : Nat → Nat → Bytes
  | 0, _ => []
  | n + 1, x => UInt8.ofNat x :: leBytes n (x / 256)

/-- The number `leBytes` wrote. -/
def ofLeBytes : Bytes → Nat
  | [] => 0
  | b :: bs => b.toNat + 256 * ofLeBytes bs

@[simp] theorem leBytes_length (n x : Nat) : (leBytes n x).length = n := by
  induction n generalizing x with
  | zero => rfl
  | succ n ih => simp [leBytes, ih]

theorem ofLeBytes_leBytes (n x : Nat) : ofLeBytes (leBytes n x) = x % 256 ^ n := by
  induction n generalizing x with
  | zero => simp [leBytes, ofLeBytes, Nat.mod_one]
  | succ n ih =>
    have hlow : (UInt8.ofNat x).toNat = x % 256 := UInt8.toNat_ofNat'
    rw [leBytes, ofLeBytes, ih, hlow, pow_succ', Nat.mod_mul]

end Keyspaces
