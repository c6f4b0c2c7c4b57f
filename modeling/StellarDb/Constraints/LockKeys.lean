import StellarDb.Constraints.Unique
import StellarDb.Edges.Keys
import StellarDb.Encoding.Order
import StellarDb.Lib.Joined

/-!
# StellarDb — what a unique lock stands for

`compute_unique_lock_key` hashes the joined field names, a zero byte and `encode_value_for_hash`
of the value. Two locks are the same bytes before the hash exactly when the names are the same
and the values are, up to what the encoding does not tell apart: a reference and the string of
its text, and the order of a map's entries (`uniqueLockData_inj`).

Strings end in a zero byte and may hold one, so the encoding is not prefix-free; what keeps the
parts of a container apart is their lengths. The induction is over the value, and every part is
cut off by `lenPrefixed_append_inj`.
-/

namespace StellarDb

open Keyspaces

/-! ## Blocks with their lengths -/

theorem leBytes_inj {n x y : Nat} (hx : x < 256 ^ n) (hy : y < 256 ^ n)
    (h : leBytes n x = leBytes n y) : x = y := by
  have hread := congrArg ofLeBytes h
  rwa [ofLeBytes_leBytes, ofLeBytes_leBytes, Nat.mod_eq_of_lt hx, Nat.mod_eq_of_lt hy] at hread

/-- Parts of one length are cut off alike. -/
theorem u32Le_append_inj {m n : Nat} {x y : Bytes} (hm : m < 2 ^ 32) (hn : n < 2 ^ 32)
    (h : u32Le m ++ x = u32Le n ++ y) : m = n ∧ x = y := by
  have hlength : (u32Le m).length = (u32Le n).length := by
    unfold u32Le
    rw [leBytes_length, leBytes_length]
  obtain ⟨hword, hrest⟩ := List.append_inj h hlength
  exact ⟨leBytes_inj (by omega) (by omega) hword, hrest⟩

theorem lenPrefixed_append_inj {a b x y : Bytes} (ha : a.length < 2 ^ 32) (hb : b.length < 2 ^ 32)
    (h : lenPrefixed a ++ x = lenPrefixed b ++ y) : a = b ∧ x = y := by
  unfold lenPrefixed at h
  rw [List.append_assoc, List.append_assoc] at h
  obtain ⟨hlength, hrest⟩ := u32Le_append_inj ha hb h
  exact List.append_inj hrest hlength

/-- The blocks of two lists that are laid out alike are the same. -/
theorem flatMap_lenPrefixed_inj {as bs : List Bytes} {x y : Bytes}
    (ha : ∀ a ∈ as, a.length < 2 ^ 32) (hb : ∀ b ∈ bs, b.length < 2 ^ 32)
    (hlength : as.length = bs.length)
    (h : as.flatMap lenPrefixed ++ x = bs.flatMap lenPrefixed ++ y) : as = bs ∧ x = y := by
  induction as generalizing bs with
  | nil =>
    obtain rfl := List.length_eq_zero_iff.mp hlength.symm
    exact ⟨rfl, h⟩
  | cons a as ih =>
    cases bs with
    | nil => cases hlength
    | cons b bs =>
      rw [List.flatMap_cons, List.flatMap_cons, List.append_assoc, List.append_assoc] at h
      rw [List.forall_mem_cons] at ha hb
      obtain ⟨rfl, hrest⟩ := lenPrefixed_append_inj ha.1 hb.1 h
      obtain ⟨rfl, hxy⟩ := ih ha.2 hb.2 (Nat.succ.inj hlength) hrest
      exact ⟨rfl, hxy⟩

/-! ## Kinds -/

/-- The kinds the tags tell apart: the numbers are one, and so are strings and references. -/
inductive HashKind where
  | null
  | bool
  | number
  | text
  | array
  | object
  | datetime
  | duration
  | bytes
  | range
deriving DecidableEq

def HashKind.tag : HashKind → UInt8
  | .null => tagNull
  | .bool => tagBool
  | .number => tagNumber
  | .text => tagString
  | .array => tagArray
  | .object => tagObject
  | .datetime => tagDatetime
  | .duration => tagDuration
  | .bytes => tagBytes
  | .range => tagRange

theorem HashKind.tag_inj {a b : HashKind} (h : a.tag = b.tag) : a = b := by
  cases a <;> cases b <;> first | rfl | exact absurd h (by decide)

namespace Value

def hashKind : Value → HashKind
  | .null => .null
  | .bool _ => .bool
  | .int _ | .float _ | .decimal _ => .number
  | .string _ | .reference _ => .text
  | .array _ => .array
  | .object _ => .object
  | .datetime _ => .datetime
  | .duration _ => .duration
  | .bytes _ => .bytes
  | .range _ _ => .range

end Value

section Locks

variable [External]

theorem head_encodeValueForHash (v : Value) :
    (encodeValueForHash v).head? = some v.hashKind.tag := by
  cases v <;> rfl

theorem hashKind_of_encode {v w : Value} (h : encodeValueForHash v = encodeValueForHash w) :
    v.hashKind = w.hashKind := by
  have hhead := congrArg List.head? h
  rw [head_encodeValueForHash, head_encodeValueForHash] at hhead
  exact HashKind.tag_inj (Option.some.inj hhead)

/-! ## Values -/

namespace Value

mutual

/-- No float and no decimal in it. -/
def FloatFree : Value → Prop
  | .float _ | .decimal _ => False
  | .array elems => FloatFreeElems elems
  | .object entries => FloatFreeEntries entries
  | .range start stop => start.FloatFree ∧ stop.FloatFree
  | _ => True

def FloatFreeElems : List Value → Prop
  | [] => True
  | v :: vs => v.FloatFree ∧ FloatFreeElems vs

def FloatFreeEntries : List (String × Value) → Prop
  | [] => True
  | (_, v) :: es => v.FloatFree ∧ FloatFreeEntries es

end

mutual

/-- Every length the encoding writes is below `2 ^ 32`. -/
def LengthsFit : Value → Prop
  | .array elems => elems.length < 2 ^ 32 ∧ LengthsFitElems elems
  | .object entries => entries.length < 2 ^ 32 ∧ LengthsFitEntries entries
  | .bytes b => b.length < 2 ^ 32
  | .range start stop =>
    ((encodeValueForHash start).length < 2 ^ 32 ∧ start.LengthsFit) ∧
      (encodeValueForHash stop).length < 2 ^ 32 ∧ stop.LengthsFit
  | _ => True

def LengthsFitElems : List Value → Prop
  | [] => True
  | v :: vs =>
    ((encodeValueForHash v).length < 2 ^ 32 ∧ v.LengthsFit) ∧ LengthsFitElems vs

def LengthsFitEntries : List (String × Value) → Prop
  | [] => True
  | (k, v) :: es =>
    ((utf8 k).length < 2 ^ 32 ∧ (encodeValueForHash v).length < 2 ^ 32 ∧ v.LengthsFit) ∧
      LengthsFitEntries es

end

mutual

/-- Each reference read as the string of its text. -/
def readText : Value → Value
  | .reference id => .string id
  | .array elems => .array (readTextElems elems)
  | .object entries => .object (readTextEntries entries)
  | .range start stop => .range start.readText stop.readText
  | v => v

def readTextElems : List Value → List Value
  | [] => []
  | v :: vs => v.readText :: readTextElems vs

def readTextEntries : List (String × Value) → List (String × Value)
  | [] => []
  | (k, v) :: es => (k, v.readText) :: readTextEntries es

end

omit [External] in
theorem floatFreeElems_iff {vs : List Value} : FloatFreeElems vs ↔ ∀ v ∈ vs, v.FloatFree := by
  induction vs with
  | nil => exact ⟨fun _ => nofun, fun _ => trivial⟩
  | cons v vs ih => rw [FloatFreeElems, ih, List.forall_mem_cons]

omit [External] in
theorem floatFreeEntries_iff {es : List (String × Value)} :
    FloatFreeEntries es ↔ ∀ e ∈ es, e.2.FloatFree := by
  induction es with
  | nil => exact ⟨fun _ => nofun, fun _ => trivial⟩
  | cons e es ih => rw [FloatFreeEntries, ih, List.forall_mem_cons]

theorem lengthsFitElems_iff {vs : List Value} : LengthsFitElems vs ↔
    ∀ v ∈ vs, (encodeValueForHash v).length < 2 ^ 32 ∧ v.LengthsFit := by
  induction vs with
  | nil => exact ⟨fun _ => nofun, fun _ => trivial⟩
  | cons v vs ih => rw [LengthsFitElems, ih, List.forall_mem_cons]

theorem lengthsFitEntries_iff {es : List (String × Value)} : LengthsFitEntries es ↔
    ∀ e ∈ es, (utf8 e.1).length < 2 ^ 32 ∧ (encodeValueForHash e.2).length < 2 ^ 32 ∧
      e.2.LengthsFit := by
  induction es with
  | nil => exact ⟨fun _ => nofun, fun _ => trivial⟩
  | cons e es ih => rw [LengthsFitEntries, ih, List.forall_mem_cons]

omit [External] in
theorem readTextElems_eq_map (vs : List Value) : readTextElems vs = vs.map readText := by
  induction vs with
  | nil => rfl
  | cons v vs ih => rw [readTextElems, ih, List.map_cons]

omit [External] in
theorem readTextEntries_eq_map (es : List (String × Value)) :
    readTextEntries es = es.map fun e => (e.1, e.2.readText) := by
  induction es with
  | nil => rfl
  | cons e es ih => rw [readTextEntries, ih, List.map_cons]

omit [External] in
theorem lookup_map_readText (es : List (String × Value)) (k : String) :
    (es.map fun e => (e.1, e.2.readText)).lookup k = (es.lookup k).map readText := by
  induction es with
  | nil => rfl
  | cons e es ih =>
    rw [List.map_cons, List.lookup, List.lookup]
    split
    · rfl
    · exact ih

omit [External] in
theorem wf_readText (v : Value) (h : v.wf = true) : v.readText.wf = true := by
  induction v with
  | array elems ih =>
    rw [wf, wfElems_iff] at h
    rw [readText, wf, wfElems_iff, readTextElems_eq_map, List.forall_mem_map]
    exact fun v hv => ih v hv (h v hv)
  | object entries ih =>
    simp only [wf, Bool.and_eq_true, decide_eq_true_eq, wfEntries_iff] at h
    simp only [readText, wf, Bool.and_eq_true, decide_eq_true_eq, wfEntries_iff,
      readTextEntries_eq_map, List.forall_mem_map, List.map_map]
    exact ⟨h.1, fun e he => ih e he (h.2 e he)⟩
  | range start stop ihs iht =>
    simp only [wf, Bool.and_eq_true] at h
    simp only [readText, wf, Bool.and_eq_true]
    exact ⟨ihs h.1, iht h.2⟩
  | _ => exact h

end Value

/-- The encoding does not tell a reference from the string of its text. -/
theorem encode_readText (v : Value) : encodeValueForHash v.readText = encodeValueForHash v := by
  induction v with
  | array elems ih =>
    have helems : encodeElemsForHash (elems.map Value.readText) = encodeElemsForHash elems := by
      induction elems with
      | nil => rfl
      | cons v vs ihs =>
        rw [List.forall_mem_cons] at ih
        rw [List.map_cons, encodeElemsForHash, encodeElemsForHash, ih.1, ihs ih.2]
    rw [Value.readText, Value.readTextElems_eq_map, encodeValueForHash, encodeValueForHash, helems,
      List.length_map]
  | object entries ih =>
    have hentries : encodeEntriesForHash (entries.map fun e => (e.1, e.2.readText)) =
        encodeEntriesForHash entries := by
      rw [encodeEntriesForHash_eq_map, encodeEntriesForHash_eq_map, List.map_map]
      exact List.map_congr_left fun e he => congrArg (Prod.mk e.1) (ih e he)
    rw [Value.readText, Value.readTextEntries_eq_map, encodeValueForHash, encodeValueForHash,
      hentries]
  | range start stop ihs iht =>
    rw [Value.readText, encodeValueForHash, encodeValueForHash, ihs, iht]
  | reference id => rfl
  | _ => rfl

/-! ## Injectivity -/

theorem encodeElemsForHash_eq_flatMap (vs : List Value) :
    encodeElemsForHash vs = (vs.map encodeValueForHash).flatMap lenPrefixed := by
  induction vs with
  | nil => rfl
  | cons v vs ih => rw [encodeElemsForHash, ih, List.map_cons, List.flatMap_cons]

/-- Elements with the same encodings are pairwise equal. -/
theorem beqElems_of_encodings (vs ws : List Value)
    (h : ∀ v ∈ vs, ∀ w ∈ ws, encodeValueForHash v = encodeValueForHash w →
      v.readText.beq w.readText = true)
    (henc : vs.map encodeValueForHash = ws.map encodeValueForHash) :
    Value.beqElems (vs.map Value.readText) (ws.map Value.readText) = true := by
  induction vs generalizing ws with
  | nil =>
    obtain rfl := List.map_eq_nil_iff.mp henc.symm
    rfl
  | cons v vs ih =>
    cases ws with
    | nil => cases henc
    | cons w ws =>
      rw [List.map_cons, List.map_cons, List.cons.injEq] at henc
      rw [List.map_cons, List.map_cons, Value.beqElems, Bool.and_eq_true]
      refine ⟨h v (List.mem_cons_self ..) w (List.mem_cons_self ..) henc.1, ih ws ?_ henc.2⟩
      exact fun v hv w hw => h v (List.mem_cons_of_mem _ hv) w (List.mem_cons_of_mem _ hw)

omit [External] in
/-- The entries of an object are cut off by the lengths of their two parts. -/
theorem flatMap_entries_inj {ps qs : List (String × Bytes)}
    (hp : ∀ p ∈ ps, (utf8 p.1).length < 2 ^ 32 ∧ p.2.length < 2 ^ 32)
    (hq : ∀ q ∈ qs, (utf8 q.1).length < 2 ^ 32 ∧ q.2.length < 2 ^ 32)
    (hlength : ps.length = qs.length)
    (h : (ps.flatMap fun (k, enc) => lenPrefixed (utf8 k) ++ lenPrefixed enc) =
      qs.flatMap fun (k, enc) => lenPrefixed (utf8 k) ++ lenPrefixed enc) : ps = qs := by
  induction ps generalizing qs with
  | nil => exact (List.length_eq_zero_iff.mp hlength.symm).symm
  | cons p ps ih =>
    cases qs with
    | nil => cases hlength
    | cons q qs =>
      rw [List.flatMap_cons, List.flatMap_cons, List.append_assoc, List.append_assoc] at h
      rw [List.forall_mem_cons] at hp hq
      obtain ⟨hkey, hrest⟩ := lenPrefixed_append_inj hp.1.1 hq.1.1 h
      obtain ⟨henc, hrest⟩ := lenPrefixed_append_inj hp.1.2 hq.1.2 hrest
      rw [ih hp.2 hq.2 (Nat.succ.inj hlength) hrest, Prod.ext (utf8_inj.mp hkey) henc]

/-- Objects with the same encoded entries, in whatever order, are equal maps. -/
theorem beqEntries_of_encodings {fs gs : List (String × Value)}
    (hgs : (gs.map Prod.fst).Nodup)
    (h : ∀ f ∈ fs, ∀ g ∈ gs, encodeValueForHash f.2 = encodeValueForHash g.2 →
      f.2.readText.beq g.2.readText = true)
    (hperm : (encodeEntriesForHash fs).Perm (encodeEntriesForHash gs)) :
    (Value.readText (.object fs)).beq (Value.readText (.object gs)) = true := by
  rw [encodeEntriesForHash_eq_map, encodeEntriesForHash_eq_map] at hperm
  simp only [Value.readText, Value.beq, Value.readTextEntries_eq_map, Bool.and_eq_true,
    beq_iff_eq, List.length_map]
  have hlength := hperm.length_eq
  rw [List.length_map, List.length_map] at hlength
  refine ⟨hlength, (Value.beqEntries_iff _ _).mpr ?_⟩
  rw [List.forall_mem_map]
  intro f hf
  -- the entry of the other map with the same key and encoding
  have hmem := hperm.mem_iff.mp (List.mem_map_of_mem hf)
  obtain ⟨g, hg, hgf⟩ := List.mem_map.mp hmem
  obtain ⟨hkey, henc⟩ := Prod.mk.inj hgf
  refine ⟨g.2.readText, ?_, h f hf g hg henc.symm⟩
  show (gs.map fun e => (e.1, e.2.readText)).lookup f.1 = _
  rw [Value.lookup_map_readText, ← hkey, Value.lookup_of_mem hgs hg]
  rfl

omit [External] in
theorem int64_encode_inj {a b : Int64}
    (h : encodeI64FixedWidth a.toInt = encodeI64FixedWidth b.toInt) : a = b := by
  have hbound : ∀ x : Int64, x.toInt.natAbs < 10 ^ 20 := by
    intro x
    have hle := x.le_toInt
    have hlt := x.toInt_lt
    omega
  have hcompare := compare_encodeI64FixedWidth (hbound a) (hbound b)
  have hself : compare (encodeI64FixedWidth b.toInt) (encodeI64FixedWidth b.toInt) = .eq :=
    Std.ReflCmp.compare_self
  rw [h, hself] at hcompare
  exact Int64.toInt_inj.mp (compare_eq_iff_eq.mp hcompare.symm)

/-- Values of the covered kinds that are encoded alike are equal, references read as text. -/
theorem beq_of_encode (v : Value) : ∀ w, v.wf = true → w.wf = true → v.FloatFree → w.FloatFree →
    v.LengthsFit → w.LengthsFit → encodeValueForHash v = encodeValueForHash w →
    v.readText.beq w.readText = true := by
  induction v with
  | null =>
    intro w _ _ _ _ _ _ h
    have hkind := hashKind_of_encode h
    cases w with
    | null => rfl
    | _ => cases hkind
  | bool b =>
    intro w _ _ _ _ _ _ h
    have hkind := hashKind_of_encode h
    cases w with
    | bool c =>
      have hbyte : (if b then 1 else 0 : UInt8) = if c then 1 else 0 := by
        simp only [encodeValueForHash, List.cons.injEq] at h
        exact h.2.1
      cases b <;> cases c <;> first | rfl | exact absurd hbyte (by decide)
    | _ => cases hkind
  | int n =>
    intro w _ _ _ hw _ _ h
    have hkind := hashKind_of_encode h
    cases w with
    | int m =>
      rw [encodeValueForHash, encodeValueForHash, List.cons.injEq] at h
      rw [int64_encode_inj h.2]
      exact beq_self_eq_true m
    | float f => cases hw
    | decimal d => cases hw
    | _ => cases hkind
  | float f => exact fun _ _ _ hv => hv.elim
  | decimal d => exact fun _ _ _ hv => hv.elim
  | string s =>
    intro w _ _ _ _ _ _ h
    have hkind := hashKind_of_encode h
    cases w with
    | string t | reference t =>
      simp only [encodeValueForHash, List.cons_append, List.cons.injEq, List.append_cancel_right_eq,
        utf8_inj] at h
      rw [h.2]
      exact beq_self_eq_true t
    | _ => cases hkind
  | reference s =>
    intro w _ _ _ _ _ _ h
    have hkind := hashKind_of_encode h
    cases w with
    | string t | reference t =>
      simp only [encodeValueForHash, List.cons_append, List.cons.injEq, List.append_cancel_right_eq,
        utf8_inj] at h
      rw [h.2]
      exact beq_self_eq_true t
    | _ => cases hkind
  | array elems ih =>
    intro w hv hw hfv hfw hlv hlw h
    have hkind := hashKind_of_encode h
    cases w with
    | array others =>
      rw [Value.wf, Value.wfElems_iff] at hv hw
      rw [Value.FloatFree, Value.floatFreeElems_iff] at hfv hfw
      rw [Value.LengthsFit, Value.lengthsFitElems_iff] at hlv hlw
      rw [encodeValueForHash, encodeValueForHash, List.cons_append, List.cons_append,
        List.cons.injEq] at h
      obtain ⟨hcount, helems⟩ := u32Le_append_inj hlv.1 hlw.1 h.2
      rw [encodeElemsForHash_eq_flatMap, encodeElemsForHash_eq_flatMap] at helems
      have hsame := (flatMap_lenPrefixed_inj (x := []) (y := [])
        (List.forall_mem_map.mpr fun v hv => (hlv.2 v hv).1)
        (List.forall_mem_map.mpr fun w hw => (hlw.2 w hw).1)
        (by rw [List.length_map, List.length_map, hcount])
        (by rw [List.append_nil, List.append_nil, helems])).1
      rw [Value.readText, Value.readText, Value.beq, Value.readTextElems_eq_map,
        Value.readTextElems_eq_map]
      refine beqElems_of_encodings elems others (fun v hve w hwe henc => ?_) hsame
      exact ih v hve w (hv v hve) (hw w hwe) (hfv v hve) (hfw w hwe) (hlv.2 v hve).2
        (hlw.2 w hwe).2 henc
    | _ => cases hkind
  | object entries ih =>
    intro w hv hw hfv hfw hlv hlw h
    have hkind := hashKind_of_encode h
    cases w with
    | object others =>
      simp only [Value.wf, Bool.and_eq_true, decide_eq_true_eq, Value.wfEntries_iff] at hv hw
      rw [Value.FloatFree, Value.floatFreeEntries_iff] at hfv hfw
      rw [Value.LengthsFit, Value.lengthsFitEntries_iff] at hlv hlw
      simp only [encodeValueForHash, List.cons_append, List.cons.injEq, List.length_insertionSort,
        true_and] at h
      have hlength : ∀ es : List (String × Value), (encodeEntriesForHash es).length = es.length :=
        fun es => by rw [encodeEntriesForHash_eq_map, List.length_map]
      rw [hlength, hlength] at h
      obtain ⟨hcount, hpairs⟩ := u32Le_append_inj hlv.1 hlw.1 h
      -- the sorted entries are the same, so the entries are up to their order
      have hfit : ∀ es : List (String × Value),
          (∀ e ∈ es, (utf8 e.1).length < 2 ^ 32 ∧ (encodeValueForHash e.2).length < 2 ^ 32 ∧
            e.2.LengthsFit) →
          ∀ p ∈ (encodeEntriesForHash es).insertionSort (fun a b => a.1 ≤ b.1),
            (utf8 p.1).length < 2 ^ 32 ∧ p.2.length < 2 ^ 32 := by
        intro es hes p hp
        rw [List.mem_insertionSort, encodeEntriesForHash_eq_map] at hp
        obtain ⟨e, he, hep⟩ := List.mem_map.mp hp
        rw [← hep]
        exact ⟨(hes e he).1, (hes e he).2.1⟩
      have hsorted := flatMap_entries_inj (hfit entries hlv.2) (hfit others hlw.2)
        (by rw [List.length_insertionSort, List.length_insertionSort, hlength, hlength, hcount])
        hpairs
      have hperm : (encodeEntriesForHash entries).Perm (encodeEntriesForHash others) :=
        (List.perm_insertionSort _ _).symm.trans
          ((List.Perm.of_eq hsorted).trans (List.perm_insertionSort _ _))
      refine beqEntries_of_encodings hw.1 (fun f hf g hg henc => ?_) hperm
      exact ih f hf g.2 (hv.2 f hf) (hw.2 g hg) (hfv f hf) (hfw g hg) (hlv.2 f hf).2.2
        (hlw.2 g hg).2.2 henc
    | _ => cases hkind
  | datetime ms =>
    intro w _ _ _ _ _ _ h
    have hkind := hashKind_of_encode h
    cases w with
    | datetime ms' =>
      rw [encodeValueForHash, encodeValueForHash, List.cons.injEq] at h
      have hword := leBytes_inj (by omega) (by omega) h.2
      have hint : ms.toInt = ms'.toInt := by
        have hle := ms.le_toInt
        have hlt := ms.toInt_lt
        have hle' := ms'.le_toInt
        have hlt' := ms'.toInt_lt
        omega
      rw [Int64.toInt_inj.mp hint]
      exact beq_self_eq_true ms'
    | _ => cases hkind
  | duration ns =>
    intro w _ _ _ _ _ _ h
    have hkind := hashKind_of_encode h
    cases w with
    | duration ns' =>
      rw [encodeValueForHash, encodeValueForHash, List.cons.injEq] at h
      have hword := leBytes_inj ns.toNat_lt ns'.toNat_lt h.2
      rw [UInt64.toNat_inj.mp hword]
      exact beq_self_eq_true ns'
    | _ => cases hkind
  | bytes b =>
    intro w _ _ _ _ hlv hlw h
    have hkind := hashKind_of_encode h
    cases w with
    | bytes c =>
      rw [encodeValueForHash, encodeValueForHash, List.cons_append, List.cons_append,
        List.cons.injEq] at h
      rw [(u32Le_append_inj hlv hlw h.2).2]
      exact beq_self_eq_true c
    | _ => cases hkind
  | range start stop ihs iht =>
    intro w hv hw hfv hfw hlv hlw h
    have hkind := hashKind_of_encode h
    cases w with
    | range start' stop' =>
      simp only [Value.wf, Bool.and_eq_true] at hv hw
      rw [encodeValueForHash, encodeValueForHash, List.cons_append, List.cons_append,
        List.cons.injEq] at h
      obtain ⟨hstart, hrest⟩ := lenPrefixed_append_inj hlv.1.1 hlw.1.1 h.2
      rw [← List.append_nil (lenPrefixed (encodeValueForHash stop)),
        ← List.append_nil (lenPrefixed (encodeValueForHash stop'))] at hrest
      obtain ⟨hstop, -⟩ := lenPrefixed_append_inj hlv.2.1 hlw.2.1 hrest
      rw [Value.readText, Value.readText, Value.beq, Bool.and_eq_true]
      exact ⟨ihs start' hv.1 hw.1 hfv.1 hfw.1 hlv.1.2 hlw.1.2 hstart,
        iht stop' hv.2 hw.2 hfv.2 hfw.2 hlv.2.2 hlw.2.2 hstop⟩
    | _ => cases hkind

/-! ## Locks -/

omit [External] in
theorem nulFree_joinFields {fields : List String} (h : ∀ f ∈ fields, NulFree f) :
    NulFree (joinFields fields) := by
  have hcomma : (",".toList : List Char) = [','] := rfl
  rw [nulFree_iff, joinFields, String.toList_intercalate, hcomma,
    Joined.mem_intercalate (by decide)]
  intro ⟨part, hpart, hzero⟩
  obtain ⟨f, hf, rfl⟩ := List.mem_map.mp hpart
  exact nulFree_iff.mp (h f hf) hzero

/-- The bytes `compute_unique_lock_key` hashes. -/
def uniqueLockData (fields : String) (value : Value) : Bytes :=
  utf8 fields ++ 0x00 :: encodeValueForHash value

/-- A lock is the hash of bytes that tell names and values apart, but for references and the
order of entries. -/
theorem uniqueLockData_inj {fields fields' : List String} {v w : Value}
    (hfields : ∀ f ∈ fields, NulFree f) (hfields' : ∀ f ∈ fields', NulFree f)
    (hv : v.wf = true) (hw : w.wf = true) (hfv : v.FloatFree) (hfw : w.FloatFree)
    (hlv : v.LengthsFit) (hlw : w.LengthsFit) :
    (computeUniqueLockKey (joinFields fields) v =
        External.xxh3_128 (uniqueLockData (joinFields fields) v) ∧
      computeUniqueLockKey (joinFields fields') w =
        External.xxh3_128 (uniqueLockData (joinFields fields') w)) ∧
    (uniqueLockData (joinFields fields) v = uniqueLockData (joinFields fields') w ↔
      joinFields fields = joinFields fields' ∧ v.readText.beq w.readText = true) := by
  refine ⟨⟨rfl, rfl⟩, ?_⟩
  unfold uniqueLockData
  rw [append_zero_inj (nulFree_joinFields hfields) (nulFree_joinFields hfields'), utf8_inj]
  refine and_congr_right fun _ => ⟨beq_of_encode v w hv hw hfv hfw hlv hlw, fun h => ?_⟩
  rw [← encode_readText v, ← encode_readText w]
  exact encodeValueForHash_congr _ _ (v.wf_readText hv) (w.wf_readText hw) h

end Locks

namespace Wardrobe

local instance : External := .standIn

/-- A coat and its owner, by reference and as an object. -/
def coat : Value := .array [.reference "users:ann", .object [("size", .int 4), ("lost", .null)]]

/-- The same with the owner's id as a string and the entries the other way round. -/
def sameCoat : Value := .array [.string "users:ann", .object [("lost", .null), ("size", .int 4)]]

theorem coats_locked_alike :
    uniqueLockData (joinFields ["owner", "tag"]) coat =
      uniqueLockData (joinFields ["owner,tag"]) sameCoat := by
  refine (uniqueLockData_inj ?_ ?_ ?_ ?_ ?_ ?_ ?_ ?_).2.mpr ⟨?_, ?_⟩
  · decide +kernel
  · decide +kernel
  · decide +kernel
  · decide +kernel
  · exact ⟨trivial, ⟨trivial, trivial, trivial⟩, trivial⟩
  · exact ⟨trivial, ⟨trivial, trivial, trivial⟩, trivial⟩
  · refine ⟨by decide, ⟨by decide +kernel, trivial⟩, ⟨by decide +kernel, by decide, ?_⟩, trivial⟩
    exact ⟨⟨by decide +kernel, by decide +kernel, trivial⟩,
      ⟨by decide +kernel, by decide +kernel, trivial⟩, trivial⟩
  · refine ⟨by decide, ⟨by decide +kernel, trivial⟩, ⟨by decide +kernel, by decide, ?_⟩, trivial⟩
    exact ⟨⟨by decide +kernel, by decide +kernel, trivial⟩,
      ⟨by decide +kernel, by decide +kernel, trivial⟩, trivial⟩
  · decide +kernel
  · decide +kernel

end Wardrobe

end StellarDb
