import StellarDb.Value

/-!
# StellarDb — key encodings (`storage/encoding.rs`)

Byte layouts of the keys and of the hashed unique values:

* numbers: sixteen bytes, sign, exponent and packed decimal digits, so that byte order is
  numeric order (`encodeI64FixedWidth`, `encodeF64FixedWidth`, `encodeNumberFixedWidth`);
* index keys: `[value₁]…[0xFF][doc_key]` over `encodeValueOrdered`;
* hashed unique values: `encodeValueForHash`, which also descends into arrays and objects;
* edge keys: `0x01 | from | 0x00 | to [| 0x00 | id]` and its three siblings.

`encodeValueForHash_congr`: values that compare equal hash equally. The converse fails, and
that gap (`Int 1` against `Float 1.0`) is what the lock table stumbles over.
-/

namespace StellarDb

open Keyspaces

/-! ## Code outside the repository -/

/-- What `decimal_bytes::Decimal` answers about a parsed number. -/
structure DecimalBytes where
  bytes : Bytes
  isNan : Bool
  isPosInfinity : Bool
  isNegInfinity : Bool
  isZero : Bool

/-- The third-party functions the encodings call. -/
class External where
  /-- `xxh3_128(data).to_le_bytes()` -/
  xxh3_128 : Bytes → Bytes
  /-- `Decimal::to_string` of `rust_decimal` -/
  decimalToString : Decimal → String
  /-- `DecimalBytes::from_str` -/
  decimalBytesFromStr : String → Option DecimalBytes

/-- A stand-in with an injective hash, for runs on values without decimals. -/
@[reducible] def External.standIn : External where
  xxh3_128 := id
  decimalToString _ := ""
  decimalBytesFromStr _ := none

/-! ## Numbers -/

def numericFixedWidth : Nat := 16

def numericSignNegative : UInt8 := 0x00
def numericSignZero : UInt8 := 0x80
def numericSignPositive : UInt8 := 0xFF

def numericNegInfinity : Bytes := List.replicate 16 0x00
def numericPosInfinity : Bytes := List.replicate 15 0xFF ++ [0xFE]
def numericNan : Bytes := List.replicate 16 0xFF

/-- Sign byte of zero, then fifteen zero bytes. -/
def numericZero : Bytes := numericSignZero :: List.replicate 15 0

/-- Cut or fill `bs` to the fixed width with `pad`. -/
def padTo (pad : UInt8) (bs : Bytes) : Bytes :=
  bs.take numericFixedWidth ++ List.replicate (numericFixedWidth - bs.length) pad

def encodeNumberFixedWidth [External] (value : String) : Bytes :=
  match External.decimalBytesFromStr value <|> External.decimalBytesFromStr "0" with
  | none => numericZero
  | some dec =>
    if dec.isNan then numericNan
    else if dec.isPosInfinity then numericPosInfinity
    else if dec.isNegInfinity then numericNegInfinity
    else if dec.isZero then numericZero
    else
      let sign := dec.bytes.headD 0
      let exp := if 3 ≤ dec.bytes.length then (dec.bytes.drop 1).take 2 else [0, 0]
      let mantissa := (dec.bytes.drop 3).take 13
      padTo (if sign = numericSignNegative then 0xFF else 0x00) (sign :: exp ++ mantissa)

/-- Count decimal digits in a `u64`. -/
def countDigitsU64 (n : Nat) : Nat :=
  (((List.range 19).map (· + 1)).find? fun d => n < 10 ^ d).getD 20

/-- Two decimal digits per byte, high digit first, a missing last digit read as zero. -/
def packBcd (digits : List Nat) : Bytes :=
  (List.range ((digits.length + 1) / 2)).map fun i =>
    UInt8.ofNat (digits.getD (2 * i) 0 * 16 + digits.getD (2 * i + 1) 0)

/-- The `digitCount` decimal digits of `n`, most significant first, packed in pairs. -/
def intToBcd (n digitCount : Nat) : Bytes :=
  packBcd ((List.range digitCount).map fun i => n / 10 ^ (digitCount - 1 - i) % 10)

/-- Sign, exponent and mantissa laid out in sixteen bytes; every byte after the sign is
complemented for negative numbers. -/
def signExpMantissa (negative : Bool) (expHigh expLow : UInt8) (mantissa : Bytes) : Bytes :=
  if negative then
    padTo 0xFF (numericSignNegative :: (0xFF - expHigh) :: (0xFF - expLow) ::
      mantissa.map (0xFF - ·))
  else
    padTo 0x00 (numericSignPositive :: expHigh :: expLow :: mantissa)

def encodeI64FixedWidth (n : Int) : Bytes :=
  if n = 0 then numericZero
  else
    let absN := n.natAbs
    let digitCount := countDigitsU64 absN
    signExpMantissa (n < 0) 0x40 (UInt8.ofNat digitCount) (intToBcd absN digitCount)

/-- The variables of the scanning loop of `encode_float_string`. -/
structure FloatScan where
  digits : List Nat := []
  decimalPos : Int := 0
  foundDecimal : Bool := false
  inExponent : Bool := false
  expNegative : Bool := false
  exponent : Int := 0
  leadingZerosAfterDecimal : Int := 0
  foundSignificant : Bool := false

/-- One character of the scanning loop. -/
def FloatScan.step (st : FloatScan) (c : Char) : FloatScan :=
  if c.isDigit then
    let digit := c.toNat - '0'.toNat
    if st.inExponent then { st with exponent := st.exponent * 10 + digit }
    else if digit = 0 && !st.foundSignificant && st.foundDecimal then
      { st with leadingZerosAfterDecimal := st.leadingZerosAfterDecimal + 1 }
    else if digit ≠ 0 || st.foundSignificant then
      { st with
        foundSignificant := true
        digits := st.digits ++ [digit]
        decimalPos := if st.foundDecimal then st.decimalPos else st.decimalPos + 1 }
    else st
  else if c = '.' then { st with foundDecimal := true }
  else if c = 'e' || c = 'E' then { st with inExponent := true }
  else if c = '-' && st.inExponent then { st with expNegative := true }
  else st

def encodeFloatString (s : String) (isNegative : Bool) : Bytes :=
  let st := s.toList.foldl FloatScan.step {}
  let exponent := if st.expNegative then -st.exponent else st.exponent
  let decimalPos := st.decimalPos + exponent
  if !st.foundSignificant || st.digits.isEmpty then numericZero
  else
    let decimalPos :=
      if decimalPos ≤ 0 then decimalPos - st.leadingZerosAfterDecimal else decimalPos
    let expValue := ((0x4000 + decimalPos) % 2 ^ 16).toNat
    signExpMantissa isNegative (UInt8.ofNat (expValue / 256)) (UInt8.ofNat (expValue % 256))
      ((packBcd st.digits).take 13)

def encodeF64FixedWidth (f : F64) : Bytes :=
  if f.isNan then numericNan
  else if f.isInfinite && !f.isNegative then numericPosInfinity
  else if f.isInfinite && f.isNegative then numericNegInfinity
  else if f.isZero then numericZero
  else if f.isIntegral && f.truncAbs ≤ 2 ^ 63 then
    -- `abs_f as i64` saturates at `i64::MAX`
    let n : Int := min f.truncAbs (2 ^ 63 - 1)
    encodeI64FixedWidth (if f.isNegative then -n else n)
  else encodeFloatString f.absToString f.isNegative

/-! ## Value encodings -/

def tagNull : UInt8 := 0x00
def tagBool : UInt8 := 0x01
def tagNumber : UInt8 := 0x02
def tagString : UInt8 := 0x04
def tagArray : UInt8 := 0x05
def tagObject : UInt8 := 0x06
def tagDatetime : UInt8 := 0x07
def tagDuration : UInt8 := 0x08
def tagBytes : UInt8 := 0x09
def tagRange : UInt8 := 0x0A

/-- `(n as u32).to_le_bytes()` -/
def u32Le (n : Nat) : Bytes := leBytes 4 n

/-- `(n as u32).to_be_bytes()` -/
def u32Be (n : Nat) : Bytes := (leBytes 4 n).reverse

/-- Zero bytes escaped as `00 FF`, the whole terminated by `00 00`. -/
def escapeNul (b : Bytes) : Bytes :=
  b.flatMap (fun x => if x = 0 then [0x00, 0xFF] else [x]) ++ [0x00, 0x00]

/-- Encode a value for ordered byte comparison in secondary indexes. -/
def encodeValueOrdered [External] : Value → Bytes
  | .null => [tagNull]
  | .bool b => [tagBool, if b then 1 else 0]
  | .int n => tagNumber :: encodeI64FixedWidth n.toInt
  | .float f => tagNumber :: encodeF64FixedWidth f
  | .decimal d => tagNumber :: encodeNumberFixedWidth (External.decimalToString d)
  | .string s => tagString :: escapeNul (utf8 s)
  | .array _ | .object _ => [0xFF]
  | .reference id => tagString :: escapeNul (utf8 id)
  | .datetime ms =>
    tagDatetime :: (leBytes 8 (ms.toInt + 2 ^ 63).toNat).reverse
  | .duration ns => tagDuration :: (leBytes 8 ns.toNat).reverse
  | .bytes b => tagBytes :: u32Be b.length ++ b
  | .range start stop =>
    let s := encodeValueOrdered start
    tagRange :: u32Be s.length ++ s ++ encodeValueOrdered stop

/-- A length-prefixed block. -/
def lenPrefixed (b : Bytes) : Bytes := u32Le b.length ++ b

mutual

/-- Encode a value for unique constraint hashing. Numbers of all three kinds share one
encoding, so that `100`, `100.0` and `100dec` hash alike. -/
def encodeValueForHash [External] : Value → Bytes
  | .null => [tagNull]
  | .bool b => [tagBool, if b then 1 else 0]
  | .int n => tagNumber :: encodeI64FixedWidth n.toInt
  | .float f => tagNumber :: encodeF64FixedWidth f
  | .decimal d => tagNumber :: encodeNumberFixedWidth (External.decimalToString d)
  | .string s => tagString :: utf8 s ++ [0x00]
  | .array elems => tagArray :: u32Le elems.length ++ encodeElemsForHash elems
  | .object entries =>
    -- keys are sorted for a deterministic encoding
    let pairs := (encodeEntriesForHash entries).insertionSort fun a b => a.1 ≤ b.1
    tagObject :: u32Le pairs.length ++
      pairs.flatMap fun (k, enc) => lenPrefixed (utf8 k) ++ lenPrefixed enc
  | .reference id => tagString :: utf8 id ++ [0x00]
  | .datetime ms => tagDatetime :: leBytes 8 (ms.toInt % 2 ^ 64).toNat
  | .duration ns => tagDuration :: leBytes 8 ns.toNat
  | .bytes b => tagBytes :: u32Le b.length ++ b
  | .range start stop =>
    tagRange :: lenPrefixed (encodeValueForHash start) ++ lenPrefixed (encodeValueForHash stop)

def encodeElemsForHash [External] : List Value → Bytes
  | [] => []
  | v :: vs => lenPrefixed (encodeValueForHash v) ++ encodeElemsForHash vs

def encodeEntriesForHash [External] : List (String × Value) → List (String × Bytes)
  | [] => []
  | (k, v) :: es => (k, encodeValueForHash v) :: encodeEntriesForHash es

end

/-! ## Values that compare equal hash equally -/

theorem encodeF64FixedWidth_congr {f g : F64} (h : f.eq g = true) :
    encodeF64FixedWidth f = encodeF64FixedWidth g := by
  simp only [F64.eq, Bool.and_eq_true, Bool.or_eq_true, decide_eq_true_eq] at h
  obtain ⟨-, rfl | ⟨hf, hg⟩⟩ := h
  · rfl
  · -- both are zeros, of either sign: neither the NaN nor the infinity branch applies
    have key : ∀ x : F64, x.isZero = true → encodeF64FixedWidth x = numericZero := by
      intro x hx
      have hexp : x.expBits = 0 := by
        simp only [F64.isZero, Bool.and_eq_true, decide_eq_true_eq] at hx
        exact hx.1
      have hnan : x.isNan = false := by simp [F64.isNan, hexp]
      have hinf : x.isInfinite = false := by simp [F64.isInfinite, hexp]
      unfold encodeF64FixedWidth
      simp [hnan, hinf, hx]
    rw [key f hf, key g hg]

section Congr

variable [External]

theorem encodeEntriesForHash_eq_map (es : List (String × Value)) :
    encodeEntriesForHash es = es.map fun e => (e.1, encodeValueForHash e.2) := by
  induction es with
  | nil => rfl
  | cons e es ih =>
    obtain ⟨k, v⟩ := e
    rw [encodeEntriesForHash, ih, List.map_cons]

theorem encodeElemsForHash_congr (vs ws : List Value)
    (h : ∀ v ∈ vs, ∀ w, v.wf = true → w.wf = true → v.beq w = true →
      encodeValueForHash v = encodeValueForHash w)
    (hvs : Value.wfElems vs = true) (hws : Value.wfElems ws = true)
    (hb : Value.beqElems vs ws = true) :
    vs.length = ws.length ∧ encodeElemsForHash vs = encodeElemsForHash ws := by
  induction vs generalizing ws with
  | nil => cases ws <;> simp_all [Value.beqElems]
  | cons v vs ih =>
    cases ws with
    | nil => simp [Value.beqElems] at hb
    | cons w ws =>
      simp only [Value.beqElems, Value.wfElems, Bool.and_eq_true, List.forall_mem_cons] at *
      obtain ⟨hlen, henc⟩ := ih ws h.2 hvs.2 hws.2 hb.2
      refine ⟨by simp [hlen], ?_⟩
      rw [encodeElemsForHash, encodeElemsForHash, h.1 w hvs.1 hws.1 hb.1, henc]

omit [External] in
/-- Sorting by distinct keys forgets the iteration order. -/
theorem insertionSort_eq_of_perm {ps qs : List (String × Bytes)} (hperm : ps.Perm qs)
    (hnd : (ps.map Prod.fst).Nodup) :
    ps.insertionSort (fun a b => a.1 ≤ b.1) = qs.insertionSort fun a b => a.1 ≤ b.1 := by
  have htrans : IsTrans (String × Bytes) fun a b => a.1 ≤ b.1 :=
    ⟨fun _ _ _ hab hbc => le_trans hab hbc⟩
  have htotal : Std.Total fun a b : String × Bytes => a.1 ≤ b.1 :=
    ⟨fun a b => le_total a.1 b.1⟩
  refine List.Perm.eq_of_pairwise ?_ (List.pairwise_insertionSort _ _)
    (List.pairwise_insertionSort _ _)
    ((List.perm_insertionSort _ _).trans (hperm.trans (List.perm_insertionSort _ _).symm))
  intro a b ha hb hab hba
  rw [List.mem_insertionSort] at ha hb
  exact List.inj_on_of_nodup_map hnd ha (hperm.mem_iff.mpr hb) (le_antisymm hab hba)

/-- Equal maps give permuted lists of encoded entries. -/
theorem encodeEntriesForHash_perm {fs gs : List (String × Value)}
    (h : ∀ e ∈ fs, ∀ w, e.2.wf = true → w.wf = true → e.2.beq w = true →
      encodeValueForHash e.2 = encodeValueForHash w)
    (hfs : (Value.object fs).wf = true) (hgs : (Value.object gs).wf = true)
    (hlen : fs.length = gs.length) (hb : Value.beqEntries fs gs = true) :
    (encodeEntriesForHash fs).Perm (encodeEntriesForHash gs) := by
  simp only [Value.wf, Bool.and_eq_true, decide_eq_true_eq, Value.wfEntries_iff] at hfs hgs
  rw [encodeEntriesForHash_eq_map, encodeEntriesForHash_eq_map]
  -- both sides are the common key list, each key with the encoding of its value
  have key : ∀ es : List (String × Value), (es.map Prod.fst).Nodup →
      es.map (fun e => (e.1, encodeValueForHash e.2)) =
        (es.map Prod.fst).map fun k => (k, encodeValueForHash ((es.lookup k).getD .null)) := by
    intro es hnd
    rw [List.map_map]
    refine List.map_congr_left fun e he => ?_
    simp [Value.lookup_of_mem hnd he]
  have hperm := Value.keys_perm_of_beqEntries hfs.1 hlen hb
  rw [key fs hfs.1, key gs hgs.1]
  refine List.Perm.trans (List.Perm.of_eq ?_) (hperm.map _)
  refine List.map_congr_left fun k hk => ?_
  obtain ⟨e, he, rfl⟩ := List.mem_map.mp hk
  obtain ⟨w, hw, hbe⟩ := (Value.beqEntries_iff fs gs).mp hb e he
  rw [Value.lookup_of_mem hfs.1 he, hw]
  have hww : w.wf = true := hgs.2 (e.1, w) (Value.mem_of_lookup hw)
  exact congrArg (Prod.mk e.1) (h e he w (hfs.2 e he) hww hbe)

theorem encodeValueForHash_congr (v : Value) :
    ∀ w, v.wf = true → w.wf = true → v.beq w = true →
      encodeValueForHash v = encodeValueForHash w := by
  induction v with
  | array elems ih =>
    intro w hv hw hb
    cases w <;> simp only [Value.beq, Value.wf] at * <;> try contradiction
    obtain ⟨hlen, henc⟩ := encodeElemsForHash_congr _ _ ih hv hw hb
    rw [encodeValueForHash, encodeValueForHash, hlen, henc]
  | object entries ih =>
    intro w hv hw hb
    cases w with
    | object gs =>
      simp only [Value.beq, Bool.and_eq_true, beq_iff_eq] at hb
      have hperm := encodeEntriesForHash_perm ih hv hw hb.1 hb.2
      have hnd : ((encodeEntriesForHash entries).map Prod.fst).Nodup := by
        simp only [Value.wf, Bool.and_eq_true, decide_eq_true_eq] at hv
        rw [encodeEntriesForHash_eq_map, List.map_map]
        exact hv.1
      rw [encodeValueForHash, encodeValueForHash, insertionSort_eq_of_perm hperm hnd]
    | _ => simp [Value.beq] at hb
  | range start stop ihs ihe =>
    intro w hv hw hb
    cases w <;> simp only [Value.beq, Value.wf, Bool.and_eq_true] at * <;> try contradiction
    rw [encodeValueForHash, encodeValueForHash, ihs _ hv.1 hw.1 hb.1, ihe _ hv.2 hw.2 hb.2]
  | float f =>
    intro w _ _ hb
    cases w <;> simp only [Value.beq] at * <;> try contradiction
    rw [encodeValueForHash, encodeValueForHash, encodeF64FixedWidth_congr hb]
  | _ =>
    intro w _ _ hb
    cases w <;> simp_all [Value.beq, encodeValueForHash]

end Congr

/-- Complete index key: `[value₁]…[0xFF][doc_key]`. -/
def encodeIndexKey [External] (values : List Value) (docKey : String) : Bytes :=
  values.flatMap encodeValueOrdered ++ 0xFF :: utf8 docKey

/-- Prefix for equality queries. -/
def encodeIndexPrefix [External] (values : List Value) : Bytes := values.flatMap encodeValueOrdered

/-- Increment the last byte that is not `0xFF` and cut behind it. -/
def incrementLast : Bytes → Option Bytes
  | [] => none
  | b :: bs =>
    match incrementLast bs with
    | some bs' => some (b :: bs')
    | none => if b < 0xFF then some [b + 1] else none

/-- The byte-level successor: all keys with the given prefix sort before it. -/
def byteSuccessor (bytes : Bytes) : Bytes := (incrementLast bytes).getD (bytes ++ [0x00])

/-- The part of an index key before the last `0xFF`. -/
def keyValue (key : Bytes) : Option Bytes :=
  if 0xFF ∈ key then some ((key.reverse.dropWhile (· ≠ 0xFF)).drop 1).reverse else none

/-- The document key behind the last `0xFF` of an index key. -/
def extractDocKey (key : Bytes) : Option String :=
  if 0xFF ∈ key then fromUtf8 (key.reverse.takeWhile (· ≠ 0xFF)).reverse else none

/-! ## Edge keys -/

def edgePrefixOut : UInt8 := 0x01
def edgePrefixIn : UInt8 := 0x02
def edgePrefixId : UInt8 := 0x03
def edgePrefixIdx : UInt8 := 0x04

def encodeEdgeOutKeySingle (src dst : String) : Bytes :=
  edgePrefixOut :: utf8 src ++ 0x00 :: utf8 dst

def encodeEdgeOutKeyMulti (src dst edgeId : String) : Bytes :=
  edgePrefixOut :: utf8 src ++ 0x00 :: utf8 dst ++ 0x00 :: utf8 edgeId

def encodeEdgeInKeySingle (dst src : String) : Bytes :=
  edgePrefixIn :: utf8 dst ++ 0x00 :: utf8 src

def encodeEdgeInKeyMulti (dst src edgeId : String) : Bytes :=
  edgePrefixIn :: utf8 dst ++ 0x00 :: utf8 src ++ 0x00 :: utf8 edgeId

def encodeEdgeIdKey (edgeId : String) : Bytes := edgePrefixId :: utf8 edgeId

def encodeEdgeIdValue (src dst : String) : Bytes := utf8 src ++ 0x00 :: utf8 dst

/-- The two endpoints of an id entry, split at the first zero byte. -/
def decodeEdgeIdValue (bytes : Bytes) : Option (String × String) :=
  if 0 ∈ bytes then
    some (fromUtf8Lossy (bytes.takeWhile (· ≠ 0)),
      fromUtf8Lossy ((bytes.dropWhile (· ≠ 0)).drop 1))
  else none

def encodeEdgeOutPrefix (src : String) : Bytes := edgePrefixOut :: utf8 src ++ [0x00]

def encodeEdgeOutPrefixEnd (src : String) : Bytes := edgePrefixOut :: utf8 src ++ [0x01]

def encodeEdgeOutTargetPrefix (src dst : String) : Bytes :=
  edgePrefixOut :: utf8 src ++ 0x00 :: utf8 dst ++ [0x00]

def encodeEdgeOutTargetPrefixEnd (src dst : String) : Bytes :=
  edgePrefixOut :: utf8 src ++ 0x00 :: utf8 dst ++ [0x01]

def encodeEdgeInPrefix (dst : String) : Bytes := edgePrefixIn :: utf8 dst ++ [0x00]

def encodeEdgeInPrefixEnd (dst : String) : Bytes := edgePrefixIn :: utf8 dst ++ [0x01]

def encodeEdgeFieldIndexKey [External] (field : String) (value : Value) (edgeId : String) :
    Bytes :=
  edgePrefixIdx :: utf8 field ++ 0x00 :: encodeValueOrdered value ++ 0x00 :: utf8 edgeId

end StellarDb
