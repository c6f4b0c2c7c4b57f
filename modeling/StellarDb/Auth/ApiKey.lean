import StellarDb.Edges.Store

/-!
# StellarDb — API keys (`auth/api_key.rs`)

A key is `stl_<lookup id>_<secret>`, both parts in hexadecimal; a key of the old format has no
lookup id. Only the hash of the secret is stored.
-/

namespace StellarDb

open Keyspaces

/-! ## Hexadecimal -/

def hexDigit (n : Nat) : Char := if n < 10 then Char.ofNat (48 + n) else Char.ofNat (87 + n)

/-- `hex::encode` -/
def hexEncode (bytes : Bytes) : String :=
  String.ofList (bytes.flatMap fun b => [hexDigit (b.toNat / 16), hexDigit (b.toNat % 16)])

def hexValue (c : Char) : Option Nat :=
  if '0' ≤ c && c ≤ '9' then some (c.toNat - 48)
  else if 'a' ≤ c && c ≤ 'f' then some (c.toNat - 87)
  else if 'A' ≤ c && c ≤ 'F' then some (c.toNat - 55)
  else none

/-- `is_ascii_hexdigit` -/
def isHexDigit (c : Char) : Bool := (hexValue c).isSome

def hexDecodeChars : List Char → Option Bytes
  | [] => some []
  | [_] => none
  | a :: b :: cs =>
    match hexValue a, hexValue b, hexDecodeChars cs with
    | some x, some y, some bytes => some (UInt8.ofNat (16 * x + y) :: bytes)
    | _, _, _ => none

/-- `hex::decode`; an error carries nothing that is used. -/
def hexDecode (s : String) : Option Bytes := hexDecodeChars s.toList

theorem hexValue_hexDigit {n : Nat} (h : n < 16) : hexValue (hexDigit n) = some n := by
  interval_cases n <;> decide

theorem hexDecode_hexEncode (bytes : Bytes) : hexDecode (hexEncode bytes) = some bytes := by
  unfold hexDecode hexEncode
  rw [String.toList_ofList]
  induction bytes with
  | nil => rfl
  | cons b bytes ih =>
    have hb := b.toNat_lt
    rw [List.flatMap_cons, List.cons_append, List.cons_append, List.nil_append, hexDecodeChars,
      hexValue_hexDigit (by omega), hexValue_hexDigit (by omega), ih]
    have hbyte : 16 * (b.toNat / 16) + b.toNat % 16 = b.toNat := by omega
    simp only [hbyte, UInt8.ofNat_toNat]

theorem isHexDigit_of_mem_hexEncode {bytes : Bytes} {c : Char} (h : c ∈ (hexEncode bytes).toList) :
    isHexDigit c = true := by
  unfold hexEncode at h
  rw [String.toList_ofList, List.mem_flatMap] at h
  obtain ⟨b, -, hc⟩ := h
  have hb := b.toNat_lt
  unfold isHexDigit
  simp only [List.mem_cons, List.not_mem_nil, or_false] at hc
  rcases hc with rfl | rfl
  · rw [hexValue_hexDigit (by omega)]
    rfl
  · rw [hexValue_hexDigit (by omega)]
    rfl

theorem val_of_isHexDigit {c : Char} (h : isHexDigit c = true) : c.val ≤ 0x7f := by
  unfold isHexDigit hexValue at h
  have hle : ∀ d : Char, d.val ≤ 0x7f → c ≤ d → c.val ≤ 0x7f := fun d hd hcd =>
    UInt32.le_trans hcd hd
  split at h
  · next hc => exact hle '9' (by decide) (decide_eq_true_iff.mp (Bool.and_eq_true .. ▸ hc).2)
  · split at h
    · next hc => exact hle 'f' (by decide) (decide_eq_true_iff.mp (Bool.and_eq_true .. ▸ hc).2)
    · split at h
      · next hc => exact hle 'F' (by decide) (decide_eq_true_iff.mp (Bool.and_eq_true .. ▸ hc).2)
      · cases h

/-- Hexadecimal text has a byte for each digit. -/
theorem length_utf8_hexEncode (bytes : Bytes) : (utf8 (hexEncode bytes)).length = 2 * bytes.length := by
  have hlength : ∀ cs : List Char, (∀ c ∈ cs, isHexDigit c = true) →
      (cs.flatMap String.utf8EncodeChar).length = cs.length := by
    intro cs hcs
    induction cs with
    | nil => rfl
    | cons c cs ih =>
      obtain ⟨hc, hcs⟩ := List.forall_mem_cons.mp hcs
      have hone : (String.utf8EncodeChar c).length = 1 := by
        have hval := UInt32.le_iff_toNat_le.mp (val_of_isHexDigit hc)
        unfold String.utf8EncodeChar
        rw [if_pos (by simpa using hval)]
        rfl
      rw [List.flatMap_cons, List.length_append, hone, ih hcs, List.length_cons, Nat.add_comm]
  rw [utf8_eq_flatMap, hlength _ fun c hc => isHexDigit_of_mem_hexEncode hc]
  unfold hexEncode
  rw [String.toList_ofList]
  induction bytes with
  | nil => rfl
  | cons b bytes ih =>
    rw [List.flatMap_cons, List.length_append, ih, List.length_cons]
    simp only [List.length_cons, List.length_nil]
    omega

/-! ## Libraries -/

/-- What a token says (`auth/jwt.rs`). -/
structure Claims where
  sub : String
  exp : Nat
  iat : Nat
  attrs : List (String × String)
  userIdentity : Option String
  tokenVersion : Option Nat
  deriving DecidableEq

/-- The libraries behind passwords, keys and tokens, with the service's settings for tokens. -/
class Crypto where
  jwtTtlSecs : Nat
  /-- `Argon2::hash_password` with a salt -/
  hashPassword : String → String → Except String String
  verifyPassword : String → String → Bool
  sha256 : Bytes → Bytes
  /-- `jsonwebtoken::encode` with the service's secret -/
  encodeJwt : Claims → Except String String
  /-- `jsonwebtoken::decode` with the service's secret, at a time -/
  decodeJwt : Nat → String → Except String Claims

/-- What the service relies on. -/
class Crypto.Lawful [Crypto] : Prop where
  sha256_injective : Function.Injective sha256
  /-- An issued token is accepted until it expires. -/
  decode_encode : ∀ {claims : Claims} {token : String} {now : Nat},
    encodeJwt claims = .ok token → now ≤ claims.exp → decodeJwt now token = .ok claims
  /-- A token starts with a JSON header in base64. -/
  not_apiKey : ∀ {claims : Claims} {token : String},
    encodeJwt claims = .ok token → stripPrefix "stl_" token = none

/-! ## Keys -/

inductive ParsedApiKey where
  | direct (lookupId secret : String)
  | legacy
  deriving DecidableEq

/-- The random bytes of a key. -/
structure ApiKeyBytes where
  lookupId : Bytes
  secret : Bytes
  lookupId_length : lookupId.length = 16
  secret_length : secret.length = 32

namespace ApiKeyBytes

/-- `generate_api_key` -/
def generateApiKey (key : ApiKeyBytes) : String :=
  "stl_" ++ hexEncode key.lookupId ++ "_" ++ hexEncode key.secret

end ApiKeyBytes

def isApiKey (token : String) : Bool := (stripPrefix "stl_" token).isSome

def parseApiKey (token : String) : Option ParsedApiKey :=
  match stripPrefix "stl_" token with
  | none => none
  | some payload =>
    match splitOnce '_' payload with
    | some (lookupId, secret) =>
      if (utf8 lookupId).length ≠ 32 || (utf8 secret).length ≠ 64 ||
          !lookupId.toList.all isHexDigit || !secret.toList.all isHexDigit then none
      else (hexDecode lookupId).map fun bytes => .direct (hexEncode bytes) secret
    | none =>
      if (utf8 payload).length = 64 && payload.toList.all isHexDigit then some .legacy else none

theorem stripPrefix_append (p s : String) : stripPrefix p (p ++ s) = some s := by
  unfold stripPrefix
  rw [String.toList_append, if_pos (List.isPrefixOf_iff_prefix.mpr (List.prefix_append _ _)),
    List.drop_left, String.ofList_toList]

theorem eq_of_stripPrefix {p s t : String} (h : stripPrefix p s = some t) : s = p ++ t := by
  unfold stripPrefix at h
  split at h
  · next hfront =>
    obtain ⟨rest, hrest⟩ := List.isPrefixOf_iff_prefix.mp hfront
    rw [← hrest, List.drop_left] at h
    rw [← Option.some.inj h]
    apply String.toList_inj.mp
    rw [String.toList_append, String.toList_ofList, hrest]
  · cases h

/-- A generated key is read back as its two parts. -/
theorem ApiKeyBytes.parse_generate (key : ApiKeyBytes) : parseApiKey key.generateApiKey =
    some (.direct (hexEncode key.lookupId) (hexEncode key.secret)) := by
  have hstrip : stripPrefix "stl_" key.generateApiKey =
      some (hexEncode key.lookupId ++ "_" ++ hexEncode key.secret) := by
    have h := stripPrefix_append "stl_" (hexEncode key.lookupId ++ "_" ++ hexEncode key.secret)
    rwa [← String.append_assoc, ← String.append_assoc] at h
  have hsplit : splitOnce '_' (hexEncode key.lookupId ++ "_" ++ hexEncode key.secret) =
      some (hexEncode key.lookupId, hexEncode key.secret) := by
    refine splitOnce_of_notMem (fun h => ?_) _
    have hhex := isHexDigit_of_mem_hexEncode h
    revert hhex
    decide
  have hall : ∀ bytes, (hexEncode bytes).toList.all isHexDigit = true := fun bytes =>
    List.all_eq_true.mpr fun c hc => isHexDigit_of_mem_hexEncode hc
  unfold parseApiKey
  rw [hstrip]
  simp only [hsplit, length_utf8_hexEncode, key.lookupId_length, key.secret_length, hall,
    hexDecode_hexEncode]
  rfl

theorem utf8_append (s t : String) : utf8 (s ++ t) = utf8 s ++ utf8 t := by
  rw [utf8_eq_flatMap, utf8_eq_flatMap, utf8_eq_flatMap, String.toList_append, List.flatMap_append]

/-- A key of the old format is longer than a secret. -/
theorem length_of_legacy {token : String} (h : parseApiKey token = some .legacy) :
    (utf8 token).length ≠ 32 := by
  unfold parseApiKey at h
  split at h
  · cases h
  · next payload hstrip =>
    obtain rfl := eq_of_stripPrefix hstrip
    split at h
    · split at h
      · cases h
      · obtain ⟨_, -, hdirect⟩ := Option.map_eq_some_iff.mp h
        cases hdirect
    · split at h
      · next hpayload =>
        have hlength := of_decide_eq_true (Bool.and_eq_true .. ▸ hpayload).1
        rw [utf8_append, List.length_append, hlength]
        omega
      · cases h

section Secrets

variable [Crypto]

/-- `constant_time_hash_eq` -/
def hashEq (expected : Bytes) (storedHex : String) : Bool := hexDecode storedHex = some expected

def hashSecret (secret : String) : Option String :=
  match hexDecode secret with
  | none => none
  | some bytes => if bytes.length ≠ 32 then none else some (hexEncode (Crypto.sha256 bytes))

def verifySecret (secret storedHash : String) : Bool :=
  match (hashSecret secret).bind hexDecode with
  | none => false
  | some expected => hashEq expected storedHash

/-- The lookup id a key of the old format gets. -/
def legacyLookupId (key : String) : String := hexEncode ((Crypto.sha256 (utf8 key)).take 16)

def hashLegacySecret (key : String) : String := hexEncode (Crypto.sha256 (utf8 key))

def verifyLegacySecret (key storedHash : String) : Bool :=
  hashEq (Crypto.sha256 (utf8 key)) storedHash

theorem hashSecret_generated (key : ApiKeyBytes) :
    hashSecret (hexEncode key.secret) = some (hexEncode (Crypto.sha256 key.secret)) := by
  unfold hashSecret
  rw [hexDecode_hexEncode]
  exact if_neg (not_not.mpr key.secret_length)

theorem verifySecret_generated (key : ApiKeyBytes) (storedHash : String) :
    verifySecret (hexEncode key.secret) storedHash = true ↔
      hexDecode storedHash = some (Crypto.sha256 key.secret) := by
  unfold verifySecret
  rw [hashSecret_generated, Option.bind_some, hexDecode_hexEncode]
  exact decide_eq_true_iff

/-- A hash that a generated key matches is matched by no key of the old format. -/
theorem not_verifyLegacySecret [Crypto.Lawful] {key : ApiKeyBytes} {storedHash token : String}
    (h : hexDecode storedHash = some (Crypto.sha256 key.secret))
    (hparse : parseApiKey token = some .legacy) : verifyLegacySecret token storedHash = false := by
  refine Bool.eq_false_iff.mpr fun hverify => ?_
  have heq := of_decide_eq_true hverify
  rw [h] at heq
  have hsecret : key.secret = utf8 token := Crypto.Lawful.sha256_injective (Option.some.inj heq)
  -- a legacy key is longer than a secret
  have hlength := congrArg List.length hsecret
  rw [key.secret_length] at hlength
  exact absurd hlength.symm (length_of_legacy hparse)

end Secrets

section Legacy

variable [External]

/-- `hash_legacy_key`: big-endian. -/
def hashLegacyKey (key : String) : String := hexEncode (External.xxh3_128 (utf8 key)).reverse

def verifyLegacyLookupHash (key storedHash : String) : Bool :=
  hashEq (External.xxh3_128 (utf8 key)).reverse storedHash

end Legacy

end StellarDb
