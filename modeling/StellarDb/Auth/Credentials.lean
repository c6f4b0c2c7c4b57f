import StellarDb.Auth.ApiKey
import StellarDb.Auth.Decisions
import StellarDb.Batch.Documents
import StellarDb.Document

/-!
# StellarDb — users, tokens and API keys (`auth/service.rs`)

All is stored as documents of the system database: `users`, `api_keys` (the metadata of a key by
its name), `api_key_lookup` (by the lookup id in the key) and, for keys of the old format,
`api_key_legacy_lookup`. A token names the identity of its user and the version that every change
of the user advances; a key names the identity of its user.

Calls take the user state lock, so each is one step. Random bytes, the time and the answers of
the storage engine are arguments.
-/

namespace StellarDb

open Keyspaces Entries

/-! ## Fields -/

def stringField (doc : Document) (field error : String) : Except String String :=
  match doc.fields.lookup field with
  | some (.string value) => if value = "" then .error error else .ok value
  | _ => .error error

def extractUserIdentity (doc : Document) : Except String String :=
  match doc.fields.lookup "user_identity" with
  | some (.string identity) =>
    if identity = "" then .error "user_identity must not be empty" else .ok identity
  | some _ => .error "user_identity must be a string"
  | none => .error "user_identity is missing"

def extractTokenVersion (doc : Document) : Except String Nat :=
  match doc.fields.lookup "token_version" with
  | none => .ok 0
  | some (.int value) =>
    if 0 ≤ value.toInt then .ok value.toInt.toNat
    else .error "token_version must be a non-negative integer"
  | some _ => .error "token_version must be an integer"

/-- Attributes that are not strings are left out. -/
def extractAttributes (doc : Document) (key : String) : Option String :=
  match doc.fields.lookup "attributes" with
  | some (.object obj) =>
    match obj.lookup key with
    | some (.string s) => some s
    | _ => none
  | _ => none

/-- The random bytes of `generate_user_identity`. -/
structure IdentityBytes where
  bytes : Bytes
  length : bytes.length = 32

def IdentityBytes.generateUserIdentity (identity : IdentityBytes) : String :=
  hexEncode identity.bytes

def ensureUserIdentity (identity : IdentityBytes) (doc : Document) : Document :=
  if (doc.fields.lookup "user_identity").isSome then doc
  else doc.insertField "user_identity" (.string identity.generateUserIdentity) (Value.wf_string _)

/-- The largest `i64`. -/
def maxTokenVersion : Nat := 2 ^ 63 - 1

def bumpTokenVersion (doc : Document) : Except String Document :=
  match extractTokenVersion doc with
  | .error e => .error e
  | .ok version =>
    if version + 1 ≤ maxTokenVersion then
      .ok (doc.insertField "token_version" (.int (Int64.ofNat (version + 1))) (Value.wf_int _))
    else .error "token_version overflow"

/-! ## Users -/

def setAttributes (obj : List (String × Value)) (attrs : List (String × String)) :
    List (String × Value) :=
  attrs.foldl (fun obj a => insertEntry obj a.1 (.string a.2)) obj

def removeAttributes (obj : List (String × Value)) (keys : List String) : List (String × Value) :=
  keys.foldl eraseEntry obj

theorem setAttributes_wf {obj : List (String × Value)} (h : (Value.object obj).wf = true)
    (attrs : List (String × String)) : (Value.object (setAttributes obj attrs)).wf = true := by
  induction attrs generalizing obj with
  | nil => exact h
  | cons a attrs ih => exact ih (Value.wf_insertEntry h a.1 (Value.wf_string _))

theorem removeAttributes_wf {obj : List (String × Value)} (h : (Value.object obj).wf = true)
    (keys : List String) : (Value.object (removeAttributes obj keys)).wf = true := by
  induction keys generalizing obj with
  | nil => exact h
  | cons k keys ih => exact ih (Value.wf_eraseEntry h k)

def userFields (username hash : String) (attributes : List (String × String))
    (identity now : String) : List (String × Value) :=
  [("username", .string username), ("password_hash", .string hash),
    ("attributes", .object (setAttributes [] attributes)), ("user_identity", .string identity),
    ("token_version", .int 0), ("created_at", .string now), ("updated_at", .string now)]

theorem userFields_wf (username hash : String) (attributes : List (String × String))
    (identity now : String) :
    (Value.object (userFields username hash attributes identity now)).wf = true := by
  have hattributes := setAttributes_wf (show (Value.object []).wf = true from rfl) attributes
  refine Value.wf_object_iff.mpr ⟨by simp [userFields], fun e he => ?_⟩
  simp only [userFields, List.mem_cons, List.not_mem_nil, or_false] at he
  rcases he with rfl | rfl | rfl | rfl | rfl | rfl | rfl <;> first | rfl | exact hattributes

def userDocument (username hash : String) (attributes : List (String × String))
    (identity now : String) : Document where
  id := "users:" ++ username
  fields := userFields username hash attributes identity now
  wf := userFields_wf username hash attributes identity now

def hasString (doc : Document) (field value : String) : Bool :=
  match doc.fields.lookup field with
  | some (.string v) => v = value
  | _ => false

/-- The object of the attributes, if they are one. -/
def attributesObject (doc : Document) :
    Option {obj : List (String × Value) // (Value.object obj).wf = true} :=
  match h : doc.fields.lookup "attributes" with
  | some (.object obj) => some ⟨obj, doc.wf_of_lookup h⟩
  | _ => none

/-- A field that is no object is replaced by an empty one. -/
def attributesOf (doc : Document) : {obj : List (String × Value) // (Value.object obj).wf = true} :=
  (attributesObject doc).getD ⟨[], Value.wf_no_fields⟩

/-- What `alter_user_*` changes of a user. -/
inductive UserEdit where
  | attributes (set : List (String × String)) (remove : List String)
  | remove (keys : List String)
  | password (hash : String)

def UserEdit.apply (doc : Document) : UserEdit → Document
  | .attributes set keys =>
    let obj := attributesOf doc
    doc.insertField "attributes" (.object (removeAttributes (setAttributes obj.1 set) keys))
      (removeAttributes_wf (setAttributes_wf obj.2 set) keys)
  | .remove keys =>
    match attributesObject doc with
    | some obj =>
      doc.insertField "attributes" (.object (removeAttributes obj.1 keys))
        (removeAttributes_wf obj.2 keys)
    | none => doc
  | .password hash => doc.insertField "password_hash" (.string hash) (Value.wf_string _)

/-! ## Keys of the old format -/

structure LegacyApiKeyEntry where
  name : String
  username : String
  userIdentity : String
  deriving DecidableEq

namespace LegacyApiKeyEntry

def fromLookupDocument (doc : Document) : Except String LegacyApiKeyEntry := do
  let name ← stringField doc "name" "invalid API key: missing name"
  let username ← stringField doc "username" "invalid API key: missing username"
  let userIdentity ← stringField doc "user_identity" "invalid API key: missing user identity"
  return ⟨name, username, userIdentity⟩

def fromValue (value : Value) : Except String LegacyApiKeyEntry :=
  match value with
  | .object fields =>
    let string (field : String) : Except String String :=
      match fields.lookup field with
      | some (.string value) =>
        if value = "" then .error ("invalid legacy API key index entry: missing " ++ field)
        else .ok value
      | _ => .error ("invalid legacy API key index entry: missing " ++ field)
    do
      let name ← string "name"
      let username ← string "username"
      let userIdentity ← string "user_identity"
      return ⟨name, username, userIdentity⟩
  | _ => .error "invalid legacy API key index entry"

def toValue (entry : LegacyApiKeyEntry) : Value :=
  .object [("name", .string entry.name), ("username", .string entry.username),
    ("user_identity", .string entry.userIdentity)]

def matchesMetadata (entry : LegacyApiKeyEntry) (metadata : Document) : Except String Bool := do
  let name ← stringField metadata "name" "invalid API key: missing name"
  if name ≠ entry.name then return false
  let username ← stringField metadata "username" "invalid API key: missing username"
  if username ≠ entry.username then return false
  let userIdentity ← stringField metadata "user_identity" "invalid API key: missing user identity"
  return userIdentity = entry.userIdentity

end LegacyApiKeyEntry

def legacyIndexEntries (doc : Document) : Except String (List LegacyApiKeyEntry) :=
  match doc.fields.lookup "entries" with
  | some (.array entries) => entries.mapM LegacyApiKeyEntry.fromValue
  | _ => .error "invalid legacy API key index: missing entries"

theorem legacyIndexFields_wf (entries : List LegacyApiKeyEntry) :
    (Value.object [("entries", .array (entries.map LegacyApiKeyEntry.toValue))]).wf = true := by
  refine Value.wf_object_iff.mpr ⟨by simp, ?_⟩
  intro e he
  obtain rfl := List.mem_singleton.mp he
  rw [Value.wf, Value.wfElems_iff]
  intro v hv
  obtain ⟨entry, -, rfl⟩ := List.mem_map.mp hv
  rfl

def legacyIndexDocument (legacyHash : String) (entries : List LegacyApiKeyEntry) : Document where
  id := "api_key_legacy_lookup:" ++ legacyHash
  fields := [("entries", .array (entries.map LegacyApiKeyEntry.toValue))]
  wf := legacyIndexFields_wf entries

def apiKeyLookupDocument (lookupId name username userIdentity secretHash : String) : Document where
  id := "api_key_lookup:" ++ lookupId
  fields := [("name", .string name), ("username", .string username),
    ("secret_hash", .string secretHash), ("user_identity", .string userIdentity)]
  wf := rfl

def apiKeyMetadata (name username lookupId userIdentity now : String) : Document where
  id := "api_keys:" ++ name
  fields := [("name", .string name), ("username", .string username),
    ("lookup_id", .string lookupId), ("user_identity", .string userIdentity),
    ("created_at", .string now)]
  wf := rfl

/-! ## The service -/

/-- A subject with the identity of its session. -/
structure ResolvedSubject where
  subject : Subject
  principalIdentity : String

/-- What the storage engine answers while the keys of a dropped user are deleted. -/
structure CascadeFaults where
  listing : Option StorageError
  batch : Nat → BatchFaults

namespace AuthService

def user (s : AuthService) (username : String) : Option Document :=
  s.systemDb.getDocument "users" (utf8 username)

/-- The metadata of a key. -/
def apiKey (s : AuthService) (name : String) : Option Document :=
  s.systemDb.getDocument "api_keys" (utf8 name)

def apiKeyLookup (s : AuthService) (lookupId : String) : Option Document :=
  s.systemDb.getDocument "api_key_lookup" (utf8 lookupId)

def legacyIndex (s : AuthService) (legacyHash : String) : Option Document :=
  s.systemDb.getDocument "api_key_legacy_lookup" (utf8 legacyHash)

/-- The answer of a call that writes a batch. -/
def writeBatch [External] (f : BatchFaults) (s : AuthService) (operations : List WriteOp) :
    AuthService × Except StorageError Unit :=
  let r := s.systemDb.atomicWriteBatch f operations
  ({ s with systemDb := r.1 }, r.2)

/-! ### Users -/

section Users

variable [External] [Crypto]

def createUser (f : Faults) (s : AuthService) (username salt password : String)
    (attributes : List (String × String)) (identity : IdentityBytes) (now : String) :
    AuthService × Except AuthError Unit :=
  match Crypto.hashPassword salt password with
  | .error e => (s, .error (.internal (.other ("create_user: " ++ e))))
  | .ok hash =>
    match s.systemDb.createDocument f
      (userDocument username hash attributes identity.generateUserIdentity now) with
    | (db, .error e) => ({ s with systemDb := db }, .error (.internal e))
    | (db, .ok false) => ({ s with systemDb := db }, .error (.alreadyExists "user" username))
    | (db, .ok true) => ({ s with systemDb := db }, .ok ())

/-- Load a user, change it and persist it (`persist_managed_user`). -/
def alterUser (f : Faults) (s : AuthService) (username : String) (edit : UserEdit)
    (identity : IdentityBytes) (now : String) : AuthService × Except AuthError Unit :=
  match s.user username with
  | none => (s, .error (.notFound "user" username))
  | some old =>
    let doc := ensureUserIdentity identity (edit.apply old)
    match extractUserIdentity doc, bumpTokenVersion doc with
    | .error e, _ => (s, .error (.internal (.other e)))
    | .ok _, .error e => (s, .error (.internal (.other e)))
    | .ok _, .ok bumped =>
      match s.systemDb.updateDocument f (bumped.insertField "updated_at" (.string now) (Value.wf_string _)) with
      | (db, .error e) => ({ s with systemDb := db }, .error (.internal e))
      | (db, .ok false) =>
        ({ s with systemDb := db },
          .error (.internal (.other ("user '" ++ username ++ "' changed concurrently"))))
      | (db, .ok true) => ({ s with systemDb := db }, .ok ())

def alterUserPassword (f : Faults) (s : AuthService) (username salt newPassword : String)
    (identity : IdentityBytes) (now : String) : AuthService × Except AuthError Unit :=
  match Crypto.hashPassword salt newPassword with
  | .error e => (s, .error (.internal (.other ("alter_user_password: " ++ e))))
  | .ok hash => s.alterUser f username (.password hash) identity now

end Users

/-! ### Tokens -/

section Tokens

variable [External] [Crypto]

/-- `issue_versioned` of `JwtConfig` -/
def issueVersioned (now : Nat) (userId : String) (attrs : List (String × String))
    (userIdentity : String) (tokenVersion : Nat) : Except String String :=
  if now + Crypto.jwtTtlSecs < 2 ^ 64 then
    Crypto.encodeJwt ⟨userId, now + Crypto.jwtTtlSecs, now, attrs, some userIdentity,
      some tokenVersion⟩
  else .error "JWT expiry is out of range"

/-- The attributes as a list of entries. -/
def attributeEntries (doc : Document) : List (String × String) :=
  (attributesOf doc).1.filterMap fun e =>
    match e.2 with
    | .string s => some (e.1, s)
    | _ => none

def issueLoginToken (now : Nat) (doc : Document) (password : String) : Except String String :=
  match doc.fields.lookup "password_hash" with
  | some (.string hash) =>
    if !Crypto.verifyPassword password hash then .error "invalid credentials"
    else
      match extractUserIdentity doc, extractTokenVersion doc with
      | .ok identity, .ok version =>
        match issueVersioned now doc.key (attributeEntries doc) identity version with
        | .ok token => .ok token
        | .error _ => .error "invalid credentials"
      | _, _ => .error "invalid credentials"
  | _ => .error "invalid credentials"

/-- A user of an old version gets the fields it lacks. -/
def migrateUser (identity : IdentityBytes) (doc : Document) : Document :=
  let doc := ensureUserIdentity identity doc
  if (doc.fields.lookup "token_version").isSome then doc
  else doc.insertField "token_version" (.int 0) (Value.wf_int _)

/-- The second look at the user, under the write lock, finds what the first one has found. -/
def login (f : Faults) (s : AuthService) (username password : String) (identity : IdentityBytes)
    (now : Nat) : AuthService × Except String String :=
  match s.user username with
  | none => (s, .error "invalid credentials")
  | some doc =>
    if (doc.fields.lookup "user_identity").isSome && (doc.fields.lookup "token_version").isSome then
      (s, issueLoginToken now doc password)
    else
      match s.systemDb.updateDocument f (migrateUser identity doc) with
      | (db, .ok true) =>
        ({ s with systemDb := db }, issueLoginToken now (migrateUser identity doc) password)
      | (db, _) => ({ s with systemDb := db }, .error "invalid credentials")

def authenticateJwt (s : AuthService) (now : Nat) (token : String) :
    Except String ResolvedSubject := do
  let claims ← Crypto.decodeJwt now token
  match claims.userIdentity, claims.tokenVersion with
  | none, _ => .error "invalid JWT: legacy token has no user identity"
  | some _, none => .error "invalid JWT: legacy token has no token version"
  | some claimedIdentity, some claimedVersion =>
    match s.user claims.sub with
    | none => .error "invalid JWT: user no longer exists"
    | some userDoc =>
      match extractUserIdentity userDoc, extractTokenVersion userDoc with
      | .error _, _ => .error "invalid JWT: invalid user identity"
      | .ok _, .error _ => .error "invalid JWT: invalid user token version"
      | .ok currentIdentity, .ok currentVersion =>
        if claimedIdentity ≠ currentIdentity || claimedVersion ≠ currentVersion then
          .error "invalid JWT: token has been revoked"
        else .ok ⟨⟨claims.sub, extractAttributes userDoc⟩, currentIdentity⟩

end Tokens

/-! ### API keys -/

section ApiKeys

variable [External] [Crypto]

def resolveApiKeySubject (s : AuthService) (username keyIdentity : String) :
    Except String ResolvedSubject :=
  match s.user username with
  | none => .error "invalid API key: associated user not found"
  | some userDoc =>
    match extractUserIdentity userDoc with
    | .error _ => .error "invalid API key: invalid user identity"
    | .ok identity =>
      if identity ≠ keyIdentity then .error "invalid API key: user identity mismatch"
      else .ok ⟨⟨username, extractAttributes userDoc⟩, identity⟩

/-- The operations that take a key out of the index of keys of the old format
(`push_legacy_index_removal`). -/
def legacyIndexRemoval (s : AuthService) (legacyHash name : String) :
    Except String (List WriteOp) :=
  match s.legacyIndex legacyHash with
  | none => .ok []
  | some doc => do
    let entries ← legacyIndexEntries doc
    let kept := entries.filter (·.name ≠ name)
    return if kept.isEmpty then [.deleteDoc "api_key_legacy_lookup" legacyHash]
      else [.insertDoc (legacyIndexDocument legacyHash kept)]

def createApiKey (f : BatchFaults) (s : AuthService) (name username : String) (key : ApiKeyBytes)
    (now : String) : AuthService × Except AuthError String :=
  match s.user username with
  | none => (s, .error (.notFound "user" username))
  | some userDoc =>
    match extractUserIdentity userDoc with
    | .error _ => (s, .error (.invalid ("user '" ++ username ++ "' has invalid identity")))
    | .ok userIdentity =>
      match parseApiKey key.generateApiKey with
      | none => (s, .error (.invalid "generated API key is malformed"))
      | some .legacy =>
        (s, .error (.invalid "generated API key does not use the direct format"))
      | some (.direct lookupId secret) =>
        match hashSecret secret with
        | none => (s, .error (.invalid "generated API key secret is malformed"))
        | some secretHash =>
          match s.writeBatch f [
            .createDoc (apiKeyMetadata name username lookupId userIdentity now),
            .createDoc (apiKeyLookupDocument lookupId name username userIdentity secretHash)] with
          | (s, .ok ()) => (s, .ok key.generateApiKey)
          | (s, .error (.alreadyExists id)) =>
            if id = "api_keys:" ++ name then (s, .error (.alreadyExists "API key" name))
            else if id = "api_key_lookup:" ++ lookupId then
              (s, .error (.internal (.other
                ("failed to create API key: random lookup ID collision '" ++ lookupId ++ "'"))))
            else (s, .error (.internal (.alreadyExists id)))
          | (s, .error e) => (s, .error (.internal e))

/-- The lookup document of a key, by its metadata. -/
def lookupRemoval (metadata : Document) : List WriteOp :=
  match metadata.fields.lookup "lookup_id" with
  | some (.string lookupId) => [.deleteDoc "api_key_lookup" lookupId]
  | _ => []

def dropApiKeyLocked (f : BatchFaults) (s : AuthService) (name : String) :
    AuthService × Except AuthError Unit :=
  match s.apiKey name with
  | none => (s, .error (.notFound "API key" name))
  | some metadata =>
    let removal :=
      match metadata.fields.lookup "key_hash" with
      | some (.string legacyHash) => s.legacyIndexRemoval legacyHash name
      | _ => .ok []
    match removal with
    | .error e => (s, .error (.internal (.other e)))
    | .ok removal =>
      match s.writeBatch f (.deleteDoc "api_keys" name :: lookupRemoval metadata ++ removal) with
      | (s, .ok ()) => (s, .ok ())
      | (s, .error e) => (s, .error (.internal e))

def dropApiKeys (f : Nat → BatchFaults) (s : AuthService) :
    List String → AuthService × Except AuthError Unit
  | [] => (s, .ok ())
  | name :: names =>
    match s.dropApiKeyLocked (f 0) name with
    | (s, .error e) => (s, .error e)
    | (s, .ok ()) => dropApiKeys (shift f) s names

/-- The names of the keys of a user. -/
def apiKeysOf (s : AuthService) (username : String) : List String :=
  ((documentPages s.systemDb "api_keys" ((s.systemDb.docs "api_keys").size + 1) none).filter
    (hasString · "username" username)).map Document.key

def deleteApiKeysForUser (f : CascadeFaults) (s : AuthService) (username : String) :
    AuthService × Except AuthError Unit :=
  match f.listing with
  | some e => (s, .error (.internal e))
  | none => s.dropApiKeys f.batch (s.apiKeysOf username)

/-- The user is gone also if the deletion of its keys fails. -/
def dropUser (f : Faults) (cascade : CascadeFaults) (s : AuthService) (username : String) :
    AuthService × Except AuthError Unit :=
  if username = "root" then (s, .error (.invalid "cannot drop the root user"))
  else
    match s.systemDb.deleteDocument f "users" username with
    | (db, .error e) => ({ s with systemDb := db }, .error (.internal e))
    | (db, .ok false) => ({ s with systemDb := db }, .error (.notFound "user" username))
    | (db, .ok true) => deleteApiKeysForUser cascade { s with systemDb := db } username

def authenticateApiKeyLookup (s : AuthService) (lookupId : String) (verifySecret : String → Bool) :
    Except String (Option ResolvedSubject) :=
  match s.apiKeyLookup lookupId with
  | none => .ok none
  | some lookupDoc =>
    match lookupDoc.fields.lookup "secret_hash" with
    | some (.string storedHash) =>
      if !verifySecret storedHash then .error "invalid API key"
      else do
        let entry ← LegacyApiKeyEntry.fromLookupDocument lookupDoc
        match s.apiKey entry.name with
        | none => .error "invalid API key: metadata not found"
        | some metadata =>
          let stored ← stringField metadata "lookup_id" "invalid API key: metadata has no lookup ID"
          if stored ≠ lookupId then .error "invalid API key: metadata mismatch"
          else
            let same ← entry.matchesMetadata metadata
            if !same then .error "invalid API key: metadata mismatch"
            else
              let subject ← s.resolveApiKeySubject entry.username entry.userIdentity
              return some subject
    | _ => .error "invalid API key: missing secret hash"

/-- Whether the lookup document that is there, if any, is that of the entry and the key. -/
def lookupAgrees (s : AuthService) (key lookupId : String) (entry : LegacyApiKeyEntry) :
    Except String Bool :=
  match s.apiKeyLookup lookupId with
  | none => .ok true
  | some existing => do
    let existingEntry ← LegacyApiKeyEntry.fromLookupDocument existing
    let existingHash ← stringField existing "secret_hash" "invalid API key: missing secret hash"
    return existingEntry = entry && verifyLegacySecret key existingHash

def finalizeLegacyApiKeyMigration (f : BatchFaults) (s : AuthService)
    (key legacyHash lookupId : String) (metadata : Document) (entry : LegacyApiKeyEntry) :
    AuthService × Except String Unit :=
  match s.lookupAgrees key lookupId entry, s.legacyIndexRemoval legacyHash entry.name with
  | .error e, _ => (s, .error e)
  | .ok false, _ => (s, .error "invalid API key: lookup collision during migration")
  | .ok true, .error e => (s, .error e)
  | .ok true, .ok removal =>
    let migrated :=
      (metadata.removeField "key_hash").insertField "lookup_id" (.string lookupId) (Value.wf_string _)
    match s.writeBatch f ([.insertDoc migrated, .insertDoc (apiKeyLookupDocument lookupId entry.name
      entry.username entry.userIdentity (hashLegacySecret key))] ++ removal) with
    | (s, .ok ()) => (s, .ok ())
    | (s, .error _) => (s, .error "failed to atomically migrate legacy API key")

/-- What a key of the old format is found to be. -/
inductive LegacyCheck where
  /-- There is no lookup document yet. -/
  | absent
  | migrated (entry : LegacyApiKeyEntry)
  /-- The metadata do not name the lookup document yet. -/
  | unfinished (entry : LegacyApiKeyEntry) (metadata : Document)

def checkUnfinished (legacyHash : String) (entry : LegacyApiKeyEntry) (metadata : Document) :
    Except String LegacyCheck :=
  match metadata.fields.lookup "key_hash" with
  | some (.string storedLegacyHash) =>
    if storedLegacyHash ≠ legacyHash then .error "invalid API key: metadata mismatch"
    else do
      let same ← entry.matchesMetadata metadata
      if same then return .unfinished entry metadata
      else .error "invalid API key: metadata mismatch"
  | _ => .error "invalid API key: metadata mismatch"

def checkMigratedLegacy (s : AuthService) (key legacyHash lookupId : String) :
    Except String LegacyCheck :=
  match s.apiKeyLookup lookupId with
  | none => .ok .absent
  | some lookupDoc => do
    let storedHash ← stringField lookupDoc "secret_hash" "invalid API key: missing secret hash"
    if !verifyLegacySecret key storedHash then
      .error "invalid API key: lookup collision during migration"
    else
      let entry ← LegacyApiKeyEntry.fromLookupDocument lookupDoc
      match s.apiKey entry.name with
      | none => .error "invalid API key: metadata not found"
      | some metadata =>
        if hasString metadata "lookup_id" lookupId then
          let same ← entry.matchesMetadata metadata
          if same then return .migrated entry else checkUnfinished legacyHash entry metadata
        else checkUnfinished legacyHash entry metadata

def repairOrAuthenticateMigratedLegacy (f : BatchFaults) (s : AuthService)
    (key legacyHash lookupId : String) : AuthService × Except String (Option ResolvedSubject) :=
  match s.checkMigratedLegacy key legacyHash lookupId with
  | .error e => (s, .error e)
  | .ok .absent => (s, .ok none)
  | .ok (.migrated entry) =>
    (s, (s.resolveApiKeySubject entry.username entry.userIdentity).map some)
  | .ok (.unfinished entry metadata) =>
    match s.finalizeLegacyApiKeyMigration f key legacyHash lookupId metadata entry with
    | (s, .error e) => (s, .error e)
    | (s, .ok ()) => (s, (s.resolveApiKeySubject entry.username entry.userIdentity).map some)

/-- The first entry of the index that is about the key, with its metadata. -/
def findLegacyEntry (s : AuthService) (key : String) :
    List LegacyApiKeyEntry → Except String (Option (LegacyApiKeyEntry × Document))
  | [] => .ok none
  | entry :: entries =>
    match s.apiKey entry.name with
    | none => s.findLegacyEntry key entries
    | some metadata =>
      match metadata.fields.lookup "key_hash" with
      | some (.string storedHash) =>
        if !verifyLegacyLookupHash key storedHash then s.findLegacyEntry key entries
        else do
          let same ← entry.matchesMetadata metadata
          if same then return some (entry, metadata) else s.findLegacyEntry key entries
      | _ => s.findLegacyEntry key entries

def authenticateLegacyApiKey (f : BatchFaults) (s : AuthService) (key : String) :
    AuthService × Except String ResolvedSubject :=
  let legacyHash := hashLegacyKey key
  let lookupId := legacyLookupId key
  match s.repairOrAuthenticateMigratedLegacy f key legacyHash lookupId with
  | (s, .error e) => (s, .error e)
  | (s, .ok (some subject)) => (s, .ok subject)
  | (s, .ok none) =>
    match s.legacyIndex legacyHash with
    | none => (s, .error "invalid API key")
    | some index =>
      match legacyIndexEntries index >>= s.findLegacyEntry key with
      | .error e => (s, .error e)
      | .ok none => (s, .error "invalid API key")
      | .ok (some (entry, metadata)) =>
        match s.resolveApiKeySubject entry.username entry.userIdentity with
        | .error e => (s, .error e)
        | .ok _ =>
          match s.finalizeLegacyApiKeyMigration f key legacyHash lookupId metadata entry with
          | (s, .error e) => (s, .error e)
          | (s, .ok ()) => (s, s.resolveApiKeySubject entry.username entry.userIdentity)

def authenticateApiKey (f : BatchFaults) (s : AuthService) (key : String) :
    AuthService × Except String ResolvedSubject :=
  match parseApiKey key with
  | none => (s, .error "invalid API key: malformed key")
  | some (.direct lookupId secret) =>
    match s.authenticateApiKeyLookup lookupId (verifySecret secret) with
    | .error e => (s, .error e)
    | .ok none => (s, .error "invalid API key")
    | .ok (some subject) => (s, .ok subject)
  | some .legacy => s.authenticateLegacyApiKey f key

/-- `authenticate_resolved` -/
def authenticate (f : BatchFaults) (s : AuthService) (now : Nat) (token : String) :
    AuthService × Except String ResolvedSubject :=
  if isApiKey token then s.authenticateApiKey f token else (s, s.authenticateJwt now token)

end ApiKeys

/-! ## Calls -/

/-- A call of the service, with all it does not decide itself. -/
inductive Call where
  | createUser (f : Faults) (username salt password : String) (attributes : List (String × String))
      (identity : IdentityBytes) (now : String)
  | dropUser (f : Faults) (cascade : CascadeFaults) (username : String)
  | alterUser (f : Faults) (username : String) (edit : UserEdit) (identity : IdentityBytes)
      (now : String)
  | alterUserPassword (f : Faults) (username salt newPassword : String) (identity : IdentityBytes)
      (now : String)
  | login (f : Faults) (username password : String) (identity : IdentityBytes) (now : Nat)
  | createApiKey (f : BatchFaults) (name username : String) (key : ApiKeyBytes) (now : String)
  | dropApiKey (f : BatchFaults) (name : String)
  | authenticate (f : BatchFaults) (now : Nat) (token : String)

namespace Call

variable [External] [Crypto]

/-- The service after the call. -/
def next (s : AuthService) : Call → AuthService
  | .createUser f username salt password attributes identity now =>
    (s.createUser f username salt password attributes identity now).1
  | .dropUser f cascade username => (s.dropUser f cascade username).1
  | .alterUser f username edit identity now => (s.alterUser f username edit identity now).1
  | .alterUserPassword f username salt newPassword identity now =>
    (s.alterUserPassword f username salt newPassword identity now).1
  | .login f username password identity now => (s.login f username password identity now).1
  | .createApiKey f name username key now => (s.createApiKey f name username key now).1
  | .dropApiKey f name => (s.dropApiKeyLocked f name).1
  | .authenticate f now token => (s.authenticate f now token).1

/-- What the call makes up of random bytes: identities and lookup ids. -/
def generated : Call → List String
  | .createUser _ _ _ _ _ identity _ => [identity.generateUserIdentity]
  | .alterUser _ _ _ identity _ => [identity.generateUserIdentity]
  | .alterUserPassword _ _ _ _ identity _ => [identity.generateUserIdentity]
  | .login _ _ _ identity _ => [identity.generateUserIdentity]
  | .createApiKey _ _ _ key _ => [hexEncode key.lookupId]
  | _ => []

end Call

end AuthService

end StellarDb
