import StellarDb.Auth.Credentials

/-!
# StellarDb — what calls do to credentials

One theorem for each call of the service: it leaves all documents, or it changes the documents of
one user or of one key in the way the theorem says (`createUser_spec`, `alterUser_spec`,
`login_spec`, `createApiKey_spec`, `dropApiKeyLocked_spec`, `dropUser_spec`, `authenticate_spec`).
-/

namespace StellarDb

open Keyspaces Entries Database

/-! ## Stored documents -/

section

variable [External]

omit [External] in
/-- Operations about other collections leave a document. -/
theorem lastDoc_of_collection {db : Database} {ops : List WriteOp} {c k : String}
    (h : ∀ op ∈ ops, ∀ t, op.target = some t → t.1 ≠ c) :
    lastDoc db ops c k = db.getDocument c (utf8 k) :=
  docAfter_of_not_touched (fun op hop htarget => h op hop _ htarget rfl) _

omit [External] in
theorem key_of_getDocument {db : Database} {c k : String} {d : Document}
    (h : db.getDocument c (utf8 k) = some d) : d.key = k := by
  rw [getDocument_eq] at h
  exact utf8_injective (db.keyed h)

end

theorem IdentityBytes.generate_ne_empty (identity : IdentityBytes) :
    identity.generateUserIdentity ≠ "" := by
  intro h
  have hlength := length_utf8_hexEncode identity.bytes
  rw [show hexEncode identity.bytes = "" from h, identity.length] at hlength
  cases hlength

namespace AuthService

variable {s : AuthService}

/-- Users and keys are stored in the collection their id names. -/
structure Placed (s : AuthService) : Prop where
  users : ∀ username doc, s.user username = some doc → doc.collection = "users"
  keys : ∀ name doc, s.apiKey name = some doc → doc.collection = "api_keys"

section

variable [External]

theorem writeBatch_getDocument (f : BatchFaults) (s : AuthService) (ops : List WriteOp)
    (c k : String) : (s.writeBatch f ops).1.systemDb.getDocument c (utf8 k) =
      if (s.writeBatch f ops).2 = .ok () then lastDoc s.systemDb ops c k
      else s.systemDb.getDocument c (utf8 k) :=
  atomicWriteBatch_getDocument f s.systemDb ops c k

end

/-! ## Users -/

section Fields

theorem extractUserIdentity_insertField {doc : Document} {field : String} {v : Value}
    {hv : v.wf = true} (hne : field ≠ "user_identity") :
    extractUserIdentity (doc.insertField field v hv) = extractUserIdentity doc := by
  unfold extractUserIdentity
  rw [Document.lookup_insertField, if_neg hne]

theorem extractTokenVersion_insertField {doc : Document} {field : String} {v : Value}
    {hv : v.wf = true} (hne : field ≠ "token_version") :
    extractTokenVersion (doc.insertField field v hv) = extractTokenVersion doc := by
  unfold extractTokenVersion
  rw [Document.lookup_insertField, if_neg hne]

/-- The identity is the old one, or a new one where there was none. -/
def Keeps (generated : List String) (old new : Document) : Prop :=
  extractUserIdentity new = extractUserIdentity old ∨
    old.fields.lookup "user_identity" = none ∧ ∃ g ∈ generated, extractUserIdentity new = .ok g

theorem keeps_ensureUserIdentity (identity : IdentityBytes) (old : Document) :
    Keeps [identity.generateUserIdentity] old (ensureUserIdentity identity old) := by
  unfold ensureUserIdentity
  split
  · exact Or.inl rfl
  · next hnone =>
    refine Or.inr ⟨Option.not_isSome_iff_eq_none.mp hnone, _, List.mem_singleton_self _, ?_⟩
    unfold extractUserIdentity
    rw [Document.lookup_insertField, if_pos rfl]
    exact if_neg identity.generate_ne_empty

theorem extractTokenVersion_ensureUserIdentity (identity : IdentityBytes) (doc : Document) :
    extractTokenVersion (ensureUserIdentity identity doc) = extractTokenVersion doc := by
  unfold ensureUserIdentity
  split
  · rfl
  · exact extractTokenVersion_insertField (by decide)

/-- An edit changes the attributes or the password. -/
theorem edit_cases (doc : Document) (edit : UserEdit) : edit.apply doc = doc ∨
    ∃ (field : String) (v : Value) (hv : v.wf = true),
      (field = "attributes" ∨ field = "password_hash") ∧
        edit.apply doc = doc.insertField field v hv := by
  cases edit with
  | attributes set keys =>
    exact Or.inr ⟨_, _, removeAttributes_wf (setAttributes_wf (attributesOf doc).2 set) keys,
      Or.inl rfl, rfl⟩
  | remove keys =>
    unfold UserEdit.apply
    cases attributesObject doc with
    | none => exact Or.inl rfl
    | some obj => exact Or.inr ⟨_, _, removeAttributes_wf obj.2 keys, Or.inl rfl, rfl⟩
  | password hash => exact Or.inr ⟨_, _, Value.wf_string hash, Or.inr rfl, rfl⟩

theorem edit_spec (doc : Document) (edit : UserEdit) : (edit.apply doc).id = doc.id ∧
    (edit.apply doc).fields.lookup "user_identity" = doc.fields.lookup "user_identity" ∧
    (edit.apply doc).fields.lookup "token_version" = doc.fields.lookup "token_version" := by
  rcases edit_cases doc edit with heq | ⟨field, v, hv, rfl | rfl, heq⟩
  · rw [heq]
    exact ⟨rfl, rfl, rfl⟩
  · rw [heq, Document.lookup_insertField, Document.lookup_insertField, if_neg (by decide),
      if_neg (by decide)]
    exact ⟨rfl, rfl, rfl⟩
  · rw [heq, Document.lookup_insertField, Document.lookup_insertField, if_neg (by decide),
      if_neg (by decide)]
    exact ⟨rfl, rfl, rfl⟩

theorem id_ensureUserIdentity (identity : IdentityBytes) (doc : Document) :
    (ensureUserIdentity identity doc).id = doc.id := by
  unfold ensureUserIdentity
  split <;> rfl

theorem id_migrateUser (identity : IdentityBytes) (doc : Document) :
    (migrateUser identity doc).id = doc.id := by
  unfold migrateUser
  dsimp only
  split
  · exact id_ensureUserIdentity identity doc
  · exact id_ensureUserIdentity identity doc

/-- The version is the next one. -/
theorem bumpTokenVersion_ok {doc bumped : Document} (h : bumpTokenVersion doc = .ok bumped) :
    bumped.id = doc.id ∧ extractUserIdentity bumped = extractUserIdentity doc ∧
      ∃ n, extractTokenVersion doc = .ok n ∧ extractTokenVersion bumped = .ok (n + 1) := by
  unfold bumpTokenVersion at h
  split at h
  · cases h
  · next n hn =>
    split at h
    · next hmax =>
      obtain rfl := Except.ok.inj h
      refine ⟨rfl, extractUserIdentity_insertField (by decide), n, hn, ?_⟩
      have hint : (Int64.ofNat (n + 1)).toInt = (n + 1 : Nat) :=
        Int64.toInt_ofNat_of_lt (by unfold maxTokenVersion at hmax; omega)
      unfold extractTokenVersion
      rw [Document.lookup_insertField, if_pos rfl]
      dsimp only
      rw [hint, if_pos (Int.natCast_nonneg _), Int.toNat_natCast]
    · cases h

theorem migrateUser_version (identity : IdentityBytes) (doc : Document) :
    extractTokenVersion (migrateUser identity doc) = extractTokenVersion doc := by
  unfold migrateUser
  dsimp only
  split
  · exact extractTokenVersion_ensureUserIdentity identity doc
  · next hnone =>
    have hlookup := Option.not_isSome_iff_eq_none.mp hnone
    rw [← extractTokenVersion_ensureUserIdentity identity doc]
    unfold extractTokenVersion
    rw [Document.lookup_insertField, if_pos rfl, hlookup]
    decide

theorem keeps_migrateUser (identity : IdentityBytes) (doc : Document) :
    Keeps [identity.generateUserIdentity] doc (migrateUser identity doc) := by
  unfold migrateUser
  dsimp only
  split
  · exact keeps_ensureUserIdentity identity doc
  · unfold Keeps
    rw [extractUserIdentity_insertField (by decide)]
    exact keeps_ensureUserIdentity identity doc

end Fields

/-! ## What a call does to a user -/

section UserEffects

variable [External] [Crypto]

namespace Call

/-- The call changes the user. -/
def Alters (s : AuthService) (username : String) : Call → Prop
  | .alterUser f u edit identity now => u = username ∧ (s.alterUser f u edit identity now).2 = .ok ()
  | .alterUserPassword f u salt newPassword identity now =>
    u = username ∧ (s.alterUserPassword f u salt newPassword identity now).2 = .ok ()
  | _ => False

/-- The call drops the user, whatever becomes of the keys. -/
def Drops (s : AuthService) (username : String) : Call → Prop
  | .dropUser f _ u =>
    u = username ∧ u ≠ "root" ∧ (s.systemDb.deleteDocument f "users" u).2 = .ok true
  | _ => False

/-- The call drops the key. -/
def DropsKey (s : AuthService) (name : String) : Call → Prop
  | .dropApiKey f n => n = name ∧ (s.dropApiKeyLocked f n).2 = .ok ()
  | _ => False

end Call

omit [Crypto] in
/-- A call that writes one document. -/
theorem getDocument_create (f : Faults) (db : Database) (doc : Document) (c k : String) :
    (db.createDocument f doc).1.getDocument c (utf8 k) =
      if (db.createDocument f doc).2 = .ok true ∧ doc.collection = c ∧ doc.key = k then some doc
      else db.getDocument c (utf8 k) := by
  have h := DocCall.exec_getDocument f db (.create doc) c (utf8 k)
  simpa only [DocCall.exec, DocCall.collection, DocCall.key, DocCall.newDoc, Document.keyBytes,
    utf8_inj] using h

omit [Crypto] in
theorem getDocument_update (f : Faults) (db : Database) (doc : Document) (c k : String) :
    (db.updateDocument f doc).1.getDocument c (utf8 k) =
      if (db.updateDocument f doc).2 = .ok true ∧ doc.collection = c ∧ doc.key = k then some doc
      else db.getDocument c (utf8 k) := by
  have h := DocCall.exec_getDocument f db (.update doc) c (utf8 k)
  simpa only [DocCall.exec, DocCall.collection, DocCall.key, DocCall.newDoc, Document.keyBytes,
    utf8_inj] using h

omit [Crypto] in
theorem getDocument_delete (f : Faults) (db : Database) (c' k' c k : String) :
    (db.deleteDocument f c' k').1.getDocument c (utf8 k) =
      if (db.deleteDocument f c' k').2 = .ok true ∧ c' = c ∧ k' = k then none
      else db.getDocument c (utf8 k) := by
  have h := DocCall.exec_getDocument f db (.delete c' k') c (utf8 k)
  simpa only [DocCall.exec, DocCall.collection, DocCall.key, DocCall.newDoc, utf8_inj] using h

omit [External] [Crypto] in
theorem user_collection (hplaced : s.Placed) {username : String} {doc new : Document}
    (h : s.user username = some doc) (hid : new.id = doc.id) :
    new.collection = "users" ∧ new.key = username :=
  ⟨(Document.collection_congr hid).trans (hplaced.users _ _ h),
    (Document.key_congr hid).trans (key_of_getDocument h)⟩

omit [Crypto] [External] in
/-- The same documents. -/
def SameDocs (s t : AuthService) : Prop :=
  ∀ c k, t.systemDb.getDocument c (utf8 k) = s.systemDb.getDocument c (utf8 k)

/-- The same documents but for that of a user. -/
structure PutsUser (s t : AuthService) (username : String) (doc : Document) : Prop where
  collection : doc.collection = "users"
  docs : ∀ c k, t.systemDb.getDocument c (utf8 k) =
    if "users" = c ∧ username = k then some doc else s.systemDb.getDocument c (utf8 k)

omit [External] [Crypto] in
theorem userDocument_id (username hash : String) (attributes : List (String × String))
    (identity now : String) :
    (userDocument username hash attributes identity now).collection = "users" ∧
      (userDocument username hash attributes identity now).key = username :=
  have hcolon : ':' ∉ "users".toList := by decide
  ⟨Document.collection_of_id hcolon rfl, Document.key_of_id hcolon rfl⟩

theorem createUser_spec (f : Faults) (s : AuthService) (username salt password : String)
    (attributes : List (String × String)) (identity : IdentityBytes) (now : String) :
    SameDocs s (s.createUser f username salt password attributes identity now).1 ∨
      ∃ new, s.user username = none ∧
        extractUserIdentity new = .ok identity.generateUserIdentity ∧
        PutsUser s (s.createUser f username salt password attributes identity now).1 username new := by
  unfold createUser
  split
  · exact Or.inl fun c k => rfl
  · next hash _ =>
    have hget := getDocument_create f s.systemDb
      (userDocument username hash attributes identity.generateUserIdentity now)
    obtain ⟨hcollection, hkey⟩ := userDocument_id username hash attributes
      identity.generateUserIdentity now
    simp only [hcollection, hkey] at hget
    split
    · next db e h =>
      rw [h] at hget
      exact Or.inl fun c k => (hget c k).trans (if_neg nofun)
    · next db h =>
      rw [h] at hget
      exact Or.inl fun c k => (hget c k).trans (if_neg nofun)
    · next db h =>
      have hexec : (DocCall.exec f s.systemDb (.create (userDocument username hash attributes
          identity.generateUserIdentity now))).2 = .ok true := congrArg Prod.snd h
      have hold := (DocCall.oldDoc_of_exec _ hexec).1
      rw [h] at hget
      refine Or.inr ⟨_, ?_, ?_, hcollection,
        fun c k => (hget c k).trans (if_congr (and_iff_right rfl) rfl rfl)⟩
      · simp only [DocCall.collection, DocCall.key, Document.keyBytes, hcollection, hkey] at hold
        exact hold
      · exact if_neg identity.generate_ne_empty

omit [Crypto] in
theorem alterUser_spec (hplaced : s.Placed) (f : Faults) (username : String)
    (edit : UserEdit) (identity : IdentityBytes) (now : String) :
    ((s.alterUser f username edit identity now).2 ≠ .ok () ∧
      SameDocs s (s.alterUser f username edit identity now).1) ∨
    (s.alterUser f username edit identity now).2 = .ok () ∧ ∃ old new n,
      s.user username = some old ∧ Keeps [identity.generateUserIdentity] old new ∧
      extractTokenVersion old = .ok n ∧ extractTokenVersion new = .ok (n + 1) ∧
      PutsUser s (s.alterUser f username edit identity now).1 username new := by
  unfold alterUser
  split
  · exact Or.inl ⟨nofun, fun c k => rfl⟩
  · next old hold =>
    dsimp only
    split
    · exact Or.inl ⟨nofun, fun c k => rfl⟩
    · exact Or.inl ⟨nofun, fun c k => rfl⟩
    · next bumped _ hbumped =>
      obtain ⟨hid, hidentity, n, hn, hnext⟩ := bumpTokenVersion_ok hbumped
      obtain ⟨hedit, hlookup, hversion⟩ := edit_spec old edit
      have hget := getDocument_update f s.systemDb
        (bumped.insertField "updated_at" (.string now) (Value.wf_string _))
      obtain ⟨hcollection, hkey⟩ := user_collection hplaced hold
        (show (bumped.insertField "updated_at" (.string now) (Value.wf_string _)).id = old.id by
          rw [Document.insertField_id, hid, id_ensureUserIdentity, hedit])
      simp only [hcollection, hkey] at hget
      split
      · next db e h =>
        rw [h] at hget
        exact Or.inl ⟨nofun, fun c k => (hget c k).trans (if_neg nofun)⟩
      · next db h =>
        rw [h] at hget
        exact Or.inl ⟨nofun, fun c k => (hget c k).trans (if_neg nofun)⟩
      · next db h =>
        rw [h] at hget
        refine Or.inr ⟨rfl, old, _, n, hold, ?_, ?_, ?_, hcollection,
          fun c k => (hget c k).trans (if_congr (and_iff_right rfl) rfl rfl)⟩
        · have hkeeps := keeps_ensureUserIdentity identity (edit.apply old)
          have hsame : extractUserIdentity (edit.apply old) = extractUserIdentity old := by
            unfold extractUserIdentity
            rw [hlookup]
          unfold Keeps at hkeeps ⊢
          rw [hsame, hlookup] at hkeeps
          rw [extractUserIdentity_insertField (by decide), hidentity]
          exact hkeeps
        · rw [← hn, extractTokenVersion_ensureUserIdentity]
          unfold extractTokenVersion
          rw [hversion]
        · rw [extractTokenVersion_insertField (by decide), hnext]

theorem alterUserPassword_spec (hplaced : s.Placed) (f : Faults)
    (username salt newPassword : String) (identity : IdentityBytes) (now : String) :
    ((s.alterUserPassword f username salt newPassword identity now).2 ≠ .ok () ∧
      SameDocs s (s.alterUserPassword f username salt newPassword identity now).1) ∨
    (s.alterUserPassword f username salt newPassword identity now).2 = .ok () ∧ ∃ old new n,
      s.user username = some old ∧ Keeps [identity.generateUserIdentity] old new ∧
      extractTokenVersion old = .ok n ∧ extractTokenVersion new = .ok (n + 1) ∧
      PutsUser s (s.alterUserPassword f username salt newPassword identity now).1 username new := by
  unfold alterUserPassword
  split
  · exact Or.inl ⟨nofun, fun c k => rfl⟩
  · exact alterUser_spec hplaced f username _ identity now

/-- A login may complete the document of the user. -/
theorem login_spec (hplaced : s.Placed) (f : Faults) (username password : String)
    (identity : IdentityBytes) (now : Nat) :
    SameDocs s (s.login f username password identity now).1 ∨ ∃ old new,
      s.user username = some old ∧ Keeps [identity.generateUserIdentity] old new ∧
      extractTokenVersion new = extractTokenVersion old ∧
      PutsUser s (s.login f username password identity now).1 username new := by
  unfold login
  split
  · exact Or.inl fun c k => rfl
  · next old hold =>
    split
    · exact Or.inl fun c k => rfl
    · have hget := getDocument_update f s.systemDb (migrateUser identity old)
      obtain ⟨hcollection, hkey⟩ := user_collection hplaced hold (id_migrateUser identity old)
      simp only [hcollection, hkey] at hget
      split
      · next db h =>
        rw [h] at hget
        exact Or.inr ⟨old, _, hold, keeps_migrateUser identity old, migrateUser_version identity old,
          hcollection, fun c k => (hget c k).trans (if_congr (and_iff_right rfl) rfl rfl)⟩
      · next r db _ hne h =>
        rw [h] at hget
        refine Or.inl fun c k => (hget c k).trans (if_neg fun hok => ?_)
        exact hne hok.1

end UserEffects

/-! ## What a call does to keys -/

section KeyEffects

variable [External] [Crypto]

/-- The users are as before. -/
def SameUsers (s t : AuthService) : Prop := ∀ u, t.user u = s.user u

omit [External] [Crypto] in
theorem SameDocs.users {t : AuthService} (h : SameDocs s t) : SameUsers s t := fun u => h "users" u

omit [External] [Crypto] in
theorem legacyIndexRemoval_targets {legacyHash name : String} {removal : List WriteOp}
    (h : s.legacyIndexRemoval legacyHash name = .ok removal) :
    ∀ op ∈ removal, ∀ t, op.target = some t → t.1 = "api_key_legacy_lookup" := by
  unfold legacyIndexRemoval at h
  split at h
  · obtain rfl := Except.ok.inj h
    exact nofun
  · next doc _ =>
    cases hentries : legacyIndexEntries doc with
    | error e =>
      rw [hentries] at h
      cases h
    | ok entries =>
      rw [hentries] at h
      have heq := (Except.ok.inj h).symm
      have hcolon : ':' ∉ "api_key_legacy_lookup".toList := by decide
      intro op hop t ht
      split at heq
      · rw [heq, List.mem_singleton] at hop
        rw [hop] at ht
        exact congrArg Prod.fst (Option.some.inj ht).symm
      · rw [heq, List.mem_singleton] at hop
        rw [hop] at ht
        refine (congrArg Prod.fst (Option.some.inj ht).symm).trans ?_
        exact Document.collection_of_id hcolon rfl

/-- A key is dropped: its metadata and the lookup document they name. -/
structure KeyDropped (s t : AuthService) (name : String) (metadata : Document) : Prop where
  stored : s.apiKey name = some metadata
  users : SameUsers s t
  keys : ∀ n, t.apiKey n = if name = n then none else s.apiKey n
  lookups : ∀ l, t.apiKeyLookup l =
    if hasString metadata "lookup_id" l then none else s.apiKeyLookup l

omit [External] [Crypto] in
theorem lookupRemoval_eq (metadata : Document) : lookupRemoval metadata = [] ∧
      (∀ l, hasString metadata "lookup_id" l = false) ∨
    ∃ lookupId, lookupRemoval metadata = [.deleteDoc "api_key_lookup" lookupId] ∧
      ∀ l, hasString metadata "lookup_id" l = decide (lookupId = l) := by
  unfold lookupRemoval hasString
  split
  · next lookupId _ => exact Or.inr ⟨lookupId, rfl, fun l => rfl⟩
  · exact Or.inl ⟨rfl, fun l => rfl⟩

omit [Crypto] in
theorem dropApiKeyLocked_spec (f : BatchFaults) (s : AuthService) (name : String) :
    ((s.dropApiKeyLocked f name).2 ≠ .ok () ∧ SameDocs s (s.dropApiKeyLocked f name).1) ∨
    (s.dropApiKeyLocked f name).2 = .ok () ∧
      ∃ metadata, KeyDropped s (s.dropApiKeyLocked f name).1 name metadata := by
  unfold dropApiKeyLocked
  split
  · exact Or.inl ⟨(fun h => by cases h), fun c k => rfl⟩
  · next metadata hmetadata =>
    dsimp only
    split
    · exact Or.inl ⟨(fun h => by cases h), fun c k => rfl⟩
    · next removal hremoval =>
      have htargets : ∀ op ∈ removal, ∀ t, op.target = some t → t.1 = "api_key_legacy_lookup" := by
        split at hremoval
        · exact legacyIndexRemoval_targets hremoval
        · obtain rfl := Except.ok.inj hremoval
          exact fun _ h => by cases h
      have hget := writeBatch_getDocument f s
        (.deleteDoc "api_keys" name :: lookupRemoval metadata ++ removal)
      split
      · next t hbatch =>
        rw [hbatch] at hget
        -- the removal is about another collection
        have hlast : ∀ c k, c ≠ "api_key_legacy_lookup" → t.systemDb.getDocument c (utf8 k) =
            lastDoc s.systemDb (.deleteDoc "api_keys" name :: lookupRemoval metadata) c k := by
          intro c k hc
          refine (hget c k).trans ((if_pos rfl).trans ?_)
          unfold lastDoc docAfter
          rw [List.foldl_append]
          exact docAfter_of_not_touched (fun op hop htarget => hc (htargets op hop _ htarget)) _
        refine Or.inr ⟨rfl, metadata, hmetadata, fun u => ?_, fun n => ?_, fun l => ?_⟩
        · refine (hlast "users" u (by decide)).trans (lastDoc_of_collection ?_)
          rcases lookupRemoval_eq metadata with ⟨heq, -⟩ | ⟨lookupId, heq, -⟩ <;>
            · rw [heq]
              simp [WriteOp.target]
        · refine (hlast "api_keys" n (by decide)).trans ?_
          rcases lookupRemoval_eq metadata with ⟨heq, -⟩ | ⟨lookupId, heq, -⟩ <;>
            · rw [heq]
              simp [lastDoc, docAfter, WriteOp.target, WriteOp.written, apiKey]
        · refine (hlast "api_key_lookup" l (by decide)).trans ?_
          rcases lookupRemoval_eq metadata with ⟨heq, hl⟩ | ⟨lookupId, heq, hl⟩ <;>
            · rw [heq, hl]
              simp [lastDoc, docAfter, WriteOp.target, WriteOp.written, apiKeyLookup]
      · next t e hbatch =>
        rw [hbatch] at hget
        exact Or.inl ⟨(fun h => by cases h),
          fun c k => (hget c k).trans (if_neg fun h => by cases h)⟩

/-- Some keys are dropped, each with the lookup document its metadata name. -/
structure KeysDropped (s t : AuthService) (names : List String) : Prop where
  users : SameUsers s t
  keys : ∀ n, t.apiKey n = s.apiKey n ∨ n ∈ names ∧ (s.apiKey n).isSome ∧ t.apiKey n = none
  lookups : ∀ l, t.apiKeyLookup l = s.apiKeyLookup l ∨ t.apiKeyLookup l = none ∧
    ∃ n ∈ names, ∃ metadata, s.apiKey n = some metadata ∧ hasString metadata "lookup_id" l = true

omit [External] [Crypto] in
theorem SameDocs.keysDropped {t : AuthService} {names : List String} (h : SameDocs s t) :
    KeysDropped s t names :=
  ⟨h.users, fun n => Or.inl (h _ n), fun l => Or.inl (h _ l)⟩

omit [Crypto] in
theorem dropApiKeys_spec (f : Nat → BatchFaults) (s : AuthService) (names : List String) :
    KeysDropped s (s.dropApiKeys f names).1 names := by
  induction names generalizing f s with
  | nil => exact SameDocs.keysDropped fun c k => rfl
  | cons name names ih =>
    unfold dropApiKeys
    rcases dropApiKeyLocked_spec (f 0) s name with ⟨hne, hdocs⟩ | ⟨hok, metadata, hdropped⟩
    · rcases hdrop : s.dropApiKeyLocked (f 0) name with ⟨t, res⟩
      rw [hdrop] at hne hdocs
      cases res with
      | error e => exact hdocs.keysDropped
      | ok u => exact absurd rfl hne
    · rcases hdrop : s.dropApiKeyLocked (f 0) name with ⟨t, res⟩
      rw [hdrop] at hok hdropped
      obtain rfl : res = .ok () := hok
      have hrest := ih (shift f) t
      refine ⟨fun u => (hrest.users u).trans (hdropped.users u), fun n => ?_, fun l => ?_⟩
      · have hkey := hdropped.keys n
        by_cases hn : name = n
        · subst hn
          rw [if_pos rfl] at hkey
          refine Or.inr ⟨List.mem_cons_self, by rw [hdropped.stored]; rfl, ?_⟩
          rcases hrest.keys name with h | ⟨-, -, h⟩
          · exact h.trans hkey
          · exact h
        · rw [if_neg hn] at hkey
          rcases hrest.keys n with h | ⟨hmem, hsome, h⟩
          · exact Or.inl (h.trans hkey)
          · exact Or.inr ⟨List.mem_cons_of_mem name hmem, hkey ▸ hsome, h⟩
      · have hlookup := hdropped.lookups l
        rcases hrest.lookups l with h | ⟨hnone, n, hn, metadata', hstored, hl⟩
        · by_cases hl : hasString metadata "lookup_id" l = true
          · rw [if_pos hl] at hlookup
            exact Or.inr ⟨h.trans hlookup, name, List.mem_cons_self, metadata, hdropped.stored, hl⟩
          · rw [if_neg hl] at hlookup
            exact Or.inl (h.trans hlookup)
        · refine Or.inr ⟨hnone, n, List.mem_cons_of_mem name hn, metadata', ?_, hl⟩
          rw [hdropped.keys] at hstored
          split at hstored
          · cases hstored
          · exact hstored

/-- A key of the old format gets a lookup id. -/
structure KeyMigrated (s t : AuthService) (token name : String) (metadata new : Document) :
    Prop where
  legacy : parseApiKey token = some .legacy
  stored : s.apiKey name = some metadata
  keyHash : (metadata.fields.lookup "key_hash").isSome
  /-- A lookup document that was there was that of the token. -/
  agrees : ∀ l h, s.apiKeyLookup (legacyLookupId token) = some l →
    l.fields.lookup "secret_hash" = some (.string h) → verifyLegacySecret token h = true
  users : SameUsers s t
  collection : new.collection = "api_keys"
  lookupId : new.fields.lookup "lookup_id" = some (.string (legacyLookupId token))
  keys : ∀ n, t.apiKey n = if name = n then some new else s.apiKey n
  lookups : ∀ l, ∃ doc : Document,
    doc.fields.lookup "secret_hash" = some (.string (hashLegacySecret token)) ∧
    t.apiKeyLookup l = if legacyLookupId token = l then some doc else s.apiKeyLookup l

omit [External] in
theorem lookupAgrees_spec {token lookupId : String} {entry : LegacyApiKeyEntry}
    (h : s.lookupAgrees token lookupId entry = .ok true) : ∀ l hash,
      s.apiKeyLookup lookupId = some l → l.fields.lookup "secret_hash" = some (.string hash) →
        verifyLegacySecret token hash = true := by
  intro l hash hl hhash
  unfold lookupAgrees at h
  rw [hl] at h
  dsimp only at h
  cases hentry : LegacyApiKeyEntry.fromLookupDocument l with
  | error e =>
    rw [hentry] at h
    cases h
  | ok existing =>
    have hfield : stringField l "secret_hash" "invalid API key: missing secret hash" =
        if hash = "" then .error "invalid API key: missing secret hash" else .ok hash := by
      unfold stringField
      rw [hhash]
    rw [hentry, hfield] at h
    by_cases hempty : hash = ""
    · rw [if_pos hempty] at h
      cases h
    · rw [if_neg hempty] at h
      exact (Bool.and_eq_true .. ▸ Except.ok.inj h : _ ∧ _).2

theorem finalize_spec (hplaced : s.Placed) (f : BatchFaults) {token : String}
    {metadata : Document} {entry : LegacyApiKeyEntry} (hlegacy : parseApiKey token = some .legacy)
    (hstored : s.apiKey entry.name = some metadata)
    (hhash : (metadata.fields.lookup "key_hash").isSome) :
    SameDocs s (s.finalizeLegacyApiKeyMigration f token (hashLegacyKey token) (legacyLookupId token)
      metadata entry).1 ∨
    ∃ new, KeyMigrated s (s.finalizeLegacyApiKeyMigration f token (hashLegacyKey token)
      (legacyLookupId token) metadata entry).1 token entry.name metadata new := by
  unfold finalizeLegacyApiKeyMigration
  split
  · exact Or.inl fun c k => rfl
  · exact Or.inl fun c k => rfl
  · exact Or.inl fun c k => rfl
  · next removal hagrees hremoval =>
    let migrated := (metadata.removeField "key_hash").insertField "lookup_id"
      (.string (legacyLookupId token)) (Value.wf_string _)
    let lookupDoc := apiKeyLookupDocument (legacyLookupId token) entry.name entry.username
      entry.userIdentity (hashLegacySecret token)
    have hget := writeBatch_getDocument f s
      ([.insertDoc migrated, .insertDoc lookupDoc] ++ removal)
    have htargets := legacyIndexRemoval_targets hremoval
    have hcolon : ':' ∉ "api_key_lookup".toList := by decide
    have hplace : migrated.collection = "api_keys" ∧ migrated.key = entry.name :=
      have hid : migrated.id = metadata.id := rfl
      ⟨(Document.collection_congr hid).trans (hplaced.keys _ _ hstored),
        (Document.key_congr hid).trans (key_of_getDocument hstored)⟩
    have hlookup : lookupDoc.collection = "api_key_lookup" ∧
        lookupDoc.key = legacyLookupId token :=
      ⟨Document.collection_of_id hcolon rfl, Document.key_of_id hcolon rfl⟩
    dsimp only
    split
    · next t hbatch =>
      rw [hbatch] at hget
      have hlast : ∀ c k, c ≠ "api_key_legacy_lookup" → t.systemDb.getDocument c (utf8 k) =
          lastDoc s.systemDb [.insertDoc migrated, .insertDoc lookupDoc] c k := by
        intro c k hc
        refine (hget c k).trans ((if_pos rfl).trans ?_)
        unfold lastDoc docAfter
        rw [List.foldl_append]
        exact docAfter_of_not_touched (fun op hop htarget => hc (htargets op hop _ htarget)) _
      refine Or.inr ⟨migrated, hlegacy, hstored, hhash, lookupAgrees_spec hagrees, fun u => ?_,
        hplace.1, ?_, fun n => ?_, fun l => ⟨lookupDoc, rfl, ?_⟩⟩
      · refine (hlast "users" u (by decide)).trans ?_
        simp [lastDoc, docAfter, WriteOp.target, hplace, hlookup, user]
      · exact (Document.lookup_insertField ..).trans (if_pos rfl)
      · refine (hlast "api_keys" n (by decide)).trans ?_
        simp [lastDoc, docAfter, WriteOp.target, WriteOp.written, hplace, hlookup, apiKey]
      · refine (hlast "api_key_lookup" l (by decide)).trans ?_
        simp [lastDoc, docAfter, WriteOp.target, WriteOp.written, hplace, hlookup, apiKeyLookup]
    · next t e hbatch =>
      rw [hbatch] at hget
      exact Or.inl fun c k => (hget c k).trans (if_neg fun h => by cases h)

omit [External] [Crypto] in
theorem checkUnfinished_spec {legacyHash : String} {entry : LegacyApiKeyEntry}
    {metadata : Document} {check : LegacyCheck}
    (h : checkUnfinished legacyHash entry metadata = .ok check) :
    check = .unfinished entry metadata ∧ (metadata.fields.lookup "key_hash").isSome := by
  unfold checkUnfinished at h
  split at h
  · next hash hhash =>
    split at h
    · cases h
    · cases hsame : entry.matchesMetadata metadata with
      | error e =>
        rw [hsame] at h
        cases h
      | ok same =>
        rw [hsame] at h
        cases same with
        | false => cases h
        | true => exact ⟨(Except.ok.inj h).symm, by rw [hhash]; rfl⟩
  · cases h

omit [External] in
theorem checkMigratedLegacy_spec {token legacyHash lookupId : String} {entry : LegacyApiKeyEntry}
    {metadata : Document}
    (h : s.checkMigratedLegacy token legacyHash lookupId = .ok (.unfinished entry metadata)) :
    s.apiKey entry.name = some metadata ∧ (metadata.fields.lookup "key_hash").isSome := by
  unfold checkMigratedLegacy at h
  split at h
  · cases h
  · next lookupDoc _ =>
    cases hhash : stringField lookupDoc "secret_hash" "invalid API key: missing secret hash" with
    | error e =>
      rw [hhash] at h
      cases h
    | ok hash =>
      rw [hhash] at h
      change (if _ then _ else _) = _ at h
      split at h
      · cases h
      · cases hentry : LegacyApiKeyEntry.fromLookupDocument lookupDoc with
        | error e =>
          rw [hentry] at h
          cases h
        | ok found =>
          rw [hentry] at h
          rw [ok_bind] at h
          split at h
          · cases h
          · next stored hstored =>
            have hunfinished : ∀ {check}, checkUnfinished legacyHash found stored = .ok check →
                check = .unfinished entry metadata →
                s.apiKey entry.name = some metadata ∧
                  (metadata.fields.lookup "key_hash").isSome := by
              intro check hcheck heq
              obtain ⟨hcheck, hsome⟩ := checkUnfinished_spec hcheck
              rw [hcheck] at heq
              obtain ⟨rfl, rfl⟩ := LegacyCheck.unfinished.inj heq
              exact ⟨hstored, hsome⟩
            split at h
            · cases hsame : found.matchesMetadata stored with
              | error e =>
                rw [hsame] at h
                cases h
              | ok same =>
                rw [hsame] at h
                cases same with
                | false => exact hunfinished h rfl
                | true => cases h
            · exact hunfinished h rfl

omit [Crypto] in
theorem findLegacyEntry_spec {token : String} {entries : List LegacyApiKeyEntry}
    {entry : LegacyApiKeyEntry} {metadata : Document}
    (h : s.findLegacyEntry token entries = .ok (some (entry, metadata))) :
    s.apiKey entry.name = some metadata ∧ (metadata.fields.lookup "key_hash").isSome := by
  induction entries with
  | nil => cases h
  | cons first entries ih =>
    unfold findLegacyEntry at h
    split at h
    · exact ih h
    · next stored hstored =>
      split at h
      · next hash hhash =>
        split at h
        · exact ih h
        · cases hsame : first.matchesMetadata stored with
          | error e =>
            rw [hsame] at h
            cases h
          | ok same =>
            rw [hsame] at h
            cases same with
            | false => exact ih h
            | true =>
              obtain ⟨rfl, rfl⟩ := Prod.mk.inj (Option.some.inj (Except.ok.inj h))
              exact ⟨hstored, by rw [hhash]; rfl⟩
      · exact ih h

/-- An authentication may migrate a key of the old format. -/
theorem authenticate_spec (hplaced : s.Placed) (f : BatchFaults) (now : Nat)
    (token : String) : SameDocs s (s.authenticate f now token).1 ∨
      ∃ name metadata new, KeyMigrated s (s.authenticate f now token).1 token name metadata new := by
  have hrefl : SameDocs s s := fun c k => rfl
  unfold authenticate
  split
  · unfold authenticateApiKey
    split
    · exact Or.inl hrefl
    · split <;> exact Or.inl hrefl
    · next hlegacy =>
      -- what finishing a migration does
      have hfinalize : ∀ (entry : LegacyApiKeyEntry) (metadata : Document),
          s.apiKey entry.name = some metadata → (metadata.fields.lookup "key_hash").isSome →
          ∀ t res, s.finalizeLegacyApiKeyMigration f token (hashLegacyKey token)
            (legacyLookupId token) metadata entry = (t, res) → SameDocs s t ∨
              ∃ name metadata new, KeyMigrated s t token name metadata new := by
        intro entry metadata hstored hhash t res heq
        have h := finalize_spec hplaced f hlegacy hstored hhash
        rw [heq] at h
        exact h.imp id fun ⟨new, hnew⟩ => ⟨_, _, new, hnew⟩
      unfold authenticateLegacyApiKey
      dsimp only
      unfold repairOrAuthenticateMigratedLegacy
      rcases hcheck : s.checkMigratedLegacy token (hashLegacyKey token) (legacyLookupId token) with
        e | (_ | entry | ⟨entry, metadata⟩)
      · exact Or.inl hrefl
      · dsimp only
        split
        · exact Or.inl hrefl
        · next index _ =>
          split
          · exact Or.inl hrefl
          · exact Or.inl hrefl
          · next entry metadata hfound =>
            obtain ⟨hstored, hhash⟩ : s.apiKey entry.name = some metadata ∧ _ := by
              rcases hentries : legacyIndexEntries index with e | entries
              · rw [hentries] at hfound
                cases hfound
              · rw [hentries] at hfound
                exact findLegacyEntry_spec hfound
            split
            · exact Or.inl hrefl
            · rcases hfin : s.finalizeLegacyApiKeyMigration f token (hashLegacyKey token)
                (legacyLookupId token) metadata entry with ⟨t, e | u⟩
              · exact hfinalize entry metadata hstored hhash t _ hfin
              · exact hfinalize entry metadata hstored hhash t _ hfin
      · dsimp only
        cases s.resolveApiKeySubject entry.username entry.userIdentity with
        | error e => exact Or.inl hrefl
        | ok subject => exact Or.inl hrefl
      · obtain ⟨hstored, hhash⟩ := checkMigratedLegacy_spec hcheck
        rcases hfin : s.finalizeLegacyApiKeyMigration f token (hashLegacyKey token)
          (legacyLookupId token) metadata entry with ⟨t, e | u⟩
        · dsimp only
          rw [hfin]
          exact hfinalize entry metadata hstored hhash t _ hfin
        · dsimp only
          rw [hfin]
          dsimp only
          have h := hfinalize entry metadata hstored hhash t _ hfin
          cases t.resolveApiKeySubject entry.username entry.userIdentity with
          | error e => exact h
          | ok subject => exact h
  · exact Or.inl hrefl

/-- A key is created for a user with an identity. -/
structure KeyCreated (s t : AuthService) (key : ApiKeyBytes) (name username identity now : String) :
    Prop where
  newKey : s.apiKey name = none
  newLookup : s.apiKeyLookup (hexEncode key.lookupId) = none
  users : SameUsers s t
  keys : ∀ n, t.apiKey n =
    if name = n then some (apiKeyMetadata name username (hexEncode key.lookupId) identity now)
    else s.apiKey n
  lookups : ∀ l, t.apiKeyLookup l =
    if hexEncode key.lookupId = l then
      some (apiKeyLookupDocument (hexEncode key.lookupId) name username identity
        (hexEncode (Crypto.sha256 key.secret)))
    else s.apiKeyLookup l

theorem createApiKey_spec (f : BatchFaults) (s : AuthService) (name username : String)
    (key : ApiKeyBytes) (now : String) :
    ((∀ token, (s.createApiKey f name username key now).2 ≠ .ok token) ∧
      SameDocs s (s.createApiKey f name username key now).1) ∨
    (s.createApiKey f name username key now).2 = .ok key.generateApiKey ∧
      ∃ userDoc identity, s.user username = some userDoc ∧
        extractUserIdentity userDoc = .ok identity ∧
        KeyCreated s (s.createApiKey f name username key now).1 key name username identity now := by
  have hrefl : SameDocs s s := fun c k => rfl
  unfold createApiKey
  split
  · exact Or.inl ⟨(fun _ h => by cases h), hrefl⟩
  · next userDoc huser =>
    split
    · exact Or.inl ⟨(fun _ h => by cases h), hrefl⟩
    · next identity hidentity =>
      rw [key.parse_generate]
      dsimp only
      rw [hashSecret_generated]
      dsimp only
      let metadata := apiKeyMetadata name username (hexEncode key.lookupId) identity now
      let lookupDoc := apiKeyLookupDocument (hexEncode key.lookupId) name username identity
        (hexEncode (Crypto.sha256 key.secret))
      have hcolons : ':' ∉ "api_keys".toList ∧ ':' ∉ "api_key_lookup".toList := by decide
      have hmetadata : metadata.collection = "api_keys" ∧ metadata.key = name :=
        ⟨Document.collection_of_id hcolons.1 rfl, Document.key_of_id hcolons.1 rfl⟩
      have hlookup : lookupDoc.collection = "api_key_lookup" ∧
          lookupDoc.key = hexEncode key.lookupId :=
        ⟨Document.collection_of_id hcolons.2 rfl, Document.key_of_id hcolons.2 rfl⟩
      have hget := writeBatch_getDocument f s [.createDoc metadata, .createDoc lookupDoc]
      have hadmitted : (s.writeBatch f [.createDoc metadata, .createDoc lookupDoc]).2 = .ok () →
          s.systemDb.Admitted [.createDoc metadata, .createDoc lookupDoc] :=
        admitted_of_atomicWriteBatch
      split
      · next t hbatch =>
        rw [hbatch] at hget hadmitted
        have hfirst := (hadmitted rfl [] (.createDoc metadata) ⟨[.createDoc lookupDoc], rfl⟩).2
        have hsecond := (hadmitted rfl [.createDoc metadata] (.createDoc lookupDoc) ⟨[], rfl⟩).2
        refine Or.inr ⟨rfl, userDoc, identity, huser, hidentity, ?_, ?_, fun u => ?_, fun n => ?_,
          fun l => ?_⟩
        · rw [hmetadata.1, hmetadata.2] at hfirst
          exact hfirst
        · rw [hlookup.1, hlookup.2, lastDoc_of_collection] at hsecond
          · exact hsecond
          · simp [WriteOp.target, hmetadata]
        · refine (hget "users" u).trans ((if_pos rfl).trans (lastDoc_of_collection ?_))
          simp [WriteOp.target, hmetadata, hlookup]
        · refine (hget "api_keys" n).trans ((if_pos rfl).trans ?_)
          simp [lastDoc, docAfter, WriteOp.target, WriteOp.written, hmetadata, hlookup, apiKey,
            metadata]
        · refine (hget "api_key_lookup" l).trans ((if_pos rfl).trans ?_)
          simp [lastDoc, docAfter, WriteOp.target, WriteOp.written, hmetadata, hlookup,
            apiKeyLookup, lookupDoc]
      · next t id hbatch =>
        rw [hbatch] at hget
        have hdocs : SameDocs s t := fun c k => (hget c k).trans (if_neg fun h => by cases h)
        split
        · exact Or.inl ⟨(fun _ h => by cases h), hdocs⟩
        · split <;> exact Or.inl ⟨(fun _ h => by cases h), hdocs⟩
      · next t e _ hbatch =>
        rw [hbatch] at hget
        exact Or.inl ⟨(fun _ h => by cases h),
          fun c k => (hget c k).trans (if_neg fun h => by cases h)⟩

omit [External] [Crypto] in
/-- The keys of a user. -/
theorem mem_apiKeysOf {username name : String} : name ∈ s.apiKeysOf username ↔
    ∃ metadata, s.apiKey name = some metadata ∧ hasString metadata "username" username = true := by
  unfold apiKeysOf
  rw [documentPages_eq, List.mem_map]
  constructor
  · rintro ⟨metadata, hmem, rfl⟩
    obtain ⟨hstored, hown⟩ := List.mem_filter.mp hmem
    exact ⟨metadata, Database.mem_storedDocuments.mp hstored, hown⟩
  · rintro ⟨metadata, hstored, hown⟩
    have hkey := key_of_getDocument hstored
    refine ⟨metadata, List.mem_filter.mpr ⟨Database.mem_storedDocuments.mpr ?_, hown⟩, hkey⟩
    rw [Document.keyBytes, hkey]
    exact hstored

/-- A user is dropped, and with it some of its keys. -/
structure UserDropped (s t : AuthService) (username : String) : Prop where
  users : ∀ u, t.user u = if username = u then none else s.user u
  keys : ∀ n, t.apiKey n = s.apiKey n ∨ t.apiKey n = none ∧
    ∃ metadata, s.apiKey n = some metadata ∧ hasString metadata "username" username = true
  lookups : ∀ l, t.apiKeyLookup l = s.apiKeyLookup l ∨ t.apiKeyLookup l = none ∧
    ∃ n metadata, s.apiKey n = some metadata ∧ hasString metadata "username" username = true ∧
      hasString metadata "lookup_id" l = true

omit [Crypto] in
theorem dropUser_spec (f : Faults) (cascade : CascadeFaults) (s : AuthService) (username : String) :
    (¬(Call.dropUser f cascade username).Drops s username ∧
      SameDocs s (s.dropUser f cascade username).1) ∨
    (Call.dropUser f cascade username).Drops s username ∧
      (s.user username).isSome ∧ UserDropped s (s.dropUser f cascade username).1 username := by
  unfold dropUser
  split
  · next hroot => exact Or.inl ⟨fun h => h.2.1 hroot, fun c k => rfl⟩
  · next hroot =>
    have hget := getDocument_delete f s.systemDb "users" username
    split
    · next db e h =>
      rw [h] at hget
      refine Or.inl ⟨fun hdrops => ?_, fun c k => (hget c k).trans (if_neg nofun)⟩
      have hok := hdrops.2.2
      rw [h] at hok
      cases hok
    · next db h =>
      rw [h] at hget
      refine Or.inl ⟨fun hdrops => ?_, fun c k => (hget c k).trans (if_neg nofun)⟩
      have hok := hdrops.2.2
      rw [h] at hok
      cases hok
    · next db h =>
      have hexec : (DocCall.exec f s.systemDb (.delete "users" username)).2 = .ok true :=
        congrArg Prod.snd h
      have hsome := (DocCall.oldDoc_of_exec _ hexec).2.1
      have hdrops : (Call.dropUser f cascade username).Drops s username :=
        ⟨rfl, hroot, by rw [h]⟩
      rw [h] at hget
      refine Or.inr ⟨hdrops, hsome, ?_⟩
      -- the service without the user
      let t : AuthService := { s with systemDb := db }
      have husers : ∀ u, t.user u = if username = u then none else s.user u := fun u =>
        (hget "users" u).trans (if_congr (by simp) rfl rfl)
      have hkeys : ∀ n, t.apiKey n = s.apiKey n := fun n => (hget "api_keys" n).trans
        (if_neg fun hn => absurd hn.2.1 (by decide))
      have hlookups : ∀ l, t.apiKeyLookup l = s.apiKeyLookup l := fun l =>
        (hget "api_key_lookup" l).trans (if_neg fun hl => absurd hl.2.1 (by decide))
      unfold deleteApiKeysForUser
      split
      · exact ⟨husers, fun n => Or.inl (hkeys n), fun l => Or.inl (hlookups l)⟩
      · have hdropped := dropApiKeys_spec cascade.batch t (t.apiKeysOf username)
        refine ⟨fun u => (hdropped.users u).trans (husers u), fun n => ?_, fun l => ?_⟩
        · rcases hdropped.keys n with hn | ⟨hmem, -, hn⟩
          · exact Or.inl (hn.trans (hkeys n))
          · obtain ⟨metadata, hstored, hown⟩ := mem_apiKeysOf.mp hmem
            exact Or.inr ⟨hn, metadata, (hkeys n).symm.trans hstored, hown⟩
        · rcases hdropped.lookups l with hl | ⟨hl, n, hmem, metadata, hstored, hid⟩
          · exact Or.inl (hl.trans (hlookups l))
          · obtain ⟨metadata', hstored', hown⟩ := mem_apiKeysOf.mp hmem
            obtain rfl := Option.some.inj (hstored.symm.trans hstored')
            exact Or.inr ⟨hl, n, metadata, (hkeys n).symm.trans hstored, hown, hid⟩

end KeyEffects

end AuthService

end StellarDb
