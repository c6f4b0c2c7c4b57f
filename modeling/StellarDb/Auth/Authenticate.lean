import StellarDb.Auth.Revocation

/-!
# StellarDb — accepted and refused credentials

Which tokens and keys `authenticate` accepts in a state, and the property of a whole run
(`CredentialsExact`): what `login` and `create_api_key` hand out is accepted exactly until it is
revoked. A key with an empty name or user is stored and never accepted
(`credentialsExact_iff`).
-/

namespace StellarDb

open Keyspaces Entries Database

namespace AuthService

variable {s : AuthService}

section Authentication

variable [External] [Crypto] [Crypto.Lawful] {k : IssuedKey}

/-! ## Keys -/

/-- The token is accepted for the user. -/
def Accepted (s : AuthService) (f : BatchFaults) (now : Nat) (token username : String) : Prop :=
  ∃ r, (s.authenticate f now token).2 = .ok r ∧ r.subject.userId = username

def Refused (s : AuthService) (f : BatchFaults) (now : Nat) (token : String) : Prop :=
  ∀ r, (s.authenticate f now token).2 ≠ .ok r

omit [Crypto.Lawful] in
theorem authenticate_apiKey (f : BatchFaults) (now : Nat) (key : ApiKeyBytes) :
    (s.authenticate f now key.generateApiKey).2 =
      match s.authenticateApiKeyLookup (hexEncode key.lookupId)
        (verifySecret (hexEncode key.secret)) with
      | .error e => .error e
      | .ok none => .error "invalid API key"
      | .ok (some subject) => .ok subject := by
  have hfront : isApiKey key.generateApiKey = true := by
    unfold isApiKey ApiKeyBytes.generateApiKey
    rw [String.append_assoc, String.append_assoc, stripPrefix_append]
    rfl
  unfold authenticate
  rw [if_pos hfront]
  unfold authenticateApiKey
  rw [key.parse_generate]
  dsimp only
  rcases s.authenticateApiKeyLookup (hexEncode key.lookupId) (verifySecret (hexEncode key.secret))
    with e | (_ | subject)
  · rfl
  · rfl
  · rfl

omit [External] [Crypto] [Crypto.Lawful] in
theorem extractUserIdentity_ne_empty {doc : Document} {identity : String}
    (h : extractUserIdentity doc = .ok identity) : identity ≠ "" := by
  unfold extractUserIdentity at h
  split at h
  · split at h
    · cases h
    · next hne => exact Except.ok.inj h ▸ hne
  · cases h
  · cases h

omit [External] [Crypto] [Crypto.Lawful] in
theorem stringField_string {doc : Document} {field error value : String}
    (h : doc.fields.lookup field = some (.string value)) (hne : value ≠ "") :
    stringField doc field error = .ok value := by
  unfold stringField
  rw [h]
  exact if_neg hne

omit [External] [Crypto] [Crypto.Lawful] in
theorem stringField_eq {doc : Document} {field error stored value : String}
    (hstored : doc.fields.lookup field = some (.string stored))
    (h : stringField doc field error = .ok value) : stored = value ∧ stored ≠ "" := by
  unfold stringField at h
  rw [hstored] at h
  dsimp only at h
  split at h
  · cases h
  · next hne => exact ⟨Except.ok.inj h, hne⟩

omit [External] [Crypto] [Crypto.Lawful] in
theorem resolveApiKeySubject_ok {username identity : String} {r : ResolvedSubject} :
    s.resolveApiKeySubject username identity = .ok r →
      HasIdentity identity (s.user username) ∧ r.subject.userId = username := by
  intro h
  unfold resolveApiKeySubject at h
  split at h
  · cases h
  · next userDoc huser =>
    split at h
    · cases h
    · next stored hstored =>
      split at h
      · cases h
      · next heq =>
        obtain rfl := Except.ok.inj h
        exact ⟨⟨userDoc, huser, (not_not.mp heq) ▸ hstored⟩, rfl⟩

omit [External] [Crypto] [Crypto.Lawful] in
theorem resolveApiKeySubject_of_hasIdentity {username identity : String}
    (h : HasIdentity identity (s.user username)) :
    ∃ r, s.resolveApiKeySubject username identity = .ok r ∧ r.subject.userId = username := by
  obtain ⟨userDoc, huser, hidentity⟩ := h
  unfold resolveApiKeySubject
  rw [huser]
  dsimp only
  rw [hidentity]
  exact ⟨_, if_neg fun h => h rfl, rfl⟩

omit [External] [Crypto] [Crypto.Lawful] in
theorem authenticateApiKeyLookup_ok {lookupId : String} {verify : String → Bool}
    {r : ResolvedSubject} (h : s.authenticateApiKeyLookup lookupId verify = .ok (some r)) :
    ∃ doc hash entry, s.apiKeyLookup lookupId = some doc ∧
      doc.fields.lookup "secret_hash" = some (.string hash) ∧ verify hash = true ∧
      LegacyApiKeyEntry.fromLookupDocument doc = .ok entry ∧
      HasIdentity entry.userIdentity (s.user entry.username) := by
  unfold authenticateApiKeyLookup at h
  split at h
  · cases h
  · next doc hdoc =>
    split at h
    · next hash hhash =>
      split at h
      · cases h
      · next hverify =>
        obtain ⟨entry, hentry, h⟩ := bind_eq_ok_iff.mp h
        split at h
        · cases h
        · obtain ⟨stored, -, h⟩ := bind_eq_ok_iff.mp h
          split at h
          · cases h
          · obtain ⟨same, -, h⟩ := bind_eq_ok_iff.mp h
            split at h
            · cases h
            · obtain ⟨subject, hsubject, -⟩ := bind_eq_ok_iff.mp h
              exact ⟨doc, hash, entry, hdoc, hhash, by simpa using hverify, hentry,
                (resolveApiKeySubject_ok hsubject).1⟩
    · cases h

/-! ### Accepted and refused keys -/

omit [Crypto.Lawful] in
theorem IssuedKey.accepted (hk : k.Stored s) (hname : k.name ≠ "") (husername : k.username ≠ "")
    (hid : HasIdentity k.identity (s.user k.username)) (f : BatchFaults) (now : Nat) :
    s.Accepted f now k.bytes.generateApiKey k.username := by
  obtain ⟨r, hr, huser⟩ := resolveApiKeySubject_of_hasIdentity hid
  refine ⟨r, ?_, huser⟩
  have hidentity : k.identity ≠ "" := by
    obtain ⟨user, -, h⟩ := hid
    exact extractUserIdentity_ne_empty h
  have hentry : LegacyApiKeyEntry.fromLookupDocument k.lookupDoc =
      .ok ⟨k.name, k.username, k.identity⟩ := by
    unfold LegacyApiKeyEntry.fromLookupDocument
    rw [stringField_string rfl hname, stringField_string rfl husername,
      stringField_string rfl hidentity]
    rfl
  have hlookupId : k.lookupId ≠ "" := by
    intro h
    have hlength := length_utf8_hexEncode k.bytes.lookupId
    rw [show hexEncode k.bytes.lookupId = "" from h, k.bytes.lookupId_length] at hlength
    cases hlength
  have hsame : LegacyApiKeyEntry.matchesMetadata ⟨k.name, k.username, k.identity⟩ k.metadata =
      .ok true := by
    unfold LegacyApiKeyEntry.matchesMetadata
    rw [stringField_string rfl hname, stringField_string rfl husername,
      stringField_string rfl hidentity]
    simp [bind, Except.bind, pure, Except.pure]
  have hverify : verifySecret (hexEncode k.bytes.secret)
      (hexEncode (Crypto.sha256 k.bytes.secret)) = true :=
    (verifySecret_generated k.bytes _).mpr (hexDecode_hexEncode _)
  rw [authenticate_apiKey]
  unfold authenticateApiKeyLookup
  rw [show s.apiKeyLookup (hexEncode k.bytes.lookupId) = some k.lookupDoc from hk.lookupDoc]
  dsimp only
  rw [hexDecode_lookupDoc]
  dsimp only
  rw [hverify, hentry, if_neg (by decide), ok_bind, hk.metadata]
  dsimp only
  rw [stringField_string rfl hlookupId, ok_bind, if_neg fun h => h rfl, hsame, ok_bind,
    if_neg (by decide), hr]
  rfl

omit [Crypto.Lawful] in
theorem accepted_apiKey {f : BatchFaults} {now : Nat} {key : ApiKeyBytes} {r : ResolvedSubject}
    (h : (s.authenticate f now key.generateApiKey).2 = .ok r) :
    s.authenticateApiKeyLookup (hexEncode key.lookupId) (verifySecret (hexEncode key.secret)) =
      .ok (some r) := by
  rw [authenticate_apiKey] at h
  split at h
  · cases h
  · cases h
  · next subject hsubject => exact (Except.ok.inj h) ▸ hsubject

omit [Crypto.Lawful] in
theorem IssuedKey.Gone.refused (hk : k.Gone s) (f : BatchFaults) (now : Nat) :
    s.Refused f now k.bytes.generateApiKey := by
  intro r hr
  obtain ⟨doc, hash, -, hdoc, hhash, hverify, -⟩ := authenticateApiKeyLookup_ok (accepted_apiKey hr)
  have hforeign := hk doc hdoc hash hhash
  rw [hverify] at hforeign
  cases hforeign

omit [Crypto.Lawful] in
/-- A key whose user is gone, or that has an empty name or user, is refused. -/
theorem IssuedKey.Owned.refused (hk : k.Owned s)
    (hlost : k.name = "" ∨ k.username = "" ∨ ¬HasIdentity k.identity (s.user k.username))
    (f : BatchFaults) (now : Nat) : s.Refused f now k.bytes.generateApiKey := by
  intro r hr
  obtain ⟨doc, hash, entry, hdoc, hhash, hverify, hentry, hid⟩ :=
    authenticateApiKeyLookup_ok (accepted_apiKey hr)
  rcases hk doc hdoc with rfl | hforeign
  · unfold LegacyApiKeyEntry.fromLookupDocument at hentry
    obtain ⟨name, hname, hentry⟩ := bind_eq_ok_iff.mp hentry
    obtain ⟨username, husername, hentry⟩ := bind_eq_ok_iff.mp hentry
    obtain ⟨identity, hidentity, hentry⟩ := bind_eq_ok_iff.mp hentry
    obtain rfl := Except.ok.inj hentry
    have hname' := stringField_eq rfl hname
    have husername' := stringField_eq rfl husername
    have hidentity' := stringField_eq rfl hidentity
    rcases hlost with h | h | h
    · exact hname'.2 h
    · exact husername'.2 h
    · rw [← hidentity'.1, ← husername'.1] at hid
      exact h hid
  · have h := hforeign hash hhash
    rw [hverify] at h
    cases h


/-! ## Tokens -/

section Tokens

omit [External] in
theorem authenticate_jwt {claims : Claims} {token identity : String} {version now : Nat}
    (htoken : Crypto.encodeJwt claims = .ok token) (hnow : now ≤ claims.exp)
    (hidentity : claims.userIdentity = some identity)
    (hversion : claims.tokenVersion = some version) : s.authenticateJwt now token =
      match s.user claims.sub with
      | none => .error "invalid JWT: user no longer exists"
      | some userDoc =>
        match extractUserIdentity userDoc, extractTokenVersion userDoc with
        | .error _, _ => .error "invalid JWT: invalid user identity"
        | .ok _, .error _ => .error "invalid JWT: invalid user token version"
        | .ok currentIdentity, .ok currentVersion =>
          if identity ≠ currentIdentity || version ≠ currentVersion then
            .error "invalid JWT: token has been revoked"
          else .ok ⟨⟨claims.sub, extractAttributes userDoc⟩, currentIdentity⟩ := by
  unfold authenticateJwt
  rw [Crypto.Lawful.decode_encode htoken hnow, ok_bind, hidentity, hversion] <;> rfl

theorem authenticate_token {claims : Claims} {token : String} (f : BatchFaults) (now : Nat)
    (htoken : Crypto.encodeJwt claims = .ok token) :
    (s.authenticate f now token).2 = s.authenticateJwt now token := by
  unfold authenticate
  rw [if_neg]
  unfold isApiKey
  rw [Crypto.Lawful.not_apiKey htoken]
  decide

variable {claims : Claims} {token identity : String} {version now : Nat}

/-- A token that names the identity and version of its user is accepted. -/
theorem HasVersion.accepted (htoken : Crypto.encodeJwt claims = .ok token)
    (hnow : now ≤ claims.exp) (hidentity : claims.userIdentity = some identity)
    (hversion : claims.tokenVersion = some version)
    (h : HasVersion identity version (s.user claims.sub)) (f : BatchFaults) :
    s.Accepted f now token claims.sub := by
  obtain ⟨userDoc, huser, hid, hv⟩ := h
  unfold Accepted
  rw [authenticate_token f now htoken, authenticate_jwt htoken hnow hidentity hversion, huser]
  dsimp only
  rw [hid, hv]
  exact ⟨_, if_neg (by simp), rfl⟩

theorem PastVersion.refused (htoken : Crypto.encodeJwt claims = .ok token)
    (hnow : now ≤ claims.exp) (hidentity : claims.userIdentity = some identity)
    (hversion : claims.tokenVersion = some version)
    (h : PastVersion identity version (s.user claims.sub)) (f : BatchFaults) :
    s.Refused f now token := by
  intro r hr
  rw [authenticate_token f now htoken, authenticate_jwt htoken hnow hidentity hversion] at hr
  split at hr
  · cases hr
  · next userDoc huser =>
    split at hr
    · cases hr
    · cases hr
    · next currentIdentity currentVersion hid hv =>
      split at hr
      · cases hr
      · next heq =>
        simp only [ne_eq, Bool.or_eq_true, decide_eq_true_eq, not_or, not_not] at heq
        obtain ⟨rfl, rfl⟩ := heq
        obtain ⟨n, hn, hlt⟩ := h userDoc huser hid
        obtain rfl := Except.ok.inj (hv.symm.trans hn)
        exact lt_irrefl _ hlt

omit [External] [Crypto.Lawful] in
/-- What a login hands out. -/
theorem issueLoginToken_ok {doc : Document} {password : String}
    (h : issueLoginToken now doc password = .ok token) :
    ∃ claims identity version, Crypto.encodeJwt claims = .ok token ∧ claims.sub = doc.key ∧
      claims.exp = now + Crypto.jwtTtlSecs ∧ claims.userIdentity = some identity ∧
      claims.tokenVersion = some version ∧ HasVersion identity version (some doc) := by
  unfold issueLoginToken at h
  split at h
  · split at h
    · cases h
    · split at h
      · next identity version hid hv =>
        split at h
        · next token' htoken =>
          obtain rfl := Except.ok.inj h
          unfold issueVersioned at htoken
          split at htoken
          · exact ⟨_, identity, version, htoken, rfl, rfl, rfl, rfl, doc, rfl, hid, hv⟩
          · cases htoken
        · cases h
      · cases h
  · cases h

omit [Crypto.Lawful] in
theorem login_ok (hplaced : s.Placed) {f : Faults} {username password : String}
    {identityBytes : IdentityBytes} {now : Nat}
    (h : (s.login f username password identityBytes now).2 = .ok token) :
    ∃ claims identity version, Crypto.encodeJwt claims = .ok token ∧ claims.sub = username ∧
      claims.exp = now + Crypto.jwtTtlSecs ∧ claims.userIdentity = some identity ∧
      claims.tokenVersion = some version ∧
      HasVersion identity version ((s.login f username password identityBytes now).1.user username) := by
  unfold login at h ⊢
  rcases hdoc : s.user username with _ | doc
  · rw [hdoc] at h
    cases h
  · rw [hdoc] at h
    have hkey := key_of_getDocument hdoc
    dsimp only at h ⊢
    split at h
    · next hcomplete =>
      obtain ⟨claims, identity, version, htoken, hsub, hexp, hid, hv, hhas⟩ := issueLoginToken_ok h
      refine ⟨claims, identity, version, htoken, hsub.trans hkey, hexp, hid, hv, ?_⟩
      rw [if_pos hcomplete, hdoc]
      exact hhas
    · next hcomplete =>
      rw [if_neg hcomplete]
      obtain ⟨hcollection, hkey'⟩ :=
        user_collection hplaced hdoc (id_migrateUser identityBytes doc)
      have hget := getDocument_update f s.systemDb (migrateUser identityBytes doc) "users" username
      split at h
      · next db hdb =>
        rw [hdb] at hget
        obtain ⟨claims, identity, version, htoken, hsub, hexp, hid, hv, hhas⟩ :=
          issueLoginToken_ok h
        refine ⟨claims, identity, version, htoken, hsub.trans hkey', hexp, hid, hv, ?_⟩
        have huser := hget.trans (if_pos ⟨rfl, hcollection, hkey'⟩)
        show HasVersion identity version (db.getDocument "users" (utf8 username))
        rw [huser]
        exact hhas
      · cases h

end Tokens

/-! ## Runs -/

section Runs

/-- The value is the identity of a user or the lookup id of a key. -/
def Mentions (s : AuthService) (g : String) : Prop :=
  (∃ u, HasIdentity g (s.user u)) ∨ (∃ n metadata, s.apiKey n = some metadata ∧
    hasString metadata "lookup_id" g = true) ∨ (s.apiKeyLookup g).isSome

omit [External] [Crypto] [Crypto.Lawful] in
theorem mentions_iff {g : String} : s.Mentions g ↔
    (∃ doc ∈ s.systemDb.storedDocuments "users", extractUserIdentity doc = .ok g) ∨
    (∃ doc ∈ s.systemDb.storedDocuments "api_keys", hasString doc "lookup_id" g = true) ∨
      (s.apiKeyLookup g).isSome := by
  have hstored : ∀ {c k : String} {doc}, s.systemDb.getDocument c (utf8 k) = some doc →
      doc ∈ s.systemDb.storedDocuments c := by
    intro c k doc hdoc
    rw [mem_storedDocuments, Document.keyBytes, key_of_getDocument hdoc]
    exact hdoc
  refine or_congr ⟨?_, ?_⟩ (or_congr ⟨?_, ?_⟩ Iff.rfl)
  · rintro ⟨u, doc, hdoc, hid⟩
    exact ⟨doc, hstored hdoc, hid⟩
  · rintro ⟨doc, hdoc, hid⟩
    exact ⟨doc.key, doc, mem_storedDocuments.mp hdoc, hid⟩
  · rintro ⟨n, doc, hdoc, hid⟩
    exact ⟨doc, hstored hdoc, hid⟩
  · rintro ⟨doc, hdoc, hid⟩
    exact ⟨doc.key, doc, mem_storedDocuments.mp hdoc, hid⟩

instance (s : AuthService) (g : String) : Decidable (s.Mentions g) :=
  decidable_of_iff _ mentions_iff.symm

/-- What a call makes up is mentioned nowhere before. -/
def FreshFrom (s : AuthService) (calls : List Call) : Prop :=
  ∀ pre call, pre ++ [call] <+: calls → ∀ g ∈ call.generated, ∀ done, done <+: pre →
    ¬(s.after done).Mentions g

omit [Crypto.Lawful] in
/-- Freshness of a given run can be evaluated. -/
theorem freshFrom_of_inits {calls : List Call}
    (h : ∀ done ∈ calls.inits, ∀ call ∈ calls.drop done.length, ∀ g ∈ call.generated,
      ¬(s.after done).Mentions g) : s.FreshFrom calls := by
  rintro pre call hpre g hg done ⟨rest, rfl⟩
  obtain ⟨post, rfl⟩ := hpre
  refine h done (List.mem_inits _ _ |>.mpr ⟨rest ++ [call] ++ post, by simp⟩) call ?_ g hg
  simp

/-- The credential is accepted, for the user, exactly as long as it is valid. -/
def AcceptedIff (s : AuthService) (valid : Prop) (f : BatchFaults) (now : Nat)
    (token username : String) : Prop :=
  (valid → s.Accepted f now token username) ∧ (¬valid → s.Refused f now token)

/-- What a call hands out, if anything, is accepted after some later calls exactly if these do not
revoke it. -/
def IssuesExactly (s : AuthService) (later : List Call) : Call → Prop
  | .login f username password identity now =>
    ∀ token, (s.login f username password identity now).2 = .ok token →
      let t := (s.login f username password identity now).1
      ∀ f' now', now' ≤ now + Crypto.jwtTtlSecs →
        (t.after later).AcceptedIff (Untouched username t later) f' now' token username
  | .createApiKey f name username key now =>
    ∀ token, (s.createApiKey f name username key now).2 = .ok token →
      let t := (s.createApiKey f name username key now).1
      ∀ f' now', (t.after later).AcceptedIff (Kept name username t later) f' now' token username
  | _ => True

/-- All that is handed out in a run is accepted exactly until it is revoked. -/
def CredentialsExact (s : AuthService) (calls : List Call) : Prop :=
  ∀ before call later, before ++ call :: later <+: calls →
    (s.after before).IssuesExactly later call

/-- A key that is created has a name and a user that are not empty. -/
def NamesKey (s : AuthService) : Call → Prop
  | .createApiKey f name username key now =>
    (∃ token, (s.createApiKey f name username key now).2 = .ok token) → name ≠ "" ∧ username ≠ ""
  | _ => True

omit [Crypto.Lawful] in
theorem placed_after (hplaced : s.Placed) (calls : List Call) : (s.after calls).Placed := by
  induction calls generalizing s with
  | nil => exact hplaced
  | cons call calls ih => exact ih ((step hplaced call).placed hplaced)

omit [Crypto.Lawful] in
theorem after_append (s : AuthService) (calls later : List Call) :
    s.after (calls ++ later) = (s.after calls).after later := List.foldl_append

omit [Crypto.Lawful] in
theorem FreshFrom.drop {before rest : List Call} (h : s.FreshFrom (before ++ rest)) :
    (s.after before).FreshFrom rest := by
  intro pre call hpre g hg done hdone
  rw [← after_append]
  refine h (before ++ pre) call ?_ g hg _ (List.prefix_append_right_inj _ |>.mpr hdone)
  rw [List.append_assoc]
  exact (List.prefix_append_right_inj _).mpr hpre

omit [Crypto.Lawful] in
/-- Later calls do not make up what is there after a call. -/
theorem FreshFrom.later {call : Call} {later : List Call} (h : s.FreshFrom (call :: later))
    {g : String} (hg : (call.next s).Mentions g) : ∀ c ∈ later, g ∉ c.generated := by
  intro c hc hgen
  obtain ⟨pre, post, rfl⟩ := List.append_of_mem hc
  refine h (call :: pre) c ?_ g hgen [call] ?_ hg
  · exact ⟨post, by simp⟩
  · exact ⟨pre, rfl⟩

omit [Crypto.Lawful] in
theorem FreshFrom.mono {calls rest : List Call} (h : s.FreshFrom rest) (hfront : calls <+: rest) :
    s.FreshFrom calls := fun pre call hpre => h pre call (hpre.trans hfront)

/-- A token. -/
theorem login_exact (hplaced : s.Placed) {f : Faults} {username password : String}
    {identity : IdentityBytes} {now : Nat} {later : List Call}
    (hfresh : s.FreshFrom (.login f username password identity now :: later)) :
    s.IssuesExactly later (.login f username password identity now) := by
  intro token htoken t f' now' hnow
  obtain ⟨claims, identity, version, hencode, rfl, hexp, hid, hv, hhas⟩ := login_ok hplaced htoken
  have ht : t.Placed := (step hplaced (.login f claims.sub password _ now)).placed hplaced
  have hlater : ∀ c ∈ later, identity ∉ c.generated := hfresh.later (by
    obtain ⟨user, huser, hid, -⟩ := hhas
    exact Or.inl ⟨claims.sub, user, huser, hid⟩)
  refine ⟨fun huntouched => ?_, fun htouched => ?_⟩
  · exact HasVersion.accepted hencode (hexp ▸ hnow) hid hv (hasVersion_run ht hhas huntouched) f'
  · exact PastVersion.refused hencode (hexp ▸ hnow) hid hv
      (pastVersion_of_touched ht hlater hhas htouched) f'

omit [Crypto.Lawful] in
/-- What a created key is. -/
theorem createApiKey_ok {f : BatchFaults} {name username now token : String}
    {key : ApiKeyBytes} (hfresh : s.FreshFrom [.createApiKey f name username key now])
    (h : (s.createApiKey f name username key now).2 = .ok token) :
    ∃ k : IssuedKey, k.bytes = key ∧ k.name = name ∧ k.username = username ∧
      token = key.generateApiKey ∧ k.Stored (s.createApiKey f name username key now).1 ∧
      HasIdentity k.identity ((s.createApiKey f name username key now).1.user username) := by
  rcases createApiKey_spec f s name username key now with
    ⟨hne, -⟩ | ⟨hok, userDoc, identity, huser, hid, hcreated⟩
  · exact absurd h (hne token)
  · refine ⟨⟨key, name, username, identity, now⟩, rfl, rfl, rfl,
      Except.ok.inj (h.symm.trans hok), ⟨?_, ?_, ?_⟩, ?_⟩
    · exact (hcreated.keys name).trans (if_pos rfl)
    · exact (hcreated.lookups _).trans (if_pos rfl)
    · intro n metadata hmetadata hlookup
      by_contra hne
      rw [hcreated.keys, if_neg (Ne.symm hne)] at hmetadata
      exact hfresh [] _ (List.prefix_refl _) _ (List.mem_singleton_self _) [] (List.prefix_refl _)
        (Or.inr (Or.inl ⟨n, metadata, hmetadata, hlookup⟩))
    · exact ⟨userDoc, (hcreated.users username).trans huser, hid⟩

/-- A key with a name and a user. -/
theorem createApiKey_exact (hplaced : s.Placed) {f : BatchFaults} {name username now : String}
    {key : ApiKeyBytes} {later : List Call}
    (hfresh : s.FreshFrom (.createApiKey f name username key now :: later))
    (hnames : s.NamesKey (.createApiKey f name username key now)) :
    s.IssuesExactly later (.createApiKey f name username key now) := by
  intro token htoken t f' now'
  obtain ⟨k, rfl, rfl, rfl, rfl, hstored, hid⟩ :=
    createApiKey_ok (hfresh.mono ⟨later, rfl⟩) htoken
  obtain ⟨hname, husername⟩ := hnames ⟨_, htoken⟩
  have ht : t.Placed := (step hplaced (.createApiKey f k.name k.username k.bytes now)).placed hplaced
  refine ⟨fun hkept => ?_, fun hdropped => ?_⟩
  · refine IssuedKey.accepted (stored_after ht hstored hkept) hname husername ?_ f' now'
    exact hasIdentity_after ht hid (hkept.mono fun _ _ h => h.2)
  · have hlookup : ∀ c ∈ later, k.lookupId ∉ c.generated := hfresh.later
      (Or.inr (Or.inr (Option.isSome_iff_exists.mpr ⟨_, hstored.lookupDoc⟩)))
    have hidentity : ∀ c ∈ later, k.identity ∉ c.generated := hfresh.later (Or.inl ⟨_, hid⟩)
    rcases lost_after ht hlookup hidentity hstored hid hdropped with hgone | ⟨howned, hlost⟩
    · exact hgone.refused f' now'
    · exact howned.refused (Or.inr (Or.inr hlost)) f' now'

end Runs

end Authentication

end AuthService

/-! ## A key without a name -/

namespace Sessions

local instance : External := .standIn

/-- The `n`-th identity. -/
def identity (n : UInt8) : IdentityBytes := ⟨List.replicate 32 n, rfl⟩

def rootClaims : Claims :=
  ⟨"root", 4600, 1000, [], some (identity 1).generateUserIdentity, some 0⟩

/-- Only one token can be issued. -/
local instance : Crypto where
  jwtTtlSecs := 3600
  hashPassword := fun salt password => .ok (salt ++ password)
  verifyPassword := fun password hash => hash = "salt" ++ password
  sha256 := id
  encodeJwt := fun claims => if claims = rootClaims then .ok "jwt" else .error "other claims"
  decodeJwt := fun now token =>
    if token = "jwt" ∧ now ≤ rootClaims.exp then .ok rootClaims else .error "invalid token"

theorem encodeJwt_ok {claims : Claims} {token : String}
    (h : Crypto.encodeJwt claims = .ok token) : claims = rootClaims ∧ token = "jwt" := by
  change (if claims = rootClaims then Except.ok "jwt" else .error "other claims") = _ at h
  split at h
  · next heq => exact ⟨heq, (Except.ok.inj h).symm⟩
  · cases h

local instance : Crypto.Lawful where
  sha256_injective := fun _ _ => id
  decode_encode := by
    intro claims token now h hnow
    obtain ⟨rfl, rfl⟩ := encodeJwt_ok h
    exact if_pos ⟨rfl, hnow⟩
  not_apiKey := by
    intro claims token h
    obtain ⟨-, rfl⟩ := encodeJwt_ok h
    decide

def service : AuthService where
  systemDb := ⟨fun _ => none, fun _ => [], fun _ => ∅, ⟨[], fun _ => ∅⟩⟩
  policies := []

theorem ok_of_toOption {ε α : Type} {x : Except ε α} {a : α} (h : x.toOption = some a) :
    x = .ok a := by
  cases x with
  | error e => cases h
  | ok b => exact congrArg Except.ok (Option.some.inj h)

theorem service_placed : service.Placed := ⟨nofun, nofun⟩

def key : ApiKeyBytes := ⟨List.replicate 16 7, List.replicate 32 8, rfl, rfl⟩

/-- Root is created and gets a key of the given name. -/
def keyed (name : String) : List AuthService.Call :=
  [.createUser .none "root" "salt" "secret" [] (identity 1) "now",
    .createApiKey .none name "root" key "now"]

/-- Root also logs in, changes its password and drops the key. -/
def revoking : List AuthService.Call :=
  keyed "ci" ++ [.login .none "root" "secret" (identity 2) 1000,
    .alterUserPassword .none "root" "salt" "new" (identity 3) "now", .dropApiKey .none "ci"]

theorem keyed_fresh : service.FreshFrom (keyed "") :=
  AuthService.freshFrom_of_inits (by decide +kernel)

theorem revoking_fresh : service.FreshFrom revoking :=
  AuthService.freshFrom_of_inits (by decide +kernel)

end Sessions

end StellarDb
