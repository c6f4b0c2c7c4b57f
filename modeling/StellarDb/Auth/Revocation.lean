import StellarDb.Auth.CredentialCalls
import StellarDb.Lib.Run

/-!
# StellarDb — revoked credentials

A token is accepted as long as the stored identity and version are those it names: the version
never goes back, and a new user has a new identity. A key is accepted as long as its two documents
are stored and its user has the identity they name.

`step` says what a call does, whatever the call is. From it come the step lemmas about one user
(`UserEffect`) and one key (`Step.stored`, `Step.gone`, `Step.owned`), and from these what holds
after a run.
-/

namespace StellarDb

open Keyspaces Entries Database

namespace AuthService

variable {s : AuthService}

/-! ## Steps -/

section Steps

variable [External] [Crypto]

omit [External] [Crypto] in
theorem SameDocs.placed {t : AuthService} (h : SameDocs s t) (hplaced : s.Placed) : t.Placed :=
  ⟨fun u doc hdoc => hplaced.users u doc ((h _ _).symm.trans hdoc),
    fun n doc hdoc => hplaced.keys n doc ((h _ _).symm.trans hdoc)⟩

omit [External] [Crypto] in
theorem PutsUser.user {t : AuthService} {username : String} {new : Document}
    (h : PutsUser s t username new) (u : String) :
    t.user u = if username = u then some new else s.user u :=
  (h.docs "users" u).trans (if_congr (and_iff_right rfl) rfl rfl)

omit [External] [Crypto] in
theorem PutsUser.keys {t : AuthService} {username : String} {new : Document}
    (h : PutsUser s t username new) : (∀ n, t.apiKey n = s.apiKey n) ∧
      ∀ l, t.apiKeyLookup l = s.apiKeyLookup l :=
  ⟨fun n => (h.docs "api_keys" n).trans (if_neg fun hn => absurd hn.1 (by decide)),
    fun l => (h.docs "api_key_lookup" l).trans (if_neg fun hl => absurd hl.1 (by decide))⟩

omit [External] [Crypto] in
theorem PutsUser.placed {t : AuthService} {username : String} {new : Document}
    (h : PutsUser s t username new) (hplaced : s.Placed) : t.Placed where
  users u doc hdoc := by
    rw [h.user] at hdoc
    split at hdoc
    · exact Option.some.inj hdoc ▸ h.collection
    · exact hplaced.users u doc hdoc
  keys n doc hdoc := hplaced.keys n doc ((h.keys.1 n).symm.trans hdoc)

/-- The call revokes nothing. -/
structure Call.Quiet (s : AuthService) (call : Call) : Prop where
  alters : ∀ u, ¬call.Alters s u
  drops : ∀ u, ¬call.Drops s u
  dropsKey : ∀ n, ¬call.DropsKey s n

/-- What a call does. -/
inductive Step (s : AuthService) (call : Call) (t : AuthService) : Prop
  | same (hquiet : call.Quiet s) (hdocs : SameDocs s t)
  | userCreated (username : String) (new : Document) (hquiet : call.Quiet s)
      (habsent : s.user username = none)
      (hidentity : ∃ g ∈ call.generated, extractUserIdentity new = .ok g)
      (hputs : PutsUser s t username new)
  | userMigrated (username : String) (old new : Document) (hquiet : call.Quiet s)
      (hstored : s.user username = some old) (hkeeps : Keeps call.generated old new)
      (hversion : extractTokenVersion new = extractTokenVersion old)
      (hputs : PutsUser s t username new)
  | userAltered (username : String) (old new : Document) (n : Nat)
      (halters : ∀ u, call.Alters s u ↔ u = username) (hdrops : ∀ u, ¬call.Drops s u)
      (hkeys : ∀ n, ¬call.DropsKey s n) (hstored : s.user username = some old)
      (hkeeps : Keeps call.generated old new) (hold : extractTokenVersion old = .ok n)
      (hnew : extractTokenVersion new = .ok (n + 1)) (hputs : PutsUser s t username new)
  | userDropped (username : String) (halters : ∀ u, ¬call.Alters s u)
      (hdrops : ∀ u, call.Drops s u ↔ u = username) (hkeys : ∀ n, ¬call.DropsKey s n)
      (hdropped : UserDropped s t username)
  | keyCreated (key : ApiKeyBytes) (name username identity now : String) (hquiet : call.Quiet s)
      (hgenerated : call.generated = [hexEncode key.lookupId])
      (hcreated : KeyCreated s t key name username identity now)
  | keyDropped (name : String) (metadata : Document) (halters : ∀ u, ¬call.Alters s u)
      (hdrops : ∀ u, ¬call.Drops s u) (hkeys : ∀ n, call.DropsKey s n ↔ n = name)
      (hdropped : KeyDropped s t name metadata)
  | keyMigrated (token name : String) (metadata new : Document) (hquiet : call.Quiet s)
      (hmigrated : KeyMigrated s t token name metadata new)

theorem step (hplaced : s.Placed) (call : Call) : Step s call (call.next s) := by
  cases call with
  | createUser f username salt password attributes identity now =>
    rcases createUser_spec f s username salt password attributes identity now with
      hdocs | ⟨new, habsent, hidentity, hputs⟩
    · exact .same ⟨fun _ => id, fun _ => id, fun _ => id⟩ hdocs
    · exact .userCreated username new ⟨fun _ => id, fun _ => id, fun _ => id⟩ habsent
        ⟨_, List.mem_singleton_self _, hidentity⟩ hputs
  | dropUser f cascade username =>
    rcases dropUser_spec f cascade s username with ⟨hdrops, hdocs⟩ | ⟨hdrops, -, hdropped⟩
    · refine .same ⟨fun _ => id, fun u hu => hdrops ?_, fun _ => id⟩ hdocs
      obtain rfl := hu.1
      exact hu
    · refine .userDropped username (fun _ => id) (fun u => ⟨fun hu => hu.1.symm, ?_⟩)
        (fun _ => id) hdropped
      rintro rfl
      exact hdrops
  | alterUser f username edit identity now =>
    rcases alterUser_spec hplaced f username edit identity now with
      ⟨hne, hdocs⟩ | ⟨hok, old, new, n, hstored, hkeeps, hold, hnew, hputs⟩
    · exact .same ⟨fun u hu => hne hu.2, fun _ => id, fun _ => id⟩ hdocs
    · exact .userAltered username old new n (fun u => ⟨fun hu => hu.1.symm, fun hu => ⟨hu.symm, hok⟩⟩)
        (fun _ => id) (fun _ => id) hstored hkeeps hold hnew hputs
  | alterUserPassword f username salt newPassword identity now =>
    rcases alterUserPassword_spec hplaced f username salt newPassword identity now with
      ⟨hne, hdocs⟩ | ⟨hok, old, new, n, hstored, hkeeps, hold, hnew, hputs⟩
    · exact .same ⟨fun u hu => hne hu.2, fun _ => id, fun _ => id⟩ hdocs
    · exact .userAltered username old new n (fun u => ⟨fun hu => hu.1.symm, fun hu => ⟨hu.symm, hok⟩⟩)
        (fun _ => id) (fun _ => id) hstored hkeeps hold hnew hputs
  | login f username password identity now =>
    rcases login_spec hplaced f username password identity now with
      hdocs | ⟨old, new, hstored, hkeeps, hversion, hputs⟩
    · exact .same ⟨fun _ => id, fun _ => id, fun _ => id⟩ hdocs
    · exact .userMigrated username old new ⟨fun _ => id, fun _ => id, fun _ => id⟩ hstored hkeeps
        hversion hputs
  | createApiKey f name username key now =>
    rcases createApiKey_spec f s name username key now with
      ⟨-, hdocs⟩ | ⟨-, userDoc, identity, -, -, hcreated⟩
    · exact .same ⟨fun _ => id, fun _ => id, fun _ => id⟩ hdocs
    · exact .keyCreated key name username identity now ⟨fun _ => id, fun _ => id, fun _ => id⟩ rfl
        hcreated
  | dropApiKey f name =>
    rcases dropApiKeyLocked_spec f s name with ⟨hne, hdocs⟩ | ⟨hok, metadata, hdropped⟩
    · exact .same ⟨fun _ => id, fun _ => id, fun n hn => hne (hn.1 ▸ hn.2)⟩ hdocs
    · refine .keyDropped name metadata (fun _ => id) (fun _ => id)
        (fun n => ⟨fun hn => hn.1.symm, fun hn => ⟨hn.symm, hok⟩⟩) hdropped
  | authenticate f now token =>
    rcases authenticate_spec hplaced f now token with hdocs | ⟨name, metadata, new, hmigrated⟩
    · exact .same ⟨fun _ => id, fun _ => id, fun _ => id⟩ hdocs
    · exact .keyMigrated token name metadata new ⟨fun _ => id, fun _ => id, fun _ => id⟩ hmigrated

theorem Step.placed {call : Call} {t : AuthService} (h : Step s call t) (hplaced : s.Placed) :
    t.Placed := by
  cases h with
  | same _ hdocs => exact hdocs.placed hplaced
  | userCreated username new _ _ _ hputs => exact hputs.placed hplaced
  | userMigrated username old new _ _ _ _ hputs => exact hputs.placed hplaced
  | userAltered username old new n _ _ _ _ _ _ _ hputs => exact hputs.placed hplaced
  | userDropped username _ _ _ hdropped =>
    refine ⟨fun u doc hdoc => ?_, fun n doc hdoc => ?_⟩
    · rw [hdropped.users] at hdoc
      split at hdoc
      · cases hdoc
      · exact hplaced.users u doc hdoc
    · rcases hdropped.keys n with hn | ⟨hn, -⟩
      · exact hplaced.keys n doc (hn.symm.trans hdoc)
      · rw [hn] at hdoc
        cases hdoc
  | keyCreated key name username identity now _ _ hcreated =>
    refine ⟨fun u doc hdoc => hplaced.users u doc ((hcreated.users u).symm.trans hdoc),
      fun n doc hdoc => ?_⟩
    rw [hcreated.keys] at hdoc
    split at hdoc
    · obtain rfl := Option.some.inj hdoc
      have hcolon : ':' ∉ "api_keys".toList := by decide
      exact Document.collection_of_id hcolon rfl
    · exact hplaced.keys n doc hdoc
  | keyDropped name metadata _ _ _ hdropped =>
    refine ⟨fun u doc hdoc => hplaced.users u doc ((hdropped.users u).symm.trans hdoc),
      fun n doc hdoc => ?_⟩
    rw [hdropped.keys] at hdoc
    split at hdoc
    · cases hdoc
    · exact hplaced.keys n doc hdoc
  | keyMigrated token name metadata new _ hmigrated =>
    refine ⟨fun u doc hdoc => hplaced.users u doc ((hmigrated.users u).symm.trans hdoc),
      fun n doc hdoc => ?_⟩
    rw [hmigrated.keys] at hdoc
    split at hdoc
    · exact Option.some.inj hdoc ▸ hmigrated.collection
    · exact hplaced.keys n doc hdoc

end Steps

/-! ## Tokens and identities -/

section Identities

variable [External] [Crypto] {username identity : String} {version : Nat}

/-- What a call does to the document of a user. -/
inductive UserEffect (s : AuthService) (call : Call) (username : String) :
    Option Document → Option Document → Prop
  | kept (doc) (halters : ¬call.Alters s username) (hdrops : ¬call.Drops s username) :
      UserEffect s call username doc doc
  | migrated (old new) (halters : ¬call.Alters s username) (hdrops : ¬call.Drops s username)
      (hkeeps : Keeps call.generated old new)
      (hversion : extractTokenVersion new = extractTokenVersion old) :
      UserEffect s call username (some old) (some new)
  | altered (old new n) (halters : call.Alters s username) (hdrops : ¬call.Drops s username)
      (hkeeps : Keeps call.generated old new) (hold : extractTokenVersion old = .ok n)
      (hnew : extractTokenVersion new = .ok (n + 1)) :
      UserEffect s call username (some old) (some new)
  | dropped (old) (hdrops : call.Drops s username) : UserEffect s call username old none
  | created (new) (hidentity : ∃ g ∈ call.generated, extractUserIdentity new = .ok g) :
      UserEffect s call username none (some new)

theorem Step.userEffect {call : Call} {t : AuthService} (h : Step s call t) (username : String) :
    UserEffect s call username (s.user username) (t.user username) := by
  have hkept : ∀ {doc}, ¬call.Alters s username → ¬call.Drops s username →
      doc = s.user username → UserEffect s call username (s.user username) doc := by
    intro doc halters hdrops heq
    rw [heq]
    exact .kept _ halters hdrops
  cases h with
  | same hquiet hdocs =>
    exact hkept (hquiet.alters username) (hquiet.drops username) (hdocs.users username)
  | userCreated u new hquiet habsent hidentity hputs =>
    rw [hputs.user]
    split
    · next hu =>
      rw [← hu, habsent]
      exact .created new hidentity
    · exact hkept (hquiet.alters username) (hquiet.drops username) rfl
  | userMigrated u old new hquiet hstored hkeeps hversion hputs =>
    rw [hputs.user]
    split
    · next hu =>
      rw [← hu, hstored]
      exact .migrated old new (hquiet.alters u) (hquiet.drops u) hkeeps hversion
    · exact hkept (hquiet.alters username) (hquiet.drops username) rfl
  | userAltered u old new n halters hdrops _ hstored hkeeps hold hnew hputs =>
    rw [hputs.user]
    split
    · next hu =>
      rw [← hu, hstored]
      exact .altered old new n ((halters u).mpr rfl) (hdrops u) hkeeps hold hnew
    · next hu =>
      exact hkept (fun h => hu ((halters username).mp h).symm) (hdrops username) rfl
  | userDropped u halters hdrops _ hdropped =>
    rw [hdropped.users]
    split
    · next hu => exact .dropped _ ((hdrops username).mpr hu.symm)
    · next hu =>
      exact hkept (halters username) (fun h => hu ((hdrops username).mp h).symm) rfl
  | keyCreated key name u identity now hquiet _ hcreated =>
    exact hkept (hquiet.alters username) (hquiet.drops username) (hcreated.users username)
  | keyDropped name metadata halters hdrops _ hdropped =>
    exact hkept (halters username) (hdrops username) (hdropped.users username)
  | keyMigrated token name metadata new hquiet hmigrated =>
    exact hkept (hquiet.alters username) (hquiet.drops username) (hmigrated.users username)

/-- The user has the identity. -/
def HasIdentity (identity : String) (doc : Option Document) : Prop :=
  ∃ user, doc = some user ∧ extractUserIdentity user = .ok identity

/-- The user has the identity and the version. -/
def HasVersion (identity : String) (version : Nat) (doc : Option Document) : Prop :=
  ∃ user, doc = some user ∧ extractUserIdentity user = .ok identity ∧
    extractTokenVersion user = .ok version

/-- There is no user with the identity, or it has a later version. -/
def PastVersion (identity : String) (version : Nat) (doc : Option Document) : Prop :=
  ∀ user, doc = some user → extractUserIdentity user = .ok identity →
    ∃ n, extractTokenVersion user = .ok n ∧ version < n

omit [External] [Crypto] in
theorem Keeps.identity_new {generated : List String} {old new : Document} (h : Keeps generated old new)
    (hold : extractUserIdentity old = .ok identity) : extractUserIdentity new = .ok identity := by
  rcases h with heq | ⟨hnone, -⟩
  · exact heq.trans hold
  · unfold extractUserIdentity at hold
    rw [hnone] at hold
    cases hold

omit [External] [Crypto] in
theorem Keeps.identity_old {generated : List String} {old new : Document}
    (h : Keeps generated old new) (hfresh : identity ∉ generated)
    (hnew : extractUserIdentity new = .ok identity) : extractUserIdentity old = .ok identity := by
  rcases h with heq | ⟨-, g, hg, hnew'⟩
  · exact heq.symm.trans hnew
  · rw [hnew] at hnew'
    exact absurd (Except.ok.inj hnew' ▸ hg) hfresh

namespace UserEffect

variable {call : Call} {before after : Option Document}

theorem hasIdentity (h : UserEffect s call username before after)
    (hdrops : ¬call.Drops s username) (hid : HasIdentity identity before) :
    HasIdentity identity after := by
  obtain ⟨user, rfl, hid⟩ := hid
  cases h with
  | kept => exact ⟨user, rfl, hid⟩
  | migrated _ new _ _ hkeeps _ => exact ⟨new, rfl, hkeeps.identity_new hid⟩
  | altered _ new _ _ _ hkeeps _ _ => exact ⟨new, rfl, hkeeps.identity_new hid⟩
  | dropped _ hdropped => exact absurd hdropped hdrops

theorem lacksIdentity_of_drops (h : UserEffect s call username before after)
    (hdrops : call.Drops s username) (hsome : before.isSome) : ¬HasIdentity identity after := by
  rintro ⟨user, rfl, -⟩
  cases h with
  | kept _ _ hne => exact hne hdrops
  | migrated _ _ _ hne _ _ => exact hne hdrops
  | altered _ _ _ _ hne _ _ _ => exact hne hdrops
  | created => cases hsome

theorem lacksIdentity (h : UserEffect s call username before after)
    (hfresh : identity ∉ call.generated) (hid : ¬HasIdentity identity before) :
    ¬HasIdentity identity after := by
  rintro ⟨user, rfl, hnew⟩
  cases h with
  | kept => exact hid ⟨user, rfl, hnew⟩
  | migrated old _ _ _ hkeeps _ => exact hid ⟨old, rfl, hkeeps.identity_old hfresh hnew⟩
  | altered old _ _ _ _ hkeeps _ _ => exact hid ⟨old, rfl, hkeeps.identity_old hfresh hnew⟩
  | created _ hidentity =>
    obtain ⟨g, hg, hgen⟩ := hidentity
    rw [hnew] at hgen
    exact hfresh (Except.ok.inj hgen ▸ hg)

theorem hasVersion (h : UserEffect s call username before after)
    (halters : ¬call.Alters s username) (hdrops : ¬call.Drops s username)
    (hversion : HasVersion identity version before) : HasVersion identity version after := by
  obtain ⟨user, rfl, hid, hversion⟩ := hversion
  cases h with
  | kept => exact ⟨user, rfl, hid, hversion⟩
  | migrated _ new _ _ hkeeps heq =>
    exact ⟨new, rfl, hkeeps.identity_new hid, heq.trans hversion⟩
  | altered _ _ _ hne _ _ _ _ => exact absurd hne halters
  | dropped _ hne => exact absurd hne hdrops

theorem pastVersion_of_revokes (h : UserEffect s call username before after)
    (hrevokes : call.Alters s username ∨ call.Drops s username)
    (hversion : HasVersion identity version before) : PastVersion identity version after := by
  obtain ⟨user, rfl, hid, hversion⟩ := hversion
  cases h with
  | kept _ halters hdrops => exact (hrevokes.elim halters hdrops).elim
  | migrated _ _ halters hdrops _ _ => exact (hrevokes.elim halters hdrops).elim
  | altered _ new n _ _ _ hold hnew =>
    intro user' heq _
    obtain rfl := Option.some.inj heq
    obtain rfl : version = n := Except.ok.inj (hversion.symm.trans hold)
    exact ⟨version + 1, hnew, Nat.lt_succ_self version⟩
  | dropped => exact nofun

/-- The version never goes back, and a new user has a new identity. -/
theorem pastVersion (h : UserEffect s call username before after)
    (hfresh : identity ∉ call.generated) (hpast : PastVersion identity version before) :
    PastVersion identity version after := by
  rintro user rfl hnew
  cases h with
  | kept => exact hpast user rfl hnew
  | migrated old _ _ _ hkeeps heq =>
    obtain ⟨n, hn, hlt⟩ := hpast old rfl (hkeeps.identity_old hfresh hnew)
    exact ⟨n, heq.trans hn, hlt⟩
  | altered old _ n _ _ hkeeps hold hnext =>
    obtain ⟨m, hm, hlt⟩ := hpast old rfl (hkeeps.identity_old hfresh hnew)
    obtain rfl : m = n := Except.ok.inj (hm.symm.trans hold)
    exact ⟨m + 1, hnext, Nat.lt_succ_of_lt hlt⟩
  | created _ hidentity =>
    obtain ⟨g, hg, hgen⟩ := hidentity
    rw [hnew] at hgen
    exact absurd (Except.ok.inj hgen ▸ hg) hfresh

end UserEffect

/-! ### Runs -/

/-- The service after some calls. -/
def after (s : AuthService) (calls : List Call) : AuthService := calls.foldl Call.next s

/-- No call alters or drops the user. -/
def Untouched (username : String) (s : AuthService) (calls : List Call) : Prop :=
  Runs.Meets Call.next (fun s call => ¬call.Alters s username ∧ ¬call.Drops s username) s calls

theorem hasVersion_run (hplaced : s.Placed) {calls : List Call}
    (hversion : HasVersion identity version (s.user username))
    (huntouched : Untouched username s calls) :
    HasVersion identity version ((s.after calls).user username) := by
  induction calls generalizing s with
  | nil => exact hversion
  | cons call calls ih =>
    have hstep := step hplaced call
    obtain ⟨⟨halters, hdrops⟩, hrest⟩ := huntouched
    exact ih (hstep.placed hplaced)
      ((hstep.userEffect username).hasVersion halters hdrops hversion) hrest

theorem pastVersion_run (hplaced : s.Placed) {calls : List Call}
    (hfresh : ∀ call ∈ calls, identity ∉ call.generated)
    (hpast : PastVersion identity version (s.user username)) :
    PastVersion identity version ((s.after calls).user username) := by
  induction calls generalizing s with
  | nil => exact hpast
  | cons call calls ih =>
    obtain ⟨hcall, hcalls⟩ := List.forall_mem_cons.mp hfresh
    have hstep := step hplaced call
    exact ih (hstep.placed hplaced) hcalls ((hstep.userEffect username).pastVersion hcall hpast)

/-- A run that touches the user leaves the version behind. -/
theorem pastVersion_of_touched (hplaced : s.Placed) {calls : List Call}
    (hfresh : ∀ call ∈ calls, identity ∉ call.generated)
    (hversion : HasVersion identity version (s.user username))
    (htouched : ¬Untouched username s calls) :
    PastVersion identity version ((s.after calls).user username) := by
  induction calls generalizing s with
  | nil => exact absurd trivial htouched
  | cons call calls ih =>
    obtain ⟨hcall, hcalls⟩ := List.forall_mem_cons.mp hfresh
    have hstep := step hplaced call
    have heffect := hstep.userEffect username
    by_cases hrevokes : call.Alters s username ∨ call.Drops s username
    · exact pastVersion_run (hstep.placed hplaced) hcalls
        (heffect.pastVersion_of_revokes hrevokes hversion)
    · push Not at hrevokes
      exact ih (hstep.placed hplaced) hcalls
        (heffect.hasVersion hrevokes.1 hrevokes.2 hversion) fun h => htouched ⟨hrevokes, h⟩

/-- A run that never drops the user leaves its identity. -/
theorem hasIdentity_after (hplaced : s.Placed) {calls : List Call}
    (hid : HasIdentity identity (s.user username))
    (hdrops : Runs.Meets Call.next (fun s call => ¬call.Drops s username) s calls) :
    HasIdentity identity ((s.after calls).user username) := by
  induction calls generalizing s with
  | nil => exact hid
  | cons call calls ih =>
    have hstep := step hplaced call
    exact ih (hstep.placed hplaced) ((hstep.userEffect username).hasIdentity hdrops.1 hid) hdrops.2

theorem lacksIdentity_after (hplaced : s.Placed) {calls : List Call}
    (hfresh : ∀ call ∈ calls, identity ∉ call.generated)
    (hid : ¬HasIdentity identity (s.user username)) :
    ¬HasIdentity identity ((s.after calls).user username) := by
  induction calls generalizing s with
  | nil => exact hid
  | cons call calls ih =>
    obtain ⟨hcall, hcalls⟩ := List.forall_mem_cons.mp hfresh
    have hstep := step hplaced call
    exact ih (hstep.placed hplaced) hcalls ((hstep.userEffect username).lacksIdentity hcall hid)

end Identities

/-! ## Keys -/

/-- A key that has been created. -/
structure IssuedKey where
  bytes : ApiKeyBytes
  name : String
  username : String
  identity : String
  now : String

namespace IssuedKey

def lookupId (k : IssuedKey) : String := hexEncode k.bytes.lookupId

def metadata (k : IssuedKey) : Document :=
  apiKeyMetadata k.name k.username k.lookupId k.identity k.now

def lookupDoc [Crypto] (k : IssuedKey) : Document :=
  apiKeyLookupDocument k.lookupId k.name k.username k.identity
    (hexEncode (Crypto.sha256 k.bytes.secret))

/-- The document is about another secret. -/
def Foreign [Crypto] (k : IssuedKey) (doc : Document) : Prop :=
  ∀ hash, doc.fields.lookup "secret_hash" = some (.string hash) →
    verifySecret (hexEncode k.bytes.secret) hash = false

/-- Both documents of the key are stored, and no other key has its lookup id. -/
structure Stored [Crypto] (k : IssuedKey) (s : AuthService) : Prop where
  metadata : s.apiKey k.name = some k.metadata
  lookupDoc : s.apiKeyLookup k.lookupId = some k.lookupDoc
  unique : ∀ n metadata, s.apiKey n = some metadata →
    hasString metadata "lookup_id" k.lookupId = true → n = k.name

/-- No document is found for the key. -/
def Gone [Crypto] (k : IssuedKey) (s : AuthService) : Prop :=
  ∀ doc, s.apiKeyLookup k.lookupId = some doc → k.Foreign doc

/-- The document found for the key is its own or not about its secret. -/
def Owned [Crypto] (k : IssuedKey) (s : AuthService) : Prop :=
  ∀ doc, s.apiKeyLookup k.lookupId = some doc → doc = k.lookupDoc ∨ k.Foreign doc

theorem Gone.owned [Crypto] {k : IssuedKey} (h : k.Gone s) : k.Owned s :=
  fun doc hdoc => Or.inr (h doc hdoc)

theorem Stored.owned [Crypto] {k : IssuedKey} (h : k.Stored s) : k.Owned s := by
  intro doc hdoc
  exact Or.inl (Option.some.inj (hdoc.symm.trans h.lookupDoc))

end IssuedKey

section Keys

variable [External] [Crypto] [Crypto.Lawful] {k : IssuedKey}

omit [External] [Crypto.Lawful] in
theorem hexDecode_lookupDoc (k : IssuedKey) :
    k.lookupDoc.fields.lookup "secret_hash" =
      some (.string (hexEncode (Crypto.sha256 k.bytes.secret))) := rfl

omit [External] in
/-- A key of the old format has another secret. -/
theorem legacy_foreign {token : String} (hlegacy : parseApiKey token = some .legacy)
    {doc : Document}
    (hdoc : doc.fields.lookup "secret_hash" = some (.string (hashLegacySecret token))) :
    k.Foreign doc := by
  intro hash hhash
  obtain rfl := Value.string.inj (Option.some.inj (hdoc.symm.trans hhash))
  refine Bool.eq_false_iff.mpr fun hverify => ?_
  have hdecode := (verifySecret_generated k.bytes _).mp hverify
  have hother := not_verifyLegacySecret hdecode hlegacy
  have hsame : verifyLegacySecret token (hashLegacySecret token) = true :=
    decide_eq_true (hexDecode_hexEncode _)
  rw [hsame] at hother
  cases hother

omit [External] in
/-- A migration is not about the key as long as it is stored. -/
theorem KeyMigrated.lookupId_ne {t : AuthService} {token name : String} {metadata new : Document}
    (h : KeyMigrated s t token name metadata new) (hk : k.Stored s) :
    legacyLookupId token ≠ k.lookupId := by
  intro heq
  have hverify := h.agrees k.lookupDoc _ (by rw [heq]; exact hk.lookupDoc) (hexDecode_lookupDoc k)
  have hother := not_verifyLegacySecret
    (hexDecode_hexEncode (Crypto.sha256 k.bytes.secret)) h.legacy
  rw [hverify] at hother
  cases hother

/-- What a call leaves of the lookup document of a key. -/
theorem Step.lookup {call : Call} {t : AuthService} (h : Step s call t)
    (hfresh : k.lookupId ∉ call.generated) :
    t.apiKeyLookup k.lookupId = s.apiKeyLookup k.lookupId ∨ k.Gone t := by
  have hnone : t.apiKeyLookup k.lookupId = none → k.Gone t := by
    intro hnone doc hdoc
    rw [hnone] at hdoc
    cases hdoc
  cases h with
  | same _ hdocs => exact Or.inl (hdocs _ _)
  | userCreated _ _ _ _ _ hputs => exact Or.inl (hputs.keys.2 _)
  | userMigrated _ _ _ _ _ _ _ hputs => exact Or.inl (hputs.keys.2 _)
  | userAltered _ _ _ _ _ _ _ _ _ _ _ hputs => exact Or.inl (hputs.keys.2 _)
  | userDropped _ _ _ _ hdropped => exact (hdropped.lookups _).imp id fun h => hnone h.1
  | keyCreated key name username identity now _ hgenerated hcreated =>
    refine Or.inl ((hcreated.lookups _).trans (if_neg fun heq => hfresh ?_))
    rw [hgenerated, heq]
    exact List.mem_singleton_self _
  | keyDropped name metadata _ _ _ hdropped =>
    have hl := hdropped.lookups k.lookupId
    split at hl
    · exact Or.inr (hnone hl)
    · exact Or.inl hl
  | keyMigrated token name metadata new _ hmigrated =>
    obtain ⟨doc, hhash, hl⟩ := hmigrated.lookups k.lookupId
    split at hl
    · refine Or.inr fun doc' hdoc' => ?_
      obtain rfl := Option.some.inj (hl.symm.trans hdoc')
      exact legacy_foreign hmigrated.legacy hhash
    · exact Or.inl hl

theorem Step.owned {call : Call} {t : AuthService} (h : Step s call t)
    (hfresh : k.lookupId ∉ call.generated) (hk : k.Owned s) : k.Owned t := by
  rcases h.lookup hfresh with heq | hgone
  · intro doc hdoc
    exact hk doc (heq.symm.trans hdoc)
  · exact hgone.owned

theorem Step.gone {call : Call} {t : AuthService} (h : Step s call t)
    (hfresh : k.lookupId ∉ call.generated) (hk : k.Gone s) : k.Gone t := by
  rcases h.lookup hfresh with heq | hgone
  · intro doc hdoc
    exact hk doc (heq.symm.trans hdoc)
  · exact hgone

omit [External] [Crypto] [Crypto.Lawful] in
theorem lookupId_metadata (k : IssuedKey) (l : String) :
    hasString k.metadata "lookup_id" l = decide (k.lookupId = l) := rfl

omit [Crypto.Lawful] in
/-- Dropping the key. -/
theorem Step.gone_of_drops {call : Call} {t : AuthService} (h : Step s call t)
    (hk : k.Stored s) (hdrops : call.DropsKey s k.name) : k.Gone t := by
  cases h with
  | keyDropped name metadata _ _ hkeys hdropped =>
    obtain rfl := (hkeys k.name).mp hdrops
    obtain rfl := Option.some.inj (hk.metadata.symm.trans hdropped.stored)
    intro doc hdoc
    rw [hdropped.lookups, lookupId_metadata, if_pos (decide_eq_true rfl)] at hdoc
    cases hdoc
  | same hquiet _ => exact absurd hdrops (hquiet.dropsKey _)
  | userCreated _ _ hquiet => exact absurd hdrops (hquiet.dropsKey _)
  | userMigrated _ _ _ hquiet => exact absurd hdrops (hquiet.dropsKey _)
  | userAltered _ _ _ _ _ _ hkeys => exact absurd hdrops (hkeys _)
  | userDropped _ _ _ hkeys => exact absurd hdrops (hkeys _)
  | keyCreated _ _ _ _ _ hquiet => exact absurd hdrops (hquiet.dropsKey _)
  | keyMigrated _ _ _ _ hquiet => exact absurd hdrops (hquiet.dropsKey _)

/-- Other calls leave the key. -/
theorem Step.stored {call : Call} {t : AuthService} (h : Step s call t) (hk : k.Stored s)
    (hkey : ¬call.DropsKey s k.name) (huser : ¬call.Drops s k.username) : k.Stored t := by
  have hsame : (∀ n, t.apiKey n = s.apiKey n) → (∀ l, t.apiKeyLookup l = s.apiKeyLookup l) →
      k.Stored t := fun hkeys hlookups =>
    ⟨(hkeys _).trans hk.metadata, (hlookups _).trans hk.lookupDoc, fun n metadata hmetadata =>
      hk.unique n metadata ((hkeys n).symm.trans hmetadata)⟩
  cases h with
  | same _ hdocs => exact hsame (hdocs _) (hdocs _)
  | userCreated _ _ _ _ _ hputs => exact hsame hputs.keys.1 hputs.keys.2
  | userMigrated _ _ _ _ _ _ _ hputs => exact hsame hputs.keys.1 hputs.keys.2
  | userAltered _ _ _ _ _ _ _ _ _ _ _ hputs => exact hsame hputs.keys.1 hputs.keys.2
  | userDropped u _ hdrops _ hdropped =>
    have hother : k.username ≠ u := fun heq => huser ((hdrops k.username).mpr heq)
    refine ⟨?_, ?_, fun n metadata hmetadata => ?_⟩
    · rcases hdropped.keys k.name with h | ⟨-, metadata, hstored, hown⟩
      · exact h.trans hk.metadata
      · obtain rfl := Option.some.inj (hk.metadata.symm.trans hstored)
        exact absurd (of_decide_eq_true hown) hother
    · rcases hdropped.lookups k.lookupId with h | ⟨-, n, metadata, hstored, hown, hid⟩
      · exact h.trans hk.lookupDoc
      · obtain rfl := hk.unique n metadata hstored hid
        obtain rfl := Option.some.inj (hk.metadata.symm.trans hstored)
        exact absurd (of_decide_eq_true hown) hother
    · rcases hdropped.keys n with h | ⟨hnone, -⟩
      · exact hk.unique n metadata (h.symm.trans hmetadata)
      · rw [hnone] at hmetadata
        cases hmetadata
  | keyCreated key name username identity now _ _ hcreated =>
    have hname : name ≠ k.name := by
      rintro rfl
      exact absurd (hk.metadata.symm.trans hcreated.newKey) (Option.some_ne_none _)
    have hlookup : hexEncode key.lookupId ≠ k.lookupId := by
      intro heq
      have hnone := hcreated.newLookup
      rw [heq, hk.lookupDoc] at hnone
      cases hnone
    refine ⟨?_, ?_, fun n metadata hmetadata hid => ?_⟩
    · rw [hcreated.keys, if_neg hname, hk.metadata]
    · rw [hcreated.lookups, if_neg hlookup, hk.lookupDoc]
    · rw [hcreated.keys] at hmetadata
      split at hmetadata
      · obtain rfl := Option.some.inj hmetadata
        exact absurd (of_decide_eq_true hid) hlookup
      · exact hk.unique n metadata hmetadata hid
  | keyDropped name metadata _ _ hkeys hdropped =>
    have hname : name ≠ k.name := fun heq => hkey ((hkeys k.name).mpr heq.symm)
    refine ⟨?_, ?_, fun n metadata' hmetadata hid => ?_⟩
    · rw [hdropped.keys, if_neg hname, hk.metadata]
    · rw [hdropped.lookups, if_neg fun hid => hname (hk.unique name metadata hdropped.stored hid),
        hk.lookupDoc]
    · rw [hdropped.keys] at hmetadata
      split at hmetadata
      · cases hmetadata
      · exact hk.unique n metadata' hmetadata hid
  | keyMigrated token name metadata new _ hmigrated =>
    have hlookup := hmigrated.lookupId_ne hk
    have hname : name ≠ k.name := by
      rintro rfl
      obtain rfl := Option.some.inj (hk.metadata.symm.trans hmigrated.stored)
      exact absurd hmigrated.keyHash Bool.false_ne_true
    refine ⟨?_, ?_, fun n metadata' hmetadata hid => ?_⟩
    · rw [hmigrated.keys, if_neg hname, hk.metadata]
    · obtain ⟨doc, -, hl⟩ := hmigrated.lookups k.lookupId
      rw [hl, if_neg hlookup, hk.lookupDoc]
    · rw [hmigrated.keys] at hmetadata
      split at hmetadata
      · obtain rfl := Option.some.inj hmetadata
        unfold hasString at hid
        rw [hmigrated.lookupId] at hid
        exact absurd (of_decide_eq_true hid) hlookup
      · exact hk.unique n metadata' hmetadata hid

/-! ### Runs -/

/-- No call drops the key or its user. -/
def Kept (name username : String) (s : AuthService) (calls : List Call) : Prop :=
  Runs.Meets Call.next (fun s call => ¬call.DropsKey s name ∧ ¬call.Drops s username) s calls

theorem stored_after (hplaced : s.Placed) {calls : List Call} (hk : k.Stored s)
    (hkept : Kept k.name k.username s calls) : k.Stored (s.after calls) := by
  induction calls generalizing s with
  | nil => exact hk
  | cons call calls ih =>
    have hstep := step hplaced call
    obtain ⟨⟨hkey, huser⟩, hrest⟩ := hkept
    exact ih (hstep.placed hplaced) (hstep.stored hk hkey huser) hrest

theorem owned_after (hplaced : s.Placed) {calls : List Call}
    (hfresh : ∀ call ∈ calls, k.lookupId ∉ call.generated) (hk : k.Owned s) :
    k.Owned (s.after calls) := by
  induction calls generalizing s with
  | nil => exact hk
  | cons call calls ih =>
    obtain ⟨hcall, hcalls⟩ := List.forall_mem_cons.mp hfresh
    have hstep := step hplaced call
    exact ih (hstep.placed hplaced) hcalls (hstep.owned hcall hk)

theorem gone_after (hplaced : s.Placed) {calls : List Call}
    (hfresh : ∀ call ∈ calls, k.lookupId ∉ call.generated) (hk : k.Gone s) :
    k.Gone (s.after calls) := by
  induction calls generalizing s with
  | nil => exact hk
  | cons call calls ih =>
    obtain ⟨hcall, hcalls⟩ := List.forall_mem_cons.mp hfresh
    have hstep := step hplaced call
    exact ih (hstep.placed hplaced) hcalls (hstep.gone hcall hk)

/-- A run that drops the key or its user leaves no way to the user. -/
theorem lost_after (hplaced : s.Placed) {calls : List Call}
    (hfresh : ∀ call ∈ calls, k.lookupId ∉ call.generated)
    (hnew : ∀ call ∈ calls, k.identity ∉ call.generated) (hk : k.Stored s)
    (hid : HasIdentity k.identity (s.user k.username))
    (hdropped : ¬Kept k.name k.username s calls) :
    k.Gone (s.after calls) ∨
      k.Owned (s.after calls) ∧ ¬HasIdentity k.identity ((s.after calls).user k.username) := by
  induction calls generalizing s with
  | nil => exact absurd trivial hdropped
  | cons call calls ih =>
    obtain ⟨hcall, hcalls⟩ := List.forall_mem_cons.mp hfresh
    obtain ⟨hcall', hcalls'⟩ := List.forall_mem_cons.mp hnew
    have hstep := step hplaced call
    have heffect := hstep.userEffect k.username
    by_cases hkey : call.DropsKey s k.name
    · exact Or.inl (gone_after (hstep.placed hplaced) hcalls (hstep.gone_of_drops hk hkey))
    · by_cases huser : call.Drops s k.username
      · have hsome : (s.user k.username).isSome := by
          obtain ⟨user, huser, -⟩ := hid
          rw [huser]
          rfl
        exact Or.inr ⟨owned_after (hstep.placed hplaced) hcalls (hstep.owned hcall hk.owned),
          lacksIdentity_after (hstep.placed hplaced) hcalls'
            (heffect.lacksIdentity_of_drops huser hsome)⟩
      · exact ih (hstep.placed hplaced) hcalls hcalls' (hstep.stored hk hkey huser)
          (heffect.hasIdentity huser hid) fun h => hdropped ⟨⟨hkey, huser⟩, h⟩

end Keys

end AuthService

end StellarDb
