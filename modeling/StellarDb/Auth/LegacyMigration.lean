import StellarDb.Auth.CredentialCalls

/-!
# StellarDb — keys of the old format (`auth/service.rs`)

A record of the old format has the hash of its key. At its first use, or at a start if an older
version has begun it, the key is migrated: the record gets a lookup id in place of the hash, the
lookup document names the record, and the record leaves the index of its hash. The index is built
at each start from the records that are not migrated.

This module has the two steps of a start, and what is written by a finished migration
(`finalize_finished`, `repairLookup_finished`), a drop (`dropApiKeyLocked_index`) and an entry of
the index (`upsertLegacyIndexEntry_spec`).
-/

namespace StellarDb

open Keyspaces Entries Database

/-- A record of the old format as an index entry. -/
def LegacyApiKeyEntry.fromLegacyMetadata (metadata : Document) : Option LegacyApiKeyEntry :=
  match metadata.fields.lookup "name", metadata.fields.lookup "username",
    metadata.fields.lookup "user_identity" with
  | some (.string name), some (.string username), some (.string userIdentity) =>
    if name = "" || username = "" || userIdentity = "" then none
    else some ⟨name, username, userIdentity⟩
  | _, _, _ => none

/-- The entry takes the place of the first one with its name, or comes last. -/
def upsertEntry (entry : LegacyApiKeyEntry) : List LegacyApiKeyEntry → List LegacyApiKeyEntry
  | [] => [entry]
  | e :: entries => if e.name = entry.name then entry :: entries else e :: upsertEntry entry entries

/-- A record with a lookup id in place of the hash of its key. -/
def migratedMetadata (metadata : Document) (lookupId : String) : Document :=
  (metadata.removeField "key_hash").insertField "lookup_id" (.string lookupId) (Value.wf_string _)

namespace AuthService

variable [External]

/-! ## The start -/

def upsertLegacyIndexEntry (f : BatchFaults) (s : AuthService) (legacyHash : String)
    (entry : LegacyApiKeyEntry) : AuthService × Except String Unit :=
  let entries :=
    match s.legacyIndex legacyHash with
    | some doc => legacyIndexEntries doc
    | none => .ok []
  match entries with
  | .error e => (s, .error e)
  | .ok entries =>
    match s.writeBatch f
      [.insertDoc (legacyIndexDocument legacyHash (upsertEntry entry entries))] with
    | (s, .ok ()) => (s, .ok ())
    | (s, .error _) => (s, .error "failed to persist legacy API key index")

/-- Finish the migration that a lookup document belongs to. -/
def repairLookup (f : BatchFaults) (s : AuthService) (lookup : Document) :
    AuthService × Except String Unit :=
  match LegacyApiKeyEntry.fromLookupDocument lookup with
  | .error _ => (s, .ok ())
  | .ok entry =>
    if !(match lookup.fields.lookup "secret_hash" with
        | some (.string hash) => hash ≠ ""
        | _ => false) then (s, .ok ())
    else
      match s.apiKey entry.name with
      | none => (s, .ok ())
      | some metadata =>
        match metadata.fields.lookup "lookup_id" with
        | some (.string existing) =>
          if existing = lookup.key then (s, .ok ())
          else (s, .error ("API key lookup collision during startup repair: metadata references '"
            ++ existing ++ "', lookup is '" ++ lookup.key ++ "'"))
        | some _ => (s, .error "invalid API key metadata lookup ID during startup repair")
        | none =>
          match metadata.fields.lookup "key_hash" with
          | some (.string legacyHash) =>
            match entry.matchesMetadata metadata with
            | .error e => (s, .error e)
            | .ok false => (s, .ok ())
            | .ok true =>
              match s.legacyIndexRemoval legacyHash entry.name with
              | .error e => (s, .error e)
              | .ok removal =>
                match s.writeBatch f
                  (.insertDoc (migratedMetadata metadata lookup.key) :: removal) with
                | (s, .ok ()) => (s, .ok ())
                | (s, .error _) =>
                  (s, .error "failed to atomically repair partial API key migration")
          | _ => (s, .ok ())

/-- Put a record that is not migrated into the index. -/
def indexMetadata (f : BatchFaults) (s : AuthService) (metadata : Document) :
    AuthService × Except String Unit :=
  match metadata.fields.lookup "key_hash" with
  | some (.string legacyHash) =>
    match LegacyApiKeyEntry.fromLegacyMetadata metadata with
    | some entry => s.upsertLegacyIndexEntry f legacyHash entry
    | none => (s, .ok ())
  | _ => (s, .ok ())

section Pages

variable (step : AuthService → Document → AuthService × Except String Unit)

/-- The documents of a page one after the other. -/
def eachDocument (s : AuthService) : List Document → AuthService × Except String Unit
  | [] => (s, .ok ())
  | doc :: docs =>
    match step s doc with
    | (s, .error e) => (s, .error e)
    | (s, .ok ()) => eachDocument s docs

/-- The documents of a collection page by page, for at most so many pages. -/
def eachPage (collection : String) :
    Nat → Option String → AuthService → AuthService × Except String Unit
  | 0, _, s => (s, .ok ())
  | pages + 1, after, s =>
    match s.systemDb.listDocuments collection after 100 with
    | (docs, cursor) =>
      match eachDocument step s docs with
      | (s, .error e) => (s, .error e)
      | (s, .ok ()) =>
        match cursor with
        | some cursor => eachPage collection pages (some cursor) s
        | none => (s, .ok ())

end Pages

/-- What the storage engine answers to the batches of a start, by the document they are for. -/
structure StartFaults where
  repair : Document → BatchFaults
  index : Document → BatchFaults

def repairPartialApiKeyMigrations (f : StartFaults) (s : AuthService) :
    AuthService × Except String Unit :=
  eachPage (fun s doc => s.repairLookup (f.repair doc) doc) "api_key_lookup"
    ((s.systemDb.docs "api_key_lookup").size + 1) none s

def rebuildLegacyApiKeyIndex (f : StartFaults) (s : AuthService) :
    AuthService × Except String Unit :=
  eachPage (fun s doc => s.indexMetadata (f.index doc) doc) "api_keys"
    ((s.systemDb.docs "api_keys").size + 1) none s

/-- The two steps of `AuthService::init` about keys of the old format. -/
def startup (f : StartFaults) (s : AuthService) : AuthService × Except String Unit :=
  match s.repairPartialApiKeyMigrations f with
  | (s, .error e) => (s, .error e)
  | (s, .ok ()) => s.rebuildLegacyApiKeyIndex f

end AuthService

/-! ## Entries -/

namespace LegacyApiKeyEntry

/-- No field of an entry is empty. -/
structure Named (entry : LegacyApiKeyEntry) : Prop where
  name : entry.name ≠ ""
  username : entry.username ≠ ""
  userIdentity : entry.userIdentity ≠ ""

theorem fromLegacyMetadata_iff {doc : Document} {entry : LegacyApiKeyEntry} :
    fromLegacyMetadata doc = some entry ↔ entry.Named ∧
      doc.fields.lookup "name" = some (.string entry.name) ∧
      doc.fields.lookup "username" = some (.string entry.username) ∧
      doc.fields.lookup "user_identity" = some (.string entry.userIdentity) := by
  unfold fromLegacyMetadata
  constructor
  · intro h
    split at h
    · next name username identity hname husername hidentity =>
      split at h
      · cases h
      · next hempty =>
        obtain rfl := Option.some.inj h
        simp only [Bool.or_eq_true, decide_eq_true_eq, not_or] at hempty
        exact ⟨⟨hempty.1.1, hempty.1.2, hempty.2⟩, hname, husername, hidentity⟩
    · cases h
  · rintro ⟨hnamed, hname, husername, hidentity⟩
    rw [hname, husername, hidentity]
    dsimp only
    rw [if_neg]
    simp only [Bool.or_eq_true, decide_eq_true_eq, not_or]
    exact ⟨⟨hnamed.name, hnamed.username⟩, hnamed.userIdentity⟩

theorem stringField_of_lookup {doc : Document} {field value error : String}
    (h : doc.fields.lookup field = some (.string value)) (hne : value ≠ "") :
    stringField doc field error = .ok value := by
  unfold stringField
  rw [h]
  exact if_neg hne

theorem lookup_of_stringField {doc : Document} {field value error : String}
    (h : stringField doc field error = .ok value) :
    doc.fields.lookup field = some (.string value) ∧ value ≠ "" := by
  unfold stringField at h
  split at h
  · next found hfound =>
    split at h
    · cases h
    · next hne =>
      obtain rfl := Except.ok.inj h
      exact ⟨hfound, hne⟩
  · cases h

/-- A lookup document and a record name their entry in the same fields. -/
theorem fromLookupDocument_iff {doc : Document} {entry : LegacyApiKeyEntry} :
    fromLookupDocument doc = .ok entry ↔ fromLegacyMetadata doc = some entry := by
  rw [fromLegacyMetadata_iff]
  unfold fromLookupDocument
  constructor
  · intro h
    obtain ⟨name, hname, h⟩ := bind_eq_ok_iff.mp h
    obtain ⟨username, husername, h⟩ := bind_eq_ok_iff.mp h
    obtain ⟨identity, hidentity, h⟩ := bind_eq_ok_iff.mp h
    obtain rfl := Except.ok.inj h
    have hname := lookup_of_stringField hname
    have husername := lookup_of_stringField husername
    have hidentity := lookup_of_stringField hidentity
    exact ⟨⟨hname.2, husername.2, hidentity.2⟩, hname.1, husername.1, hidentity.1⟩
  · rintro ⟨hnamed, hname, husername, hidentity⟩
    rw [stringField_of_lookup hname hnamed.name, stringField_of_lookup husername hnamed.username,
      stringField_of_lookup hidentity hnamed.userIdentity]
    rfl

/-- A record matches its own entry only. -/
theorem matchesMetadata_eq {doc : Document} {own : LegacyApiKeyEntry}
    (h : fromLegacyMetadata doc = some own) (entry : LegacyApiKeyEntry) :
    entry.matchesMetadata doc = .ok (decide (own = entry)) := by
  obtain ⟨hnamed, hname, husername, hidentity⟩ := fromLegacyMetadata_iff.mp h
  obtain ⟨name, username, identity⟩ := own
  obtain ⟨name', username', identity'⟩ := entry
  unfold matchesMetadata
  rw [stringField_of_lookup hname hnamed.name, stringField_of_lookup husername hnamed.username,
    stringField_of_lookup hidentity hnamed.userIdentity]
  show (if name ≠ name' then Except.ok false else if username ≠ username' then Except.ok false
    else Except.ok (decide (identity = identity')) : Except String Bool) = _
  by_cases hn : name = name'
  · by_cases hu : username = username'
    · rw [if_neg (not_not.mpr hn), if_neg (not_not.mpr hu)]
      simp [hn, hu]
    · rw [if_neg (not_not.mpr hn), if_pos hu]
      simp [hu]
  · rw [if_pos hn]
    simp [hn]

theorem fromValue_toValue {entry : LegacyApiKeyEntry} (h : entry.Named) :
    fromValue entry.toValue = .ok entry := by
  simp [fromValue, toValue, h.name, h.username, h.userIdentity, List.lookup, bind, Except.bind,
    pure, Except.pure]

end LegacyApiKeyEntry

open LegacyApiKeyEntry

/-- The index that is written is read back. -/
theorem legacyIndexEntries_document {entries : List LegacyApiKeyEntry}
    (h : ∀ e ∈ entries, e.Named) (legacyHash : String) :
    legacyIndexEntries (legacyIndexDocument legacyHash entries) = .ok entries := by
  show (entries.map toValue).mapM fromValue = .ok entries
  induction entries with
  | nil => rfl
  | cons e entries ih =>
    rw [List.forall_mem_cons] at h
    rw [List.map_cons, List.mapM_cons, fromValue_toValue h.1, ih h.2]
    rfl

section Upsert

variable {entry e : LegacyApiKeyEntry} {entries : List LegacyApiKeyEntry}

theorem mem_upsertEntry_self : entry ∈ upsertEntry entry entries := by
  induction entries with
  | nil => exact List.mem_singleton_self entry
  | cons first entries ih =>
    unfold upsertEntry
    split
    · exact List.mem_cons_self
    · exact List.mem_cons_of_mem first ih

theorem mem_upsertEntry (h : e ∈ upsertEntry entry entries) : e = entry ∨ e ∈ entries := by
  induction entries with
  | nil => exact Or.inl (List.mem_singleton.mp h)
  | cons first entries ih =>
    unfold upsertEntry at h
    split at h
    · exact (List.mem_cons.mp h).imp_right (List.mem_cons_of_mem first)
    · rcases List.mem_cons.mp h with rfl | h
      · exact Or.inr List.mem_cons_self
      · exact (ih h).imp_right (List.mem_cons_of_mem first)

/-- The other names keep their entries. -/
theorem mem_upsertEntry_of_ne (h : e ∈ entries) (hne : e.name ≠ entry.name) :
    e ∈ upsertEntry entry entries := by
  induction entries with
  | nil => cases h
  | cons first entries ih =>
    unfold upsertEntry
    split
    · next hfirst =>
      rcases List.mem_cons.mp h with rfl | h
      · exact absurd hfirst hne
      · exact List.mem_cons_of_mem _ h
    · rcases List.mem_cons.mp h with rfl | h
      · exact List.mem_cons_self
      · exact List.mem_cons_of_mem first (ih h)

/-- An entry that is there stays where it is. -/
theorem upsertEntry_of_mem (h : entry ∈ entries)
    (hsame : ∀ e ∈ entries, e.name = entry.name → e = entry) :
    upsertEntry entry entries = entries := by
  induction entries with
  | nil => cases h
  | cons first entries ih =>
    rw [List.forall_mem_cons] at hsame
    unfold upsertEntry
    split
    · next hfirst => rw [hsame.1 hfirst]
    · next hfirst =>
      rcases List.mem_cons.mp h with rfl | h
      · exact absurd rfl hfirst
      · rw [ih h hsame.2]

end Upsert

namespace AuthService

variable [External]

/-! ## Pages -/

/-- The documents of a collection are as before. -/
def SameIn (c : String) (s t : AuthService) : Prop := t.systemDb.docs c = s.systemDb.docs c

omit [External] in
theorem sameIn_of_getDocument {c : String} {s t : AuthService}
    (h : ∀ k, t.systemDb.getDocument c (utf8 k) = s.systemDb.getDocument c (utf8 k)) :
    SameIn c s t := by
  have hkeyed : ∀ (s t : AuthService),
      (∀ k, t.systemDb.getDocument c (utf8 k) = s.systemDb.getDocument c (utf8 k)) →
      ∀ (k : Bytes) doc, (s.systemDb.docs c)[k]? = some doc →
        (t.systemDb.docs c)[k]? = some doc := by
    intro s t h k doc hdoc
    have hkey : utf8 doc.key = k := s.systemDb.keyed hdoc
    rw [← hkey] at hdoc ⊢
    rw [← getDocument_eq] at hdoc ⊢
    exact (h doc.key).trans hdoc
  refine Std.ExtTreeMap.ext_getElem? fun k => ?_
  cases hs : (s.systemDb.docs c)[k]? with
  | some doc => exact hkeyed s t h k doc hs
  | none =>
    cases ht : (t.systemDb.docs c)[k]? with
    | none => rfl
    | some doc =>
      rw [hkeyed t s (fun k => (h k).symm) k doc ht] at hs
      cases hs

section

variable {step : AuthService → Document → AuthService × Except String Unit}

omit [External] in
theorem eachDocument_append (s : AuthService) (docs docs' : List Document) :
    eachDocument step s (docs ++ docs') =
      match eachDocument step s docs with
      | (t, .error e) => (t, .error e)
      | (t, .ok ()) => eachDocument step t docs' := by
  induction docs generalizing s with
  | nil => rfl
  | cons doc docs ih =>
    rw [List.cons_append, eachDocument, eachDocument]
    rcases step s doc with ⟨t, e | u⟩
    · rfl
    · exact ih t

omit [External] in
/-- Steps that each keep a property keep it together. -/
theorem eachDocument_induct {P : AuthService → Prop} {s : AuthService} {docs : List Document}
    (hstep : ∀ t, ∀ doc ∈ docs, P t → (step t doc).2 = .ok () → P (step t doc).1) (hs : P s)
    (hok : (eachDocument step s docs).2 = .ok ()) : P (eachDocument step s docs).1 := by
  induction docs generalizing s with
  | nil => exact hs
  | cons doc docs ih =>
    have hnext := hstep s doc List.mem_cons_self hs
    unfold eachDocument at hok ⊢
    rcases hdo : step s doc with ⟨t, e | u⟩
    · rw [hdo] at hok
      cases hok
    · rw [hdo] at hnext hok
      exact ih (fun t doc hdoc => hstep t doc (List.mem_cons_of_mem _ hdoc)) (hnext rfl) hok

omit [External] in
/-- Steps that fail in one way only, keep a property, and each reach and keep one of their own. -/
theorem eachDocument_spec {P : AuthService → Prop} {Q : Document → AuthService → Prop}
    {failed : String} {s : AuthService} {docs : List Document}
    (hstep : ∀ t, ∀ doc ∈ docs, P t → (step t doc).2 ≠ .error failed →
      (step t doc).2 = .ok () ∧ P (step t doc).1 ∧ Q doc (step t doc).1 ∧
        ∀ d, Q d t → Q d (step t doc).1)
    (hs : P s) (hf : (eachDocument step s docs).2 ≠ .error failed) :
    (eachDocument step s docs).2 = .ok () ∧ P (eachDocument step s docs).1 ∧
      (∀ doc ∈ docs, Q doc (eachDocument step s docs).1) ∧
      ∀ d, Q d s → Q d (eachDocument step s docs).1 := by
  induction docs generalizing s with
  | nil => exact ⟨rfl, hs, nofun, fun d hd => hd⟩
  | cons doc docs ih =>
    have hnext := hstep s doc List.mem_cons_self hs
    unfold eachDocument at hf ⊢
    rcases hdo : step s doc with ⟨t, e | u⟩
    · rw [hdo] at hnext hf
      cases (hnext hf).1
    · rw [hdo] at hnext hf
      obtain ⟨-, ht, hdoc, hkept⟩ := hnext nofun
      obtain ⟨hok, hP, hall, hrest⟩ :=
        ih (fun t doc hdoc => hstep t doc (List.mem_cons_of_mem _ hdoc)) ht hf
      exact ⟨hok, hP, List.forall_mem_cons.mpr ⟨hrest doc hdoc, hall⟩,
        fun d hd => hrest d (hkept d hd)⟩

variable {P : AuthService → Prop} {c : String} {start : AuthService}

omit [External] in
/-- The pages from a point of the listing on. -/
theorem eachPage_after (hsame : ∀ t, P t → SameIn c start t) {rest : List (Bytes × Document)}
    (hstep : ∀ t, ∀ doc ∈ rest.map (·.2), P t → (step t doc).2 = .ok () → P (step t doc).1)
    {pages : Nat} (hpages : rest.length < pages) {after : Option String} {s : AuthService}
    (hs : P s)
    (hpage : s.systemDb.listDocuments c after 100 = Database.entriesPage rest 100)
    (htail : ∃ front, (s.systemDb.docs c).toList = front ++ rest) :
    eachPage step c pages after s = eachDocument step s (rest.map (·.2)) := by
  induction pages generalizing rest after s with
  | zero => omega
  | succ pages ih =>
    unfold eachPage
    rw [hpage, Database.entriesPage]
    by_cases hmore : 100 < rest.length
    · -- the cursor is the last document of the page
      obtain ⟨front, hfront⟩ := htail
      have hne : rest.take 100 ≠ [] := by
        intro hnil
        have hlen := congrArg List.length hnil
        rw [List.length_take, List.length_nil] at hlen
        omega
      have hsplit : rest.take 100 = (rest.take 100).dropLast ++ [(rest.take 100).getLast hne] :=
        (List.dropLast_append_getLast hne).symm
      have hall : (s.systemDb.docs c).toList =
          (front ++ (rest.take 100).dropLast) ++ (rest.take 100).getLast hne :: rest.drop 100 := by
        rw [hfront, List.append_assoc]
        refine congrArg (front ++ ·) ?_
        rw [List.append_cons, ← hsplit, List.take_append_drop]
      rw [if_pos hmore, List.getLast?_eq_some_getLast hne]
      have hrest : rest.map (·.2) = (rest.take 100).map (·.2) ++ (rest.drop 100).map (·.2) := by
        rw [← List.map_append, List.take_append_drop]
      rw [hrest] at hstep ⊢
      rw [eachDocument_append]
      dsimp only
      -- the page leaves the collection, so the next one starts behind the cursor
      have hnext := eachDocument_induct
        (fun t doc hdoc => hstep t doc (List.mem_append_left _ hdoc)) hs
      split
      · rfl
      · next t heq =>
        rw [heq] at hnext
        have hnext : P t := hnext rfl
        have hdocs : s.systemDb.docs c = t.systemDb.docs c := by
          rw [show s.systemDb.docs c = start.systemDb.docs c from hsame s hs,
            show t.systemDb.docs c = start.systemDb.docs c from hsame t hnext]
        rw [hdocs] at hall
        exact ih (fun t doc hdoc => hstep t doc (List.mem_append_right _ hdoc))
          (by rw [List.length_drop]; omega) hnext (Database.listDocuments_after hall 100)
          ⟨_, by rw [hall, List.append_cons]⟩
    · rw [if_neg hmore]
      dsimp only
      split
      · next t e heq => rw [heq]
      · next t heq => rw [heq]

omit [External] in
/-- Page by page is one document after the other, where the steps leave the collection alone. -/
theorem eachPage_eq (hsame : ∀ t, P t → SameIn c start t)
    (hstep : ∀ t, ∀ doc ∈ start.systemDb.storedDocuments c, P t → (step t doc).2 = .ok () →
      P (step t doc).1)
    (hs : P start) : eachPage step c ((start.systemDb.docs c).size + 1) none start
      = eachDocument step start (start.systemDb.storedDocuments c) := by
  refine eachPage_after hsame hstep ?_ hs
    (Database.listDocuments_none start.systemDb c 100) ⟨[], rfl⟩
  rw [Std.ExtTreeMap.length_toList]
  omega

end

/-! ## What is written -/

/-- The document of an index without a name. -/
def indexWithout (name legacyHash : String) (index : Option Document) : Option Document :=
  index.bind fun doc =>
    match legacyIndexEntries doc with
    | .error _ => some doc
    | .ok entries =>
      if (entries.filter (·.name ≠ name)).isEmpty then none
      else some (legacyIndexDocument legacyHash (entries.filter (·.name ≠ name)))

/-- The entries of an index; a hash without a document has none. -/
def IndexOf (s : AuthService) (legacyHash : String) (entries : List LegacyApiKeyEntry) : Prop :=
  match s.legacyIndex legacyHash with
  | none => entries = []
  | some doc => legacyIndexEntries doc = .ok entries

section Effects

variable {s t : AuthService} {name legacyHash : String} {entries : List LegacyApiKeyEntry}

omit [External] in
theorem legacyIndexRemoval_of_indexOf (h : IndexOf s legacyHash entries) (name : String) :
    ∃ removal, s.legacyIndexRemoval legacyHash name = .ok removal := by
  unfold IndexOf at h
  unfold legacyIndexRemoval
  split
  · exact ⟨[], rfl⟩
  · next doc hdoc =>
    rw [hdoc] at h
    dsimp only at h
    rw [h]
    exact ⟨_, rfl⟩

omit [External] in
/-- A name leaves the entries with the document. -/
theorem indexOf_without (h : IndexOf s legacyHash entries) (hnamed : ∀ e ∈ entries, e.Named)
    (ht : t.legacyIndex legacyHash = indexWithout name legacyHash (s.legacyIndex legacyHash)) :
    IndexOf t legacyHash (entries.filter (·.name ≠ name)) := by
  unfold IndexOf at h ⊢
  rw [ht]
  cases hdoc : s.legacyIndex legacyHash with
  | none =>
    rw [hdoc] at h
    obtain rfl : entries = [] := h
    rfl
  | some doc =>
    rw [hdoc] at h
    dsimp only at h
    unfold indexWithout
    rw [Option.bind_some, h]
    dsimp only
    by_cases hempty : (entries.filter (·.name ≠ name)).isEmpty
    · rw [if_pos hempty]
      exact List.isEmpty_iff.mp hempty
    · rw [if_neg hempty]
      exact legacyIndexEntries_document (fun e he => hnamed e (List.mem_of_mem_filter he))
        legacyHash

omit [External] in
theorem lastDoc_append (db : Database) (front back : List WriteOp) (c k : String) :
    lastDoc db (front ++ back) c k = docAfter back c k (lastDoc db front c k) := by
  unfold lastDoc docAfter
  rw [List.foldl_append]

omit [External] in
/-- A removal is about the index only. -/
theorem lastDoc_removal_of_ne {removal front : List WriteOp} {c k : String}
    (h : s.legacyIndexRemoval legacyHash name = .ok removal) (hc : c ≠ "api_key_legacy_lookup") :
    lastDoc s.systemDb (front ++ removal) c k = lastDoc s.systemDb front c k := by
  rw [lastDoc_append]
  exact docAfter_of_not_touched
    (fun op hop htarget => hc (legacyIndexRemoval_targets h op hop _ htarget)) _

omit [External] in
theorem lastDoc_removal {removal front : List WriteOp}
    (h : s.legacyIndexRemoval legacyHash name = .ok removal)
    (hfront : ∀ op ∈ front, ∀ t, op.target = some t → t.1 ≠ "api_key_legacy_lookup") (k : String) :
    lastDoc s.systemDb (front ++ removal) "api_key_legacy_lookup" k =
      if legacyHash = k then indexWithout name k (s.legacyIndex k) else s.legacyIndex k := by
  have hcolon : ':' ∉ "api_key_legacy_lookup".toList := by decide
  have hstart : lastDoc s.systemDb front "api_key_legacy_lookup" k = s.legacyIndex k :=
    lastDoc_of_collection hfront
  rw [lastDoc_append, hstart]
  unfold legacyIndexRemoval at h
  cases hdoc : s.legacyIndex legacyHash with
  | none =>
    rw [hdoc] at h
    obtain rfl := Except.ok.inj h
    show s.legacyIndex k = _
    split
    · next heq =>
      subst heq
      rw [hdoc]
      rfl
    · rfl
  | some doc =>
    rw [hdoc] at h
    obtain ⟨entries, hentries, h⟩ := bind_eq_ok_iff.mp h
    have heq := (Except.ok.inj h).symm
    -- the one operation is about the document of the hash
    have htarget : ∀ legacyHash' es, (WriteOp.insertDoc (legacyIndexDocument legacyHash' es)).target
        = some ("api_key_legacy_lookup", legacyHash') := fun legacyHash' es => by
      show some (Document.collection _, Document.key _) = _
      rw [Document.collection_of_id hcolon rfl, Document.key_of_id hcolon rfl]
    have hwithout : indexWithout name legacyHash (s.legacyIndex legacyHash) =
        if (entries.filter (·.name ≠ name)).isEmpty then none
        else some (legacyIndexDocument legacyHash (entries.filter (·.name ≠ name))) := by
      rw [hdoc]
      unfold indexWithout
      rw [Option.bind_some, hentries]
    by_cases hk : legacyHash = k
    · subst hk
      rw [if_pos rfl, hwithout]
      split at heq
      · next hempty =>
        rw [heq, if_pos hempty]
        exact if_pos rfl
      · next hempty =>
        rw [heq, if_neg hempty]
        exact if_pos (htarget ..)
    · rw [if_neg hk]
      split at heq
      · rw [heq]
        exact if_neg fun h => hk (Prod.mk.inj (Option.some.inj h)).2
      · rw [heq]
        refine if_neg fun h => hk ?_
        rw [htarget] at h
        exact (Prod.mk.inj (Option.some.inj h)).2

/-- The migration of a record is finished. -/
structure Finished (s t : AuthService) (name legacyHash lookupId : String) (metadata : Document) :
    Prop where
  users : SameUsers s t
  keys : ∀ n, t.apiKey n =
    if name = n then some (migratedMetadata metadata lookupId) else s.apiKey n
  index : ∀ h, t.legacyIndex h =
    if legacyHash = h then indexWithout name h (s.legacyIndex h) else s.legacyIndex h

omit [External] in
theorem migratedMetadata_placed (hplaced : s.Placed) {metadata : Document}
    (hstored : s.apiKey name = some metadata) (lookupId : String) :
    (migratedMetadata metadata lookupId).collection = "api_keys" ∧
      (migratedMetadata metadata lookupId).key = name :=
  have hid : (migratedMetadata metadata lookupId).id = metadata.id := rfl
  ⟨(Document.collection_congr hid).trans (hplaced.keys _ _ hstored),
    (Document.key_congr hid).trans (key_of_getDocument hstored)⟩

/-- A batch with a migrated record, perhaps lookup documents, and a removal from the index. -/
theorem finished_of_batch (hplaced : s.Placed) {metadata : Document} {lookupId : String}
    (hstored : s.apiKey name = some metadata) {front removal : List WriteOp} {f : BatchFaults}
    (hremoval : s.legacyIndexRemoval legacyHash name = .ok removal)
    (hfront : ∀ op ∈ front, ∀ t, op.target = some t → t.1 = "api_key_lookup")
    (hbatch : s.writeBatch f (.insertDoc (migratedMetadata metadata lookupId) :: front ++ removal)
      = (t, .ok ())) :
    Finished s t name legacyHash lookupId metadata ∧
      ∀ l, t.apiKeyLookup l = lastDoc s.systemDb front "api_key_lookup" l := by
  obtain ⟨hcollection, hkey⟩ := migratedMetadata_placed hplaced hstored lookupId
  have hget : ∀ c k, t.systemDb.getDocument c (utf8 k) = lastDoc s.systemDb
      (.insertDoc (migratedMetadata metadata lookupId) :: front ++ removal) c k := by
    intro c k
    have h := writeBatch_getDocument f s
      (.insertDoc (migratedMetadata metadata lookupId) :: front ++ removal) c k
    rw [hbatch] at h
    exact h.trans (if_pos rfl)
  have htarget : (WriteOp.insertDoc (migratedMetadata metadata lookupId)).target =
      some ("api_keys", name) := by
    show some (Document.collection _, Document.key _) = _
    rw [hcollection, hkey]
  -- a document of another collection than the record's
  have hother : ∀ c k, c ≠ "api_keys" → c ≠ "api_key_legacy_lookup" →
      t.systemDb.getDocument c (utf8 k) = lastDoc s.systemDb front c k := by
    intro c k hkeys hindex
    rw [hget, lastDoc_removal_of_ne hremoval hindex]
    show docAfter front c k (if _ = _ then _ else _) = _
    rw [htarget, if_neg fun h => hkeys (Prod.mk.inj (Option.some.inj h)).1.symm]
    rfl
  refine ⟨⟨fun u => ?_, fun n => ?_, fun h => ?_⟩, fun l => hother _ l (by decide) (by decide)⟩
  · refine (hother "users" u (by decide) (by decide)).trans (lastDoc_of_collection ?_)
    intro op hop target htarget'
    rw [hfront op hop target htarget']
    decide
  · refine (hget "api_keys" n).trans ((lastDoc_removal_of_ne hremoval (by decide)).trans ?_)
    have hrest : ∀ doc, docAfter front "api_keys" n doc = doc :=
      docAfter_of_not_touched fun op hop htarget' =>
        absurd (show "api_keys" = "api_key_lookup" from hfront op hop _ htarget') (by decide)
    refine (hrest _).trans ?_
    show (if _ = _ then _ else _) = _
    rw [htarget]
    exact if_congr (by simp) rfl rfl
  · refine (hget "api_key_legacy_lookup" h).trans (lastDoc_removal hremoval ?_ h)
    intro op hop target htarget'
    rcases List.mem_cons.mp hop with rfl | hop
    · rw [htarget] at htarget'
      rw [← Option.some.inj htarget']
      show "api_keys" ≠ "api_key_legacy_lookup"
      decide
    · rw [hfront op hop target htarget']
      decide

section Crypto

variable [Crypto]

/-- A migration whose lookup document, if there is one, agrees. -/
theorem finalize_finished (hplaced : s.Placed) {f : BatchFaults} {token lookupId : String}
    {metadata : Document} {entry : LegacyApiKeyEntry}
    (hstored : s.apiKey entry.name = some metadata)
    (hagrees : s.lookupAgrees token lookupId entry = .ok true)
    (hindex : IndexOf s legacyHash entries)
    (hf : (s.finalizeLegacyApiKeyMigration f token legacyHash lookupId metadata entry).2 ≠
      .error "failed to atomically migrate legacy API key") :
    ∃ t, s.finalizeLegacyApiKeyMigration f token legacyHash lookupId metadata entry = (t, .ok ()) ∧
      Finished s t entry.name legacyHash lookupId metadata ∧
      ∀ l, t.apiKeyLookup l = if lookupId = l then some (apiKeyLookupDocument lookupId entry.name
        entry.username entry.userIdentity (hashLegacySecret token)) else s.apiKeyLookup l := by
  have hcolon : ':' ∉ "api_key_lookup".toList := by decide
  obtain ⟨removal, hremoval⟩ := legacyIndexRemoval_of_indexOf hindex entry.name
  let lookupDoc := apiKeyLookupDocument lookupId entry.name entry.username entry.userIdentity
    (hashLegacySecret token)
  have htarget : (WriteOp.insertDoc lookupDoc).target = some ("api_key_lookup", lookupId) := by
    show some (lookupDoc.collection, lookupDoc.key) = _
    rw [Document.collection_of_id hcolon rfl, Document.key_of_id hcolon rfl]
  unfold finalizeLegacyApiKeyMigration at hf ⊢
  rw [hagrees, hremoval] at hf ⊢
  dsimp only at hf ⊢
  split
  · next t hbatch =>
    have hfront : ∀ op ∈ [WriteOp.insertDoc lookupDoc], ∀ target, op.target = some target →
        target.1 = "api_key_lookup" := by
      intro op hop target h
      obtain rfl := List.mem_singleton.mp hop
      rw [htarget] at h
      exact (congrArg Prod.fst (Option.some.inj h)).symm
    obtain ⟨hfinished, hlookups⟩ := finished_of_batch hplaced hstored hremoval hfront hbatch
    refine ⟨t, rfl, hfinished, fun l => (hlookups l).trans ?_⟩
    show (if _ = _ then _ else _) = _
    rw [htarget]
    exact if_congr (by simp) rfl rfl
  · next t e hbatch =>
    rw [hbatch] at hf
    exact absurd rfl hf

end Crypto

/-- A lookup document whose record is not migrated yet. -/
theorem repairLookup_finished (hplaced : s.Placed) {f : BatchFaults} {lookup metadata : Document}
    {entry : LegacyApiKeyEntry} {hash : String} (hentry : fromLegacyMetadata lookup = some entry)
    (hsecret : lookup.fields.lookup "secret_hash" = some (.string hash)) (hne : hash ≠ "")
    (hstored : s.apiKey entry.name = some metadata)
    (hown : fromLegacyMetadata metadata = some entry)
    (hlookupId : metadata.fields.lookup "lookup_id" = none)
    (hkeyHash : metadata.fields.lookup "key_hash" = some (.string legacyHash))
    (hindex : IndexOf s legacyHash entries)
    (hf : (s.repairLookup f lookup).2 ≠
      .error "failed to atomically repair partial API key migration") :
    ∃ t, s.repairLookup f lookup = (t, .ok ()) ∧
      Finished s t entry.name legacyHash lookup.key metadata ∧
      ∀ l, t.apiKeyLookup l = s.apiKeyLookup l := by
  obtain ⟨removal, hremoval⟩ := legacyIndexRemoval_of_indexOf hindex entry.name
  have hverdict : decide (hash ≠ "") = true := decide_eq_true hne
  have hmatches : entry.matchesMetadata metadata = .ok true :=
    (matchesMetadata_eq hown entry).trans (congrArg Except.ok (decide_eq_true rfl))
  unfold repairLookup at hf ⊢
  rw [fromLookupDocument_iff.mpr hentry, hsecret] at hf ⊢
  simp only [hverdict, hstored, hlookupId, hkeyHash, hmatches, hremoval] at hf ⊢
  rw [if_neg (by decide)] at hf ⊢
  split
  · next t hbatch =>
    obtain ⟨hfinished, hlookups⟩ := finished_of_batch hplaced hstored hremoval
      (show ∀ op ∈ [], ∀ target, WriteOp.target op = some target → target.1 = "api_key_lookup" from
        nofun) hbatch
    exact ⟨t, rfl, hfinished, hlookups⟩
  · next t e hbatch =>
    rw [hbatch] at hf
    exact absurd rfl hf

/-- A dropped key leaves the index of its hash. -/
theorem dropApiKeyLocked_index (f : BatchFaults) {metadata : Document}
    (hstored : s.apiKey name = some metadata)
    (hok : (s.dropApiKeyLocked f name).2 = .ok ()) (h : String) :
    (s.dropApiKeyLocked f name).1.legacyIndex h =
      if hasString metadata "key_hash" h then indexWithout name h (s.legacyIndex h)
      else s.legacyIndex h := by
  have hfront : ∀ op ∈ .deleteDoc "api_keys" name :: lookupRemoval metadata, ∀ target,
      WriteOp.target op = some target → target.1 ≠ "api_key_legacy_lookup" := by
    rcases lookupRemoval_eq metadata with ⟨heq, -⟩ | ⟨lookupId, heq, -⟩ <;>
      · rw [heq]
        simp [WriteOp.target]
  unfold dropApiKeyLocked at hok ⊢
  rw [hstored] at hok ⊢
  dsimp only at hok ⊢
  -- the record has the hash of its key, or nothing is removed from the index
  have hwritten : ∀ removal t, s.writeBatch f (.deleteDoc "api_keys" name ::
      lookupRemoval metadata ++ removal) = (t, .ok ()) → t.legacyIndex h =
        lastDoc s.systemDb (.deleteDoc "api_keys" name :: lookupRemoval metadata ++ removal)
          "api_key_legacy_lookup" h := by
    intro removal t hbatch
    have hget := writeBatch_getDocument f s (.deleteDoc "api_keys" name ::
      lookupRemoval metadata ++ removal) "api_key_legacy_lookup" h
    rw [hbatch] at hget
    exact hget.trans (if_pos rfl)
  split at hok
  · cases hok
  · next removal hremoval =>
    split at hok
    · next t hbatch =>
      refine (hwritten removal t hbatch).trans ?_
      split at hremoval
      · next keyHash hkeyHash =>
        rw [lastDoc_removal hremoval hfront]
        unfold hasString
        rw [hkeyHash]
        exact if_congr (by simp) rfl rfl
      · next hkeyHash =>
        obtain rfl := Except.ok.inj hremoval
        rw [List.append_nil, lastDoc_of_collection hfront]
        refine (if_neg ?_).symm
        unfold hasString
        split
        · next value hvalue => exact absurd hvalue (hkeyHash value)
        · decide
    · cases hok

/-- A record is entered into the index of its hash; nothing else changes. -/
theorem upsertLegacyIndexEntry_spec {f : BatchFaults} {entry : LegacyApiKeyEntry}
    (hindex : IndexOf s legacyHash entries)
    (hf : (s.upsertLegacyIndexEntry f legacyHash entry).2 ≠
      .error "failed to persist legacy API key index") :
    ∃ t, s.upsertLegacyIndexEntry f legacyHash entry = (t, .ok ()) ∧
      ∀ c k, t.systemDb.getDocument c (utf8 k) =
        if c = "api_key_legacy_lookup" ∧ k = legacyHash then
          some (legacyIndexDocument legacyHash (upsertEntry entry entries))
        else s.systemDb.getDocument c (utf8 k) := by
  have hcolon : ':' ∉ "api_key_legacy_lookup".toList := by decide
  have hentries : (match s.legacyIndex legacyHash with
      | some doc => legacyIndexEntries doc
      | none => .ok []) = .ok entries := by
    unfold IndexOf at hindex
    split at hindex
    · next hnone =>
      rw [hnone]
      exact congrArg Except.ok hindex.symm
    · next doc hdoc =>
      rw [hdoc]
      exact hindex
  have htarget : (WriteOp.insertDoc (legacyIndexDocument legacyHash (upsertEntry entry entries))
      ).target = some ("api_key_legacy_lookup", legacyHash) := by
    show some (Document.collection _, Document.key _) = _
    rw [Document.collection_of_id hcolon rfl, Document.key_of_id hcolon rfl]
  unfold upsertLegacyIndexEntry at hf ⊢
  dsimp only at hf ⊢
  rw [hentries] at hf ⊢
  dsimp only at hf ⊢
  split
  · next t hbatch =>
    refine ⟨t, rfl, fun c k => ?_⟩
    have hget := writeBatch_getDocument f s
      [.insertDoc (legacyIndexDocument legacyHash (upsertEntry entry entries))] c k
    rw [hbatch] at hget
    refine hget.trans ((if_pos rfl).trans ?_)
    show (if _ = _ then _ else _) = _
    rw [htarget]
    exact if_congr (by simp [eq_comm]) rfl rfl
  · next t e hbatch =>
    rw [hbatch] at hf
    exact absurd rfl hf

end Effects

end AuthService

end StellarDb
