import StellarDb.Auth.LegacyMigration
import StellarDb.Auth.Revocation

/-!
# StellarDb — keys of the old format over restarts and calls

`LegacyStore` is what holds of the documents of keys of the old format, also in a store where an
older version has left migrations unfinished; `Started` is what a start adds to it. A start
brings the one to the other (`startup_spec`), and each call keeps it (`authenticate_started`,
`dropApiKeyLocked_started`, `dropUser_started`). No call but the drops that name a record takes
the record away, so a key is good as long as a record with it is left
(`legacy_keys_stay_valid`).
-/

namespace StellarDb

open Keyspaces Entries Database LegacyApiKeyEntry

namespace AuthService

section

variable [External] [Crypto]

/-! ## Records -/

/-- The hashes of some keys do not collide, and a digest has bytes. -/
structure Collisionless (keys : Set String) : Prop where
  lookupId : Set.InjOn legacyLookupId keys
  legacyHash : Set.InjOn hashLegacyKey keys
  digest : ∀ key ∈ keys, Crypto.sha256 (utf8 key) ≠ []

/-- A record with the hash of its key. -/
structure Unmigrated (metadata : Document) (key : String) : Prop where
  keyHash : metadata.fields.lookup "key_hash" = some (.string (hashLegacyKey key))
  lookupId : metadata.fields.lookup "lookup_id" = none

/-- A record with the lookup id of its key. -/
structure Migrated (metadata : Document) (key : String) : Prop where
  keyHash : metadata.fields.lookup "key_hash" = none
  lookupId : metadata.fields.lookup "lookup_id" = some (.string (legacyLookupId key))

/-- A lookup document of a key, that names an entry. -/
structure LookupOf (doc : Document) (key : String) (entry : LegacyApiKeyEntry) : Prop where
  secretHash : doc.fields.lookup "secret_hash" = some (.string (hashLegacySecret key))
  entry : fromLegacyMetadata doc = some entry

variable (keyOf : String → Option String) (keys : Set String)

/-- The record of an entry is stored, and it holds the key. `keyOf` is the key in plain text for
the name of a record. -/
structure Recorded (s : AuthService) (key : String) (entry : LegacyApiKeyEntry)
    (metadata : Document) : Prop where
  key : keyOf entry.name = some key
  stored : s.apiKey entry.name = some metadata
  entry : fromLegacyMetadata metadata = some entry

/-- The documents of the keys, where a lookup document may be there before its record is
migrated. -/
structure LegacyStore (s : AuthService) : Prop where
  placed : s.Placed
  known : ∀ {name key}, keyOf name = some key → key ∈ keys
  records : ∀ {name key metadata}, keyOf name = some key → s.apiKey name = some metadata →
    ∃ entry, entry.name = name ∧ fromLegacyMetadata metadata = some entry ∧
      (Unmigrated metadata key ∨ Migrated metadata key ∧
        ∃ doc, s.apiKeyLookup (legacyLookupId key) = some doc ∧ LookupOf doc key entry)
  /-- Keys of the other format. -/
  others : ∀ {name metadata}, keyOf name = none → s.apiKey name = some metadata →
    (∀ h, metadata.fields.lookup "key_hash" ≠ some (.string h)) ∧
      ∀ key ∈ keys, metadata.fields.lookup "lookup_id" ≠ some (.string (legacyLookupId key))
  lookups : ∀ {key doc}, key ∈ keys → s.apiKeyLookup (legacyLookupId key) = some doc →
    ∃ entry metadata, LookupOf doc key entry ∧ Recorded keyOf s key entry metadata
  otherLookups : ∀ {l doc entry metadata}, (∀ key ∈ keys, legacyLookupId key ≠ l) →
    s.apiKeyLookup l = some doc → fromLegacyMetadata doc = some entry →
    s.apiKey entry.name = some metadata → metadata.fields.lookup "lookup_id" = some (.string l)
  index : ∀ h, ∃ entries, IndexOf s h entries ∧ ∀ e ∈ entries, ∃ key metadata,
    Recorded keyOf s key e metadata ∧ Unmigrated metadata key ∧ hashLegacyKey key = h

/-- No migration is unfinished, and all records that are not migrated are in the index. -/
structure Started (s : AuthService) : Prop extends LegacyStore keyOf keys s where
  finished : ∀ {key doc entry metadata}, key ∈ keys →
    s.apiKeyLookup (legacyLookupId key) = some doc → LookupOf doc key entry →
    Recorded keyOf s key entry metadata → Migrated metadata key
  indexed : ∀ {key entry metadata}, Recorded keyOf s key entry metadata →
    Unmigrated metadata key → ∃ entries, IndexOf s (hashLegacyKey key) entries ∧ entry ∈ entries ∧
      s.legacyIndex (hashLegacyKey key) =
        some (legacyIndexDocument (hashLegacyKey key) entries)

variable {keyOf keys} {s t : AuthService}

/-! ## Entries and their hashes -/

theorem hashLegacySecret_ne_empty (hkeys : Collisionless keys) {key : String} (hkey : key ∈ keys) :
    hashLegacySecret key ≠ "" := by
  intro h
  have hlength := length_utf8_hexEncode (Crypto.sha256 (utf8 key))
  rw [show hexEncode (Crypto.sha256 (utf8 key)) = "" from h] at hlength
  have hzero : (Crypto.sha256 (utf8 key)).length = 0 := by
    have : (utf8 "").length = 0 := rfl
    omega
  exact hkeys.digest key hkey (List.length_eq_zero_iff.mp hzero)

omit [Crypto] in
theorem verifyLegacyLookupHash_self (key : String) :
    verifyLegacyLookupHash key (hashLegacyKey key) = true := by
  unfold verifyLegacyLookupHash hashEq hashLegacyKey
  rw [hexDecode_hexEncode]
  exact decide_eq_true rfl

omit [External] in
theorem verifyLegacySecret_self (key : String) :
    verifyLegacySecret key (hashLegacySecret key) = true := by
  unfold verifyLegacySecret hashEq hashLegacySecret
  rw [hexDecode_hexEncode]
  exact decide_eq_true rfl

omit [External] [Crypto] in
/-- The migration leaves the entry of a record. -/
theorem fromLegacyMetadata_migrated (metadata : Document) (lookupId : String) :
    fromLegacyMetadata (migratedMetadata metadata lookupId) = fromLegacyMetadata metadata := by
  have hlookup : ∀ field, field ≠ "key_hash" → field ≠ "lookup_id" →
      (migratedMetadata metadata lookupId).fields.lookup field = metadata.fields.lookup field := by
    intro field hhash hid
    unfold migratedMetadata
    rw [Document.lookup_insertField, if_neg (Ne.symm hid), Document.lookup_removeField,
      if_neg (Ne.symm hhash)]
  unfold fromLegacyMetadata
  rw [hlookup "name" (by decide) (by decide), hlookup "username" (by decide) (by decide),
    hlookup "user_identity" (by decide) (by decide)]

omit [External] in
theorem migrated_migratedMetadata (metadata : Document) (key : String) :
    Migrated (migratedMetadata metadata (legacyLookupId key)) key := by
  constructor
  · unfold migratedMetadata
    rw [Document.lookup_insertField, if_neg (by decide), Document.lookup_removeField, if_pos rfl]
  · unfold migratedMetadata
    rw [Document.lookup_insertField, if_pos rfl]

theorem Migrated.not_unmigrated {metadata : Document} {key key' : String}
    (h : Migrated metadata key) : ¬Unmigrated metadata key' := fun h' => by
  have hhash := h'.keyHash
  rw [h.keyHash] at hhash
  cases hhash

omit [External] [Crypto] in
theorem IndexOf.unique {h : String} {entries entries' : List LegacyApiKeyEntry}
    (hfirst : IndexOf s h entries) (hsecond : IndexOf s h entries') : entries = entries' := by
  unfold IndexOf at hfirst hsecond
  split at hfirst
  · next hnone =>
    rw [hnone] at hsecond
    exact hfirst.trans hsecond.symm
  · next doc hdoc =>
    rw [hdoc] at hsecond
    exact Except.ok.inj (hfirst.symm.trans hsecond)

omit [External] [Crypto] in
theorem IndexOf.congr {h : String} {entries : List LegacyApiKeyEntry} (hindex : IndexOf s h entries)
    (heq : t.legacyIndex h = s.legacyIndex h) : IndexOf t h entries := by
  unfold IndexOf at hindex ⊢
  rw [heq]
  exact hindex

namespace Recorded

omit [External] [Crypto] in
theorem congr {key : String} {entry : LegacyApiKeyEntry} {metadata : Document}
    (h : Recorded keyOf s key entry metadata) (heq : t.apiKey entry.name = s.apiKey entry.name) :
    Recorded keyOf t key entry metadata := ⟨h.key, heq.trans h.stored, h.entry⟩

omit [External] [Crypto] in
theorem named {key : String} {entry : LegacyApiKeyEntry} {metadata : Document}
    (h : Recorded keyOf s key entry metadata) : entry.Named :=
  (fromLegacyMetadata_iff.mp h.entry).1

end Recorded

/-! ## A migration -/

variable {key : String} {entry : LegacyApiKeyEntry} {metadata : Document}

/-- The record of an entry is migrated. -/
structure Migration (keyOf : String → Option String) (s t : AuthService) (key : String)
    (entry : LegacyApiKeyEntry) (metadata : Document) : Prop where
  recorded : Recorded keyOf s key entry metadata
  unmigrated : Unmigrated metadata key
  effect : Finished s t entry.name (hashLegacyKey key) (legacyLookupId key) metadata
  /-- A lookup document that was there was that of the entry. -/
  agrees : ∀ doc, s.apiKeyLookup (legacyLookupId key) = some doc →
    fromLegacyMetadata doc = some entry
  lookup : ∃ doc, t.apiKeyLookup (legacyLookupId key) = some doc ∧ LookupOf doc key entry
  lookups : ∀ l, legacyLookupId key ≠ l → t.apiKeyLookup l = s.apiKeyLookup l

namespace Migration

/-- The record is there with its lookup id. -/
theorem recorded_next (hm : Migration keyOf s t key entry metadata) :
    Recorded keyOf t key entry (migratedMetadata metadata (legacyLookupId key)) :=
  ⟨hm.recorded.key, (hm.effect.keys entry.name).trans (if_pos rfl),
    (fromLegacyMetadata_migrated ..).trans hm.recorded.entry⟩

theorem apiKey_of_ne (hm : Migration keyOf s t key entry metadata) {name : String}
    (hne : name ≠ entry.name) : t.apiKey name = s.apiKey name :=
  (hm.effect.keys name).trans (if_neg fun h => hne h.symm)

/-- No record of the key was migrated before. -/
theorem not_migrated (hm : Migration keyOf s t key entry metadata) {doc : Document}
    {other : LegacyApiKeyEntry} (hdoc : s.apiKeyLookup (legacyLookupId key) = some doc)
    (hother : LookupOf doc key other) {stored : Document}
    (hstored : s.apiKey other.name = some stored)
    (hmigrated : Migrated stored key) : False := by
  have heq := hother.entry.symm.trans (hm.agrees doc hdoc)
  obtain rfl := Option.some.inj heq
  obtain rfl := Option.some.inj (hstored.symm.trans hm.recorded.stored)
  exact hmigrated.not_unmigrated hm.unmigrated

/-- The entries of an index, without the name at the hash of its key. -/
theorem indexOf (hm : Migration keyOf s t key entry metadata) {h : String}
    {entries : List LegacyApiKeyEntry} (hindex : IndexOf s h entries)
    (hnamed : ∀ e ∈ entries, e.Named) :
    IndexOf t h
      (if hashLegacyKey key = h then entries.filter (·.name ≠ entry.name) else entries) := by
  have heffect := hm.effect.index h
  split
  · next heq =>
    rw [if_pos heq] at heffect
    exact indexOf_without hindex hnamed heffect
  · next hne =>
    rw [if_neg hne] at heffect
    exact hindex.congr heffect

end Migration

theorem LegacyStore.named (h : LegacyStore keyOf keys s) {hash : String}
    {entries : List LegacyApiKeyEntry} (hindex : IndexOf s hash entries) :
    ∀ e ∈ entries, ∃ key metadata,
      Recorded keyOf s key e metadata ∧ Unmigrated metadata key ∧ hashLegacyKey key = hash := by
  obtain ⟨entries', hindex', hentries'⟩ := h.index hash
  obtain rfl := hindex.unique hindex'
  exact hentries'

/-- A migration keeps the documents in order. -/
theorem LegacyStore.migration (hkeys : Collisionless keys) (h : LegacyStore keyOf keys s)
    (hm : Migration keyOf s t key entry metadata) : LegacyStore keyOf keys t := by
  have hkey : key ∈ keys := h.known hm.recorded.key
  have hplace := migratedMetadata_placed h.placed hm.recorded.stored (legacyLookupId key)
  refine ⟨⟨fun u doc hu => ?_, fun n doc hn => ?_⟩, h.known, ?_, ?_, ?_, ?_, fun hash => ?_⟩
  · rw [hm.effect.users u] at hu
    exact h.placed.users u doc hu
  · rw [hm.effect.keys n] at hn
    split at hn
    · obtain rfl := Option.some.inj hn
      exact hplace.1
    · exact h.placed.keys n doc hn
  · intro name key' metadata' hname hstored
    by_cases hne : name = entry.name
    · -- the migrated record
      subst hne
      obtain rfl := Option.some.inj (hname.symm.trans hm.recorded.key)
      obtain rfl := Option.some.inj (hstored.symm.trans hm.recorded_next.stored)
      exact ⟨entry, rfl, hm.recorded_next.entry,
        Or.inr ⟨migrated_migratedMetadata metadata key', hm.lookup⟩⟩
    · rw [hm.apiKey_of_ne hne] at hstored
      obtain ⟨other, hother, hentry, hkind⟩ := h.records hname hstored
      refine ⟨other, hother, hentry, hkind.imp_right fun ⟨hmigrated, doc, hdoc, hlookup⟩ => ?_⟩
      by_cases heq : legacyLookupId key = legacyLookupId key'
      · obtain rfl := hkeys.lookupId hkey (h.known hname) heq
        exact (hm.not_migrated hdoc hlookup (hother ▸ hstored) hmigrated).elim
      · exact ⟨hmigrated, doc, (hm.lookups _ heq).trans hdoc, hlookup⟩
  · intro name metadata' hname hstored
    have hne : name ≠ entry.name := by
      rintro rfl
      rw [hm.recorded.key] at hname
      cases hname
    rw [hm.apiKey_of_ne hne] at hstored
    exact h.others hname hstored
  · intro key' doc hkey' hdoc
    by_cases heq : legacyLookupId key = legacyLookupId key'
    · obtain rfl := hkeys.lookupId hkey hkey' heq
      obtain ⟨doc', hdoc', hlookup⟩ := hm.lookup
      obtain rfl := Option.some.inj (hdoc.symm.trans hdoc')
      exact ⟨entry, _, hlookup, hm.recorded_next⟩
    · rw [hm.lookups _ heq] at hdoc
      obtain ⟨other, metadata', hlookup, hrecorded⟩ := h.lookups hkey' hdoc
      refine ⟨other, metadata', hlookup, hrecorded.congr (hm.apiKey_of_ne fun hname => heq ?_)⟩
      have hsame := hrecorded.key
      rw [hname, hm.recorded.key] at hsame
      rw [Option.some.inj hsame]
  · intro l doc other metadata' hl hdoc hother hstored
    rw [hm.lookups l (hl key hkey)] at hdoc
    by_cases hne : other.name = entry.name
    · -- a record that is not migrated is named by no other lookup document
      have hid := h.otherLookups hl hdoc hother (hne ▸ hm.recorded.stored)
      rw [hm.unmigrated.lookupId] at hid
      cases hid
    · rw [hm.apiKey_of_ne hne] at hstored
      exact h.otherLookups hl hdoc hother hstored
  · obtain ⟨entries, hindex, hentries⟩ := h.index hash
    have hnamed : ∀ e ∈ entries, e.Named := fun e he => by
      obtain ⟨_, _, hrecorded, -⟩ := hentries e he
      exact hrecorded.named
    refine ⟨_, hm.indexOf hindex hnamed, fun e he => ?_⟩
    have hmem : e ∈ entries ∧ e.name ≠ entry.name := by
      split at he
      · have hfilter := List.mem_filter.mp he
        exact ⟨hfilter.1, of_decide_eq_true hfilter.2⟩
      · next hhash =>
        refine ⟨he, fun hname => hhash ?_⟩
        obtain ⟨key', metadata', hrecorded, -, hhash'⟩ := hentries e he
        have hsame := hrecorded.key
        rw [hname, hm.recorded.key] at hsame
        rw [Option.some.inj hsame, hhash']
    obtain ⟨key', metadata', hrecorded, hrest⟩ := hentries e hmem.1
    exact ⟨key', metadata', hrecorded.congr (hm.apiKey_of_ne hmem.2), hrest⟩

/-- Another name that leaves the index of a hash leaves a record there. -/
theorem Started.indexed_next (h : Started keyOf keys s)
    (hrecorded : Recorded keyOf s key entry metadata)
    (hunmigrated : Unmigrated metadata key) {name : String} (hne : entry.name ≠ name)
    (ht : t.legacyIndex (hashLegacyKey key) = s.legacyIndex (hashLegacyKey key) ∨
      t.legacyIndex (hashLegacyKey key) =
        indexWithout name (hashLegacyKey key) (s.legacyIndex (hashLegacyKey key))) :
    ∃ entries, IndexOf t (hashLegacyKey key) entries ∧ entry ∈ entries ∧
      t.legacyIndex (hashLegacyKey key) =
        some (legacyIndexDocument (hashLegacyKey key) entries) := by
  obtain ⟨entries, hindex, hmem, hdoc⟩ := h.indexed hrecorded hunmigrated
  have hnamed : ∀ e ∈ entries, e.Named := fun e he => by
    obtain ⟨_, _, hrecorded, -⟩ := h.named hindex e he
    exact hrecorded.named
  rcases ht with hsame | hwithout
  · exact ⟨entries, hindex.congr hsame, hmem, hsame.trans hdoc⟩
  · have hkept : entry ∈ entries.filter (·.name ≠ name) :=
      List.mem_filter.mpr ⟨hmem, decide_eq_true hne⟩
    refine ⟨_, indexOf_without hindex hnamed hwithout, hkept, hwithout.trans ?_⟩
    have hentries : legacyIndexEntries (legacyIndexDocument (hashLegacyKey key) entries) =
        .ok entries := legacyIndexEntries_document hnamed _
    unfold indexWithout
    rw [hdoc, Option.bind_some, hentries]
    refine if_neg fun hempty => ?_
    rw [List.isEmpty_iff.mp hempty] at hkept
    cases hkept

/-- A migration leaves no other one unfinished. -/
theorem Started.migration (hkeys : Collisionless keys) (h : Started keyOf keys s)
    (hm : Migration keyOf s t key entry metadata) : Started keyOf keys t := by
  have hkey : key ∈ keys := h.known hm.recorded.key
  refine ⟨h.toLegacyStore.migration hkeys hm, ?_, ?_⟩
  · intro key' doc other metadata' hkey' hdoc hlookup hrecorded
    by_cases hname : other.name = entry.name
    · have hsame := hrecorded.key
      rw [hname, hm.recorded.key] at hsame
      obtain rfl := Option.some.inj hsame
      have hstored := hrecorded.stored
      rw [hname, hm.recorded_next.stored] at hstored
      obtain rfl := Option.some.inj hstored
      exact migrated_migratedMetadata metadata key
    · have hold := hrecorded.congr (hm.apiKey_of_ne hname).symm
      by_cases heq : legacyLookupId key = legacyLookupId key'
      · -- the lookup document of the key names the record that is migrated
        obtain ⟨doc', hdoc', hlookup'⟩ := hm.lookup
        rw [heq] at hdoc'
        obtain rfl := Option.some.inj (hdoc.symm.trans hdoc')
        obtain rfl := Option.some.inj (hlookup.entry.symm.trans hlookup'.entry)
        exact absurd rfl hname
      · rw [hm.lookups _ heq] at hdoc
        exact h.finished hkey' hdoc hlookup hold
  · intro key' other metadata' hrecorded hunmigrated
    have hname : other.name ≠ entry.name := by
      intro hname
      have hstored := hrecorded.stored
      rw [hname, hm.recorded_next.stored] at hstored
      obtain rfl := Option.some.inj hstored
      exact (migrated_migratedMetadata metadata key).not_unmigrated hunmigrated
    refine h.indexed_next (hrecorded.congr (hm.apiKey_of_ne hname).symm) hunmigrated hname ?_
    rw [hm.effect.index]
    split
    · exact Or.inr rfl
    · exact Or.inl rfl

/-! ## A drop -/

omit [External] [Crypto] in
theorem hasString_iff {doc : Document} {field value : String} :
    hasString doc field value = true ↔ doc.fields.lookup field = some (.string value) := by
  unfold hasString
  split
  · next v hv =>
    rw [hv, decide_eq_true_iff, Option.some.injEq, Value.string.injEq]
  · next hv =>
    constructor
    · nofun
    · intro h
      exact absurd h (hv value)

/-- A dropped key takes its lookup document and its place in the index along. -/
theorem dropApiKeyLocked_started (hkeys : Collisionless keys) (h : Started keyOf keys s)
    (f : BatchFaults) {name : String} (hok : (s.dropApiKeyLocked f name).2 = .ok ()) :
    Started keyOf keys (s.dropApiKeyLocked f name).1 := by
  rcases dropApiKeyLocked_spec f s name with ⟨hne, -⟩ | ⟨-, metadata, hdropped⟩
  · exact absurd hok hne
  have hindex := dropApiKeyLocked_index f hdropped.stored hok
  generalize (s.dropApiKeyLocked f name).1 = t at hdropped hindex
  have hkey_of_ne : ∀ {n}, n ≠ name → t.apiKey n = s.apiKey n := fun hne =>
    (hdropped.keys _).trans (if_neg fun h => hne h.symm)
  have hgone : ∀ {n doc}, t.apiKey n = some doc → n ≠ name ∧ s.apiKey n = some doc := by
    intro n doc hdoc
    rw [hdropped.keys] at hdoc
    split at hdoc
    · cases hdoc
    · next hne => exact ⟨fun h => hne h.symm, hdoc⟩
  have hlookup : ∀ {l doc}, t.apiKeyLookup l = some doc →
      hasString metadata "lookup_id" l = false ∧ s.apiKeyLookup l = some doc := by
    intro l doc hdoc
    rw [hdropped.lookups] at hdoc
    split at hdoc
    · cases hdoc
    · next hne => exact ⟨Bool.eq_false_iff.mpr hne, hdoc⟩
  have hrecord_of_ne : ∀ {key entry metadata}, Recorded keyOf s key entry metadata →
      entry.name ≠ name → Recorded keyOf t key entry metadata := fun hrecorded hne =>
    hrecorded.congr (hkey_of_ne hne)
  have hrecord_old : ∀ {key entry metadata}, Recorded keyOf t key entry metadata →
      entry.name ≠ name ∧ Recorded keyOf s key entry metadata := fun hrecorded =>
    ⟨(hgone hrecorded.stored).1, hrecorded.congr (hkey_of_ne (hgone hrecorded.stored).1).symm⟩
  -- a lookup document that goes is that of the record
  have howner : ∀ {key}, key ∈ keys → hasString metadata "lookup_id" (legacyLookupId key) = true →
      ∃ entry doc, entry.name = name ∧ s.apiKeyLookup (legacyLookupId key) = some doc ∧
        LookupOf doc key entry := by
    intro key hkey hid
    have hid := hasString_iff.mp hid
    cases hname : keyOf name with
    | none => exact absurd hid ((h.others hname hdropped.stored).2 key hkey)
    | some key' =>
      obtain ⟨entry, hentry, -, hunmigrated | ⟨hmigrated, doc, hdoc, hlookup⟩⟩ :=
        h.records hname hdropped.stored
      · rw [hunmigrated.lookupId] at hid
        cases hid
      · rw [hmigrated.lookupId] at hid
        have heq := Value.string.inj (Option.some.inj hid)
        obtain rfl := hkeys.lookupId (h.known hname) hkey heq
        exact ⟨entry, doc, hentry, hdoc, hlookup⟩
  refine ⟨⟨⟨fun u doc hu => ?_, fun n doc hn => h.placed.keys n doc (hgone hn).2⟩, h.known, ?_, ?_,
    ?_, ?_, fun hash => ?_⟩, ?_, ?_⟩
  · rw [hdropped.users u] at hu
    exact h.placed.users u doc hu
  · intro n key metadata' hn hstored
    obtain ⟨hne, hstored⟩ := hgone hstored
    obtain ⟨entry, hentry, hown, hkind⟩ := h.records hn hstored
    refine ⟨entry, hentry, hown, hkind.imp_right fun ⟨hmigrated, doc, hdoc, hof⟩ =>
      ⟨hmigrated, doc, ?_, hof⟩⟩
    rw [hdropped.lookups, if_neg, hdoc]
    intro hid
    obtain ⟨entry', doc', hentry', hdoc', hof'⟩ := howner (h.known hn) hid
    obtain rfl := Option.some.inj (hdoc.symm.trans hdoc')
    obtain rfl := Option.some.inj (hof.entry.symm.trans hof'.entry)
    exact hne (hentry.symm.trans hentry')
  · intro n metadata' hn hstored
    exact h.others hn (hgone hstored).2
  · intro key doc hkey hdoc
    obtain ⟨hkept, hdoc⟩ := hlookup hdoc
    obtain ⟨entry, metadata', hof, hrecorded⟩ := h.lookups hkey hdoc
    refine ⟨entry, metadata', hof, hrecord_of_ne hrecorded fun hname => ?_⟩
    -- the record of a lookup document is migrated, so its document goes with it
    have hmigrated := h.finished hkey hdoc hof hrecorded
    have hstored := hrecorded.stored
    rw [hname, hdropped.stored] at hstored
    obtain rfl := Option.some.inj hstored
    rw [hasString_iff.mpr hmigrated.lookupId] at hkept
    cases hkept
  · intro l doc entry metadata' hl hdoc hentry hstored
    exact h.otherLookups hl (hlookup hdoc).2 hentry (hgone hstored).2
  · obtain ⟨entries, hof, hentries⟩ := h.index hash
    have hnamed : ∀ e ∈ entries, e.Named := fun e he => by
      obtain ⟨_, _, hrecorded, -⟩ := hentries e he
      exact hrecorded.named
    have hnext := hindex hash
    split at hnext
    · refine ⟨_, indexOf_without hof hnamed hnext, fun e he => ?_⟩
      have hfilter := List.mem_filter.mp he
      obtain ⟨key, metadata', hrecorded, hrest⟩ := hentries e hfilter.1
      exact ⟨key, metadata', hrecord_of_ne hrecorded (of_decide_eq_true hfilter.2), hrest⟩
    · next hhash =>
      refine ⟨entries, hof.congr hnext, fun e he => ?_⟩
      obtain ⟨key, metadata', hrecorded, hunmigrated, heq⟩ := hentries e he
      refine ⟨key, metadata', hrecord_of_ne hrecorded fun hname => hhash ?_, hunmigrated, heq⟩
      have hstored := hrecorded.stored
      rw [hname, hdropped.stored] at hstored
      obtain rfl := Option.some.inj hstored
      rw [← heq]
      exact hasString_iff.mpr hunmigrated.keyHash
  · intro key doc entry metadata' hkey hdoc hof hrecorded
    exact h.finished hkey (hlookup hdoc).2 hof (hrecord_old hrecorded).2
  · intro key entry metadata' hrecorded hunmigrated
    obtain ⟨hne, hrecorded⟩ := hrecord_old hrecorded
    refine h.indexed_next hrecorded hunmigrated hne ?_
    rw [hindex]
    split
    · exact Or.inr rfl
    · exact Or.inl rfl

/-- The entry has a record with the key. -/
def HasRecord (keyOf : String → Option String) (s : AuthService) (key : String)
    (entry : LegacyApiKeyEntry) : Prop := ∃ metadata, Recorded keyOf s key entry metadata

omit [External] [Crypto] in
theorem HasRecord.congr (h : ∀ n, t.apiKey n = s.apiKey n) :
    HasRecord keyOf t key entry ↔ HasRecord keyOf s key entry :=
  ⟨fun ⟨metadata, hrecorded⟩ => ⟨metadata, hrecorded.congr (h _).symm⟩,
    fun ⟨metadata, hrecorded⟩ => ⟨metadata, hrecorded.congr (h _)⟩⟩

omit [External] [Crypto] in
/-- A record that goes takes nothing else with it. -/
theorem hasRecord_of_dropped {name : String}
    (hdropped : ∀ n, t.apiKey n = if name = n then none else s.apiKey n) :
    HasRecord keyOf t key entry ↔ HasRecord keyOf s key entry ∧ entry.name ≠ name := by
  constructor
  · rintro ⟨metadata, hrecorded⟩
    have hstored := hrecorded.stored
    have hkey := hdropped entry.name
    rw [hstored] at hkey
    split at hkey
    · cases hkey
    · next hne => exact ⟨⟨metadata, hrecorded.key, hkey.symm, hrecorded.entry⟩, fun h => hne h.symm⟩
  · rintro ⟨⟨metadata, hrecorded⟩, hne⟩
    exact ⟨metadata, hrecorded.congr ((hdropped entry.name).trans (if_neg fun h => hne h.symm))⟩

/-- Documents other than those of keys do not matter, and an index may be written anew. -/
theorem LegacyStore.congr (h : LegacyStore keyOf keys s)
    (husers : ∀ u doc, t.user u = some doc → doc.collection = "users")
    (hkey : ∀ n, t.apiKey n = s.apiKey n) (hlookup : ∀ l, t.apiKeyLookup l = s.apiKeyLookup l)
    (hindex : ∀ h, ∃ entries, IndexOf t h entries ∧ ∀ e ∈ entries, ∃ key metadata,
      Recorded keyOf s key e metadata ∧ Unmigrated metadata key ∧ hashLegacyKey key = h) :
    LegacyStore keyOf keys t := by
  refine ⟨⟨husers, fun n doc hn => h.placed.keys n doc (hkey n ▸ hn)⟩, h.known,
    fun hn hstored => ?_, fun hn hstored => h.others hn (hkey _ ▸ hstored), fun hkey' hdoc => ?_,
    fun hl hdoc hentry hstored => h.otherLookups hl (hlookup _ ▸ hdoc) hentry (hkey _ ▸ hstored),
    fun hash => ?_⟩
  · obtain ⟨entry, hentry, hown, hkind⟩ := h.records hn (hkey _ ▸ hstored)
    exact ⟨entry, hentry, hown, hkind.imp_right fun ⟨hmigrated, doc, hdoc, hof⟩ =>
      ⟨hmigrated, doc, (hlookup _).trans hdoc, hof⟩⟩
  · obtain ⟨entry, metadata, hof, hrecorded⟩ := h.lookups hkey' (hlookup _ ▸ hdoc)
    exact ⟨entry, metadata, hof, hrecorded.congr (hkey _)⟩
  · obtain ⟨entries, hof, hentries⟩ := hindex hash
    refine ⟨entries, hof, fun e he => ?_⟩
    obtain ⟨key, metadata, hrecorded, hrest⟩ := hentries e he
    exact ⟨key, metadata, hrecorded.congr (hkey _), hrest⟩

theorem Started.congr (h : Started keyOf keys s)
    (husers : ∀ u doc, t.user u = some doc → doc.collection = "users")
    (hkey : ∀ n, t.apiKey n = s.apiKey n) (hlookup : ∀ l, t.apiKeyLookup l = s.apiKeyLookup l)
    (hindex : ∀ h, t.legacyIndex h = s.legacyIndex h) : Started keyOf keys t := by
  have hback : ∀ {key entry metadata}, Recorded keyOf t key entry metadata →
      Recorded keyOf s key entry metadata := fun hrecorded => hrecorded.congr (hkey _).symm
  have hentries : ∀ hash, ∃ entries, IndexOf t hash entries ∧ ∀ e ∈ entries, ∃ key metadata,
      Recorded keyOf s key e metadata ∧ Unmigrated metadata key ∧ hashLegacyKey key = hash := by
    intro hash
    obtain ⟨entries, hof, hentries⟩ := h.index hash
    exact ⟨entries, hof.congr (hindex hash), hentries⟩
  refine ⟨h.toLegacyStore.congr husers hkey hlookup hentries,
    fun hkey' hdoc hof hrecorded => h.finished hkey' (hlookup _ ▸ hdoc) hof (hback hrecorded),
    fun hrecorded hunmigrated => ?_⟩
  obtain ⟨entries, hof, hmem, hdoc⟩ := h.indexed (hback hrecorded) hunmigrated
  exact ⟨entries, hof.congr (hindex _), hmem, (hindex _).trans hdoc⟩

theorem Started.sameDocs (h : Started keyOf keys s) (hsame : SameDocs s t) :
    Started keyOf keys t :=
  h.congr (fun u doc hu => h.placed.users u doc ((hsame "users" u).symm.trans hu))
    (hsame "api_keys") (hsame "api_key_lookup") (hsame "api_key_legacy_lookup")

theorem dropApiKeys_started (hkeys : Collisionless keys) (h : Started keyOf keys s)
    {f : Nat → BatchFaults} {names : List String} (hok : (s.dropApiKeys f names).2 = .ok ()) :
    Started keyOf keys (s.dropApiKeys f names).1 ∧
      ∀ {key entry}, HasRecord keyOf (s.dropApiKeys f names).1 key entry ↔
        HasRecord keyOf s key entry ∧ entry.name ∉ names := by
  induction names generalizing f s with
  | nil => exact ⟨h, by simp [dropApiKeys]⟩
  | cons name names ih =>
    have hspec := dropApiKeyLocked_spec (f 0) s name
    have hnext : (s.dropApiKeyLocked (f 0) name).2 = .ok () →
        Started keyOf keys (s.dropApiKeyLocked (f 0) name).1 :=
      dropApiKeyLocked_started hkeys h (f 0)
    unfold dropApiKeys at hok ⊢
    rcases hdrop : s.dropApiKeyLocked (f 0) name with ⟨t, e | u⟩
    · rw [hdrop] at hok
      cases hok
    · rw [hdrop] at hok hspec hnext
      obtain ⟨hstarted, hrecords⟩ := ih (hnext rfl) hok
      rcases hspec with ⟨hne, -⟩ | ⟨-, metadata, hdropped⟩
      · exact absurd rfl hne
      · refine ⟨hstarted, fun {key entry} => hrecords.trans ?_⟩
        rw [hasRecord_of_dropped hdropped.keys, List.mem_cons, not_or, and_assoc]

/-- A dropped user takes its keys along. -/
theorem dropUser_started (hkeys : Collisionless keys) (h : Started keyOf keys s) {f : Faults}
    {cascade : CascadeFaults} {username : String}
    (hok : (s.dropUser f cascade username).2 = .ok ()) :
    Started keyOf keys (s.dropUser f cascade username).1 ∧
      (∀ {key entry}, HasRecord keyOf (s.dropUser f cascade username).1 key entry ↔
        HasRecord keyOf s key entry ∧ entry.username ≠ username) ∧
      ∀ u, u ≠ username → (s.dropUser f cascade username).1.user u = s.user u := by
  have hget := getDocument_delete f s.systemDb "users" username
  unfold dropUser at hok ⊢
  split at hok
  · cases hok
  · next hroot =>
    rw [if_neg hroot]
    rcases hdelete : s.systemDb.deleteDocument f "users" username with ⟨db, e | b⟩
    · rw [hdelete] at hok
      cases hok
    · rw [hdelete] at hok hget
      cases b with
      | false => cases hok
      | true =>
        -- the service without the user
        let t : AuthService := { s with systemDb := db }
        have husers : ∀ u, t.user u = if username = u then none else s.user u := fun u =>
          (hget "users" u).trans (if_congr (by simp) rfl rfl)
        have hsame : ∀ c, "users" ≠ c → ∀ k, t.systemDb.getDocument c (utf8 k) =
            s.systemDb.getDocument c (utf8 k) := fun c hc k =>
          (hget c k).trans (if_neg fun h => hc h.2.1)
        have hstarted : Started keyOf keys t := by
          refine h.congr (fun u doc hu => ?_) (hsame "api_keys" (by decide))
            (hsame "api_key_lookup" (by decide)) (hsame "api_key_legacy_lookup" (by decide))
          rw [husers] at hu
          split at hu
          · cases hu
          · exact h.placed.users u doc hu
        dsimp only at hok ⊢
        unfold deleteApiKeysForUser at hok ⊢
        split at hok
        · cases hok
        · obtain ⟨hnext, hrecords⟩ := dropApiKeys_started hkeys hstarted hok
          refine ⟨hnext, fun {key entry} => hrecords.trans ?_, fun u hu => ?_⟩
          · rw [HasRecord.congr (hsame "api_keys" (by decide))]
            refine and_congr_right fun ⟨metadata, hrecorded⟩ => not_congr ?_
            have hown := (fromLegacyMetadata_iff.mp hrecorded.entry).2.2.1
            rw [mem_apiKeysOf]
            constructor
            · rintro ⟨metadata', hstored, husername⟩
              obtain rfl := Option.some.inj
                (hrecorded.stored.symm.trans ((hsame "api_keys" (by decide) _).symm.trans hstored))
              have heq := hown.symm.trans (hasString_iff.mp husername)
              exact Value.string.inj (Option.some.inj heq)
            · intro heq
              exact ⟨metadata, (hsame "api_keys" (by decide) _).trans hrecorded.stored,
                hasString_iff.mpr (heq ▸ hown)⟩
          · exact ((dropApiKeys_spec ..).users u).trans ((husers u).trans (if_neg (Ne.symm hu)))

/-! ## A start -/

omit [Crypto] in
/-- A lookup document whose record names it is passed over. -/
theorem repairLookup_kept {f : BatchFaults} {lookup : Document}
    (h : ∀ entry metadata, fromLegacyMetadata lookup = some entry →
      s.apiKey entry.name = some metadata →
        metadata.fields.lookup "lookup_id" = some (.string lookup.key)) :
    s.repairLookup f lookup = (s, .ok ()) := by
  unfold repairLookup
  split
  · rfl
  · next entry hentry =>
    have hentry := fromLookupDocument_iff.mp hentry
    cases hstored : s.apiKey entry.name with
    | none => exact ite_self _
    | some metadata =>
      dsimp only
      rw [h entry metadata hentry hstored]
      dsimp only
      rw [if_pos rfl, ite_self]

/-- The record of a lookup document of a key is migrated. -/
def Repaired (keyOf : String → Option String) (keys : Set String) (doc : Document)
    (s : AuthService) : Prop :=
  ∀ key ∈ keys, doc.key = legacyLookupId key → ∀ entry metadata, LookupOf doc key entry →
    Recorded keyOf s key entry metadata → Migrated metadata key

theorem Migration.hasRecord (hm : Migration keyOf s t key entry metadata) {key' : String}
    {other : LegacyApiKeyEntry} : HasRecord keyOf t key' other ↔ HasRecord keyOf s key' other := by
  have hown : ∀ {metadata'}, Recorded keyOf s key' other metadata' → other.name = entry.name →
      key' = key ∧ other = entry := by
    intro metadata' hrecorded hname
    have hkey := hrecorded.key
    rw [hname, hm.recorded.key] at hkey
    have hstored := hrecorded.stored
    rw [hname, hm.recorded.stored] at hstored
    obtain rfl := Option.some.inj hstored
    exact ⟨(Option.some.inj hkey).symm,
      Option.some.inj (hrecorded.entry.symm.trans hm.recorded.entry)⟩
  by_cases hname : other.name = entry.name
  · constructor
    · rintro ⟨metadata', hrecorded⟩
      have hkey := hrecorded.key
      rw [hname, hm.recorded.key] at hkey
      have hstored := hrecorded.stored
      rw [hname, hm.recorded_next.stored] at hstored
      obtain rfl := Option.some.inj hstored
      obtain rfl := Option.some.inj hkey
      obtain rfl := Option.some.inj (hrecorded.entry.symm.trans hm.recorded_next.entry)
      exact ⟨metadata, hm.recorded⟩
    · rintro ⟨metadata', hrecorded⟩
      obtain ⟨rfl, rfl⟩ := hown hrecorded hname
      exact ⟨_, hm.recorded_next⟩
  · have heq := hm.apiKey_of_ne hname
    exact ⟨fun ⟨metadata', hrecorded⟩ => ⟨metadata', hrecorded.congr heq.symm⟩,
      fun ⟨metadata', hrecorded⟩ => ⟨metadata', hrecorded.congr heq⟩⟩

/-- What the steps of a start keep. -/
structure Starting (keyOf : String → Option String) (keys : Set String) (start s : AuthService) :
    Prop where
  store : LegacyStore keyOf keys s
  users : SameUsers start s
  lookups : ∀ l, s.apiKeyLookup l = start.apiKeyLookup l
  records : ∀ {key entry}, HasRecord keyOf s key entry ↔ HasRecord keyOf start key entry

theorem Starting.repairLookup {start : AuthService} (hkeys : Collisionless keys)
    (h : Starting keyOf keys start s) {f : BatchFaults} {doc : Document}
    (hdoc : start.apiKeyLookup doc.key = some doc)
    (hf : (s.repairLookup f doc).2 ≠
      .error "failed to atomically repair partial API key migration") :
    (s.repairLookup f doc).2 = .ok () ∧ Starting keyOf keys start (s.repairLookup f doc).1 ∧
      Repaired keyOf keys doc (s.repairLookup f doc).1 ∧
      ∀ d, Repaired keyOf keys d s → Repaired keyOf keys d (s.repairLookup f doc).1 := by
  have hdoc' := (h.lookups doc.key).trans hdoc
  by_cases hown : ∃ key ∈ keys, legacyLookupId key = doc.key
  · obtain ⟨key, hkey, hid⟩ := hown
    rw [← hid] at hdoc'
    obtain ⟨entry, metadata, hof, hrecorded⟩ := h.store.lookups hkey hdoc'
    obtain ⟨entry', -, hentry', hkind⟩ := h.store.records hrecorded.key hrecorded.stored
    rcases hkind with hunmigrated | ⟨hmigrated, -⟩
    · -- the migration is finished
      obtain ⟨entries, hindex, -⟩ := h.store.index (hashLegacyKey key)
      obtain ⟨t, heq, hfinished, hlookups⟩ := repairLookup_finished h.store.placed hof.entry
        hof.secretHash (hashLegacySecret_ne_empty hkeys hkey) hrecorded.stored hrecorded.entry
        hunmigrated.lookupId hunmigrated.keyHash hindex hf
      rw [← hid] at hfinished
      have hm : Migration keyOf s t key entry metadata :=
        ⟨hrecorded, hunmigrated, hfinished,
          fun doc' hdoc'' => Option.some.inj (hdoc''.symm.trans hdoc') ▸ hof.entry,
          ⟨doc, (hlookups _).trans hdoc', hof⟩, fun l _ => hlookups l⟩
      rw [heq]
      refine ⟨rfl, ⟨h.store.migration hkeys hm, fun u => (hfinished.users u).trans (h.users u),
        fun l => (hlookups l).trans (h.lookups l), hm.hasRecord.trans h.records⟩, ?_, ?_⟩
      · intro key' hkey' hid' other metadata' hof' hrecorded'
        obtain rfl := hkeys.lookupId hkey hkey' (hid.trans hid')
        obtain rfl := Option.some.inj (hof'.entry.symm.trans hof.entry)
        obtain rfl := Option.some.inj (hrecorded'.stored.symm.trans hm.recorded_next.stored)
        exact migrated_migratedMetadata metadata key
      · intro d hd key' hkey' hid' other metadata' hof' hrecorded'
        by_cases hname : other.name = entry.name
        · have hstored := hrecorded'.stored
          rw [hname, hm.recorded_next.stored] at hstored
          obtain rfl := Option.some.inj hstored
          have hsame := hrecorded'.key
          rw [hname, hm.recorded.key] at hsame
          obtain rfl := Option.some.inj hsame
          exact migrated_migratedMetadata metadata key
        · exact hd key' hkey' hid' other metadata' hof'
            (hrecorded'.congr (hm.apiKey_of_ne hname).symm)
    · have hkept : s.repairLookup f doc = (s, .ok ()) := by
        refine repairLookup_kept fun other metadata' hother hstored => ?_
        obtain rfl := Option.some.inj (hother.symm.trans hof.entry)
        obtain rfl := Option.some.inj (hstored.symm.trans hrecorded.stored)
        rw [← hid]
        exact hmigrated.lookupId
      rw [hkept]
      refine ⟨rfl, h, ?_, fun d hd => hd⟩
      intro key' hkey' hid' other metadata' hof' hrecorded'
      obtain rfl := hkeys.lookupId hkey hkey' (hid.trans hid')
      obtain rfl := Option.some.inj (hof'.entry.symm.trans hof.entry)
      obtain rfl := Option.some.inj (hrecorded'.stored.symm.trans hrecorded.stored)
      exact hmigrated
  · -- a lookup document of a key of the other format
    have hkept : s.repairLookup f doc = (s, .ok ()) :=
      repairLookup_kept fun other metadata' hother hstored =>
        h.store.otherLookups (fun key hkey hid => hown ⟨key, hkey, hid⟩) hdoc' hother hstored
    rw [hkept]
    exact ⟨rfl, h, fun key hkey hid => absurd ⟨key, hkey, hid.symm⟩ hown, fun d hd => hd⟩

/-- A record that is not migrated is in the index of its hash. -/
def Entered (keyOf : String → Option String) (metadata : Document) (s : AuthService) : Prop :=
  ∀ key entry, Recorded keyOf s key entry metadata → Unmigrated metadata key →
    ∃ entries, IndexOf s (hashLegacyKey key) entries ∧ entry ∈ entries ∧
      s.legacyIndex (hashLegacyKey key) =
        some (legacyIndexDocument (hashLegacyKey key) entries)

/-- What the second step of a start keeps: it writes the index only. -/
structure Rebuilding (keyOf : String → Option String) (keys : Set String) (start s : AuthService) :
    Prop where
  store : LegacyStore keyOf keys s
  docs : ∀ c k, c ≠ "api_key_legacy_lookup" → s.systemDb.getDocument c (utf8 k) =
    start.systemDb.getDocument c (utf8 k)

/-- A record that is not migrated is entered by the second step. -/
theorem LegacyStore.entry_of_keyHash (h : LegacyStore keyOf keys s) {hash : String}
    (hstored : s.apiKey metadata.key = some metadata)
    (hhash : metadata.fields.lookup "key_hash" = some (.string hash)) :
    ∃ key entry, Recorded keyOf s key entry metadata ∧ Unmigrated metadata key ∧
      hash = hashLegacyKey key := by
  cases hname : keyOf metadata.key with
  | none => exact absurd hhash ((h.others hname hstored).1 hash)
  | some key =>
    obtain ⟨entry, hentry, hown, hunmigrated | ⟨hmigrated, -⟩⟩ := h.records hname hstored
    · have heq := hunmigrated.keyHash
      rw [hhash] at heq
      exact ⟨key, entry, ⟨hentry ▸ hname, hentry ▸ hstored, hown⟩, hunmigrated,
        Value.string.inj (Option.some.inj heq)⟩
    · have heq := hmigrated.keyHash
      rw [hhash] at heq
      cases heq

/-- The step of the second loop, for a record that is not migrated or for another one. -/
theorem LegacyStore.indexMetadata (h : LegacyStore keyOf keys s) {f : BatchFaults}
    (hstored : s.apiKey metadata.key = some metadata)
    (hf : (s.indexMetadata f metadata).2 ≠ .error "failed to persist legacy API key index") :
    ((∀ key, ¬Unmigrated metadata key) ∧ s.indexMetadata f metadata = (s, .ok ())) ∨
    ∃ key entry entries t, Recorded keyOf s key entry metadata ∧ Unmigrated metadata key ∧
      IndexOf s (hashLegacyKey key) entries ∧ s.indexMetadata f metadata = (t, .ok ()) ∧
      ∀ c k, t.systemDb.getDocument c (utf8 k) =
        if c = "api_key_legacy_lookup" ∧ k = hashLegacyKey key then
          some (legacyIndexDocument (hashLegacyKey key) (upsertEntry entry entries))
        else s.systemDb.getDocument c (utf8 k) := by
  unfold AuthService.indexMetadata at hf ⊢
  split
  · next hash hhash =>
    obtain ⟨key, entry, hrecorded, hunmigrated, rfl⟩ := h.entry_of_keyHash hstored hhash
    obtain ⟨entries, hindex, -⟩ := h.index (hashLegacyKey key)
    rw [hhash] at hf
    dsimp only at hf
    rw [hrecorded.entry] at hf ⊢
    obtain ⟨t, heq, hdocs⟩ := upsertLegacyIndexEntry_spec hindex hf
    exact Or.inr ⟨key, entry, entries, t, hrecorded, hunmigrated, hindex, heq, hdocs⟩
  · next hhash =>
    exact Or.inl ⟨fun key hunmigrated => hhash _ hunmigrated.keyHash, rfl⟩

theorem Rebuilding.indexMetadata {start : AuthService} (h : Rebuilding keyOf keys start s)
    {f : BatchFaults} (hstored : start.apiKey metadata.key = some metadata)
    (hf : (s.indexMetadata f metadata).2 ≠ .error "failed to persist legacy API key index") :
    (s.indexMetadata f metadata).2 = .ok () ∧
      Rebuilding keyOf keys start (s.indexMetadata f metadata).1 ∧
      Entered keyOf metadata (s.indexMetadata f metadata).1 ∧
      ∀ d, Entered keyOf d s → Entered keyOf d (s.indexMetadata f metadata).1 := by
  have hstored' : s.apiKey metadata.key = some metadata :=
    (h.docs "api_keys" _ (by decide)).trans hstored
  rcases h.store.indexMetadata hstored' hf with ⟨hnone, heq⟩ |
    ⟨key, entry, entries, t, hrecorded, hunmigrated, hindex, heq, hdocs⟩
  · rw [heq]
    exact ⟨rfl, h, fun key entry _ hunmigrated => absurd hunmigrated (hnone key), fun d hd => hd⟩
  · rw [heq]
    have hentries := h.store.named hindex
    have hnamed : ∀ e ∈ upsertEntry entry entries, e.Named := by
      intro e he
      rcases mem_upsertEntry he with rfl | he
      · exact hrecorded.named
      · obtain ⟨_, _, hrecorded', -⟩ := hentries e he
        exact hrecorded'.named
    have hkeys : ∀ n, t.apiKey n = s.apiKey n := fun n =>
      (hdocs "api_keys" n).trans (if_neg fun h => absurd h.1 (by decide))
    have hlookups : ∀ l, t.apiKeyLookup l = s.apiKeyLookup l := fun l =>
      (hdocs "api_key_lookup" l).trans (if_neg fun h => absurd h.1 (by decide))
    have hwritten : t.legacyIndex (hashLegacyKey key) = some (legacyIndexDocument
        (hashLegacyKey key) (upsertEntry entry entries)) :=
      (hdocs "api_key_legacy_lookup" _).trans (if_pos ⟨rfl, rfl⟩)
    have hother : ∀ {hash}, hash ≠ hashLegacyKey key → t.legacyIndex hash = s.legacyIndex hash :=
      fun hne => (hdocs "api_key_legacy_lookup" _).trans (if_neg fun h => hne h.2)
    have hread : IndexOf t (hashLegacyKey key) (upsertEntry entry entries) := by
      unfold IndexOf
      rw [hwritten]
      exact legacyIndexEntries_document hnamed _
    have hstore : LegacyStore keyOf keys t := by
      refine h.store.congr (fun u doc hu => ?_) hkeys hlookups fun hash => ?_
      · refine h.store.placed.users u doc (Eq.trans ?_ hu)
        exact ((hdocs "users" u).trans (if_neg fun h => absurd h.1 (by decide))).symm
      · by_cases hhash : hash = hashLegacyKey key
        · subst hhash
          refine ⟨_, hread, fun e he => ?_⟩
          rcases mem_upsertEntry he with rfl | he
          · exact ⟨key, metadata, hrecorded, hunmigrated, rfl⟩
          · exact hentries e he
        · obtain ⟨entries', hindex', hentries'⟩ := h.store.index hash
          exact ⟨entries', hindex'.congr (hother hhash), hentries'⟩
    refine ⟨rfl, ⟨hstore, fun c k hc => ?_⟩, fun key' entry' hrecorded' hunmigrated' => ?_,
      fun d hd key' entry' hrecorded' hunmigrated' => ?_⟩
    · exact ((hdocs c k).trans (if_neg fun h => hc h.1)).trans (h.docs c k hc)
    · obtain rfl := Option.some.inj (hrecorded'.entry.symm.trans hrecorded.entry)
      obtain rfl := Option.some.inj (hrecorded'.key.symm.trans hrecorded.key)
      exact ⟨_, hread, mem_upsertEntry_self, hwritten⟩
    · have hold := hrecorded'.congr (hkeys _).symm
      obtain ⟨entries', hindex', hmem, hdoc⟩ := hd key' entry' hold hunmigrated'
      by_cases hhash : hashLegacyKey key' = hashLegacyKey key
      · rw [hhash] at hindex' ⊢
        obtain rfl := hindex.unique hindex'
        refine ⟨_, hread, ?_, hwritten⟩
        by_cases hname : entry'.name = entry.name
        · -- one name has one record
          have hstored'' := hold.stored
          rw [hname, hrecorded.stored] at hstored''
          obtain rfl := Option.some.inj hstored''
          obtain rfl := Option.some.inj (hold.entry.symm.trans hrecorded.entry)
          exact mem_upsertEntry_self
        · exact mem_upsertEntry_of_ne hmem hname
      · exact ⟨entries', hindex'.congr (hother hhash), hmem, (hother hhash).trans hdoc⟩

/-- The batches of a start are accepted. -/
def StartAccepted (r : AuthService × Except String Unit) : Prop :=
  r.2 ≠ .error "failed to atomically repair partial API key migration" ∧
    r.2 ≠ .error "failed to persist legacy API key index"

omit [External] [Crypto] in
theorem mem_stored {c : String} {doc : Document} :
    doc ∈ s.systemDb.storedDocuments c ↔
      s.systemDb.getDocument c (utf8 doc.key) = some doc :=
  Database.mem_storedDocuments

/-- The first step of a start finishes all migrations. -/
theorem repairPartialApiKeyMigrations_spec (hkeys : Collisionless keys)
    (h : LegacyStore keyOf keys s) (f : StartFaults)
    (hf : (s.repairPartialApiKeyMigrations f).2 ≠
      .error "failed to atomically repair partial API key migration") :
    (s.repairPartialApiKeyMigrations f).2 = .ok () ∧
      Starting keyOf keys s (s.repairPartialApiKeyMigrations f).1 ∧
      ∀ {key doc entry metadata}, key ∈ keys →
        (s.repairPartialApiKeyMigrations f).1.apiKeyLookup (legacyLookupId key) = some doc →
        LookupOf doc key entry →
        Recorded keyOf (s.repairPartialApiKeyMigrations f).1 key entry metadata →
        Migrated metadata key := by
  have hstart : Starting keyOf keys s s :=
    ⟨h, fun u => rfl, fun l => rfl, Iff.rfl⟩
  have hsame : ∀ t, Starting keyOf keys s t → SameIn "api_key_lookup" s t := fun t ht =>
    sameIn_of_getDocument ht.lookups
  have hstep : ∀ t, ∀ doc ∈ s.systemDb.storedDocuments "api_key_lookup", Starting keyOf keys s t →
      (t.repairLookup (f.repair doc) doc).2 ≠
        .error "failed to atomically repair partial API key migration" →
      (t.repairLookup (f.repair doc) doc).2 = .ok () ∧
        Starting keyOf keys s (t.repairLookup (f.repair doc) doc).1 ∧
        Repaired keyOf keys doc (t.repairLookup (f.repair doc) doc).1 ∧
        ∀ d, Repaired keyOf keys d t →
          Repaired keyOf keys d (t.repairLookup (f.repair doc) doc).1 :=
    fun t doc hdoc ht hne => ht.repairLookup hkeys (mem_stored.mp hdoc) hne
  have hpages : s.repairPartialApiKeyMigrations f = eachDocument
      (fun s doc => s.repairLookup (f.repair doc) doc) s
      (s.systemDb.storedDocuments "api_key_lookup") := by
    refine eachPage_eq hsame (fun t doc hdoc ht hok => ?_) hstart
    exact (hstep t doc hdoc ht (by rw [hok]; nofun)).2.1
  rw [hpages] at hf ⊢
  obtain ⟨hok, hnext, hall, -⟩ := eachDocument_spec hstep hstart hf
  refine ⟨hok, hnext, fun {key doc entry metadata} hkey hdoc hof hrecorded => ?_⟩
  rw [hnext.lookups] at hdoc
  have hid : doc.key = legacyLookupId key := key_of_getDocument hdoc
  have hmem : doc ∈ s.systemDb.storedDocuments "api_key_lookup" := by
    rw [mem_stored, hid]
    exact hdoc
  exact hall doc hmem key hkey hid entry metadata hof hrecorded

/-- The second step of a start enters all records that are not migrated. -/
theorem rebuildLegacyApiKeyIndex_spec (h : LegacyStore keyOf keys s) (f : StartFaults)
    (hf : (s.rebuildLegacyApiKeyIndex f).2 ≠ .error "failed to persist legacy API key index") :
    (s.rebuildLegacyApiKeyIndex f).2 = .ok () ∧
      Rebuilding keyOf keys s (s.rebuildLegacyApiKeyIndex f).1 ∧
      ∀ name metadata, s.apiKey name = some metadata →
        Entered keyOf metadata (s.rebuildLegacyApiKeyIndex f).1 := by
  have hstart : Rebuilding keyOf keys s s := ⟨h, fun c k hc => rfl⟩
  have hsame : ∀ t, Rebuilding keyOf keys s t → SameIn "api_keys" s t := fun t ht =>
    sameIn_of_getDocument fun k => ht.docs "api_keys" k (by decide)
  have hstep : ∀ t, ∀ doc ∈ s.systemDb.storedDocuments "api_keys", Rebuilding keyOf keys s t →
      (t.indexMetadata (f.index doc) doc).2 ≠ .error "failed to persist legacy API key index" →
      (t.indexMetadata (f.index doc) doc).2 = .ok () ∧
        Rebuilding keyOf keys s (t.indexMetadata (f.index doc) doc).1 ∧
        Entered keyOf doc (t.indexMetadata (f.index doc) doc).1 ∧
        ∀ d, Entered keyOf d t → Entered keyOf d (t.indexMetadata (f.index doc) doc).1 :=
    fun t doc hdoc ht hne => ht.indexMetadata (mem_stored.mp hdoc) hne
  have hpages : s.rebuildLegacyApiKeyIndex f = eachDocument
      (fun s doc => s.indexMetadata (f.index doc) doc) s
      (s.systemDb.storedDocuments "api_keys") := by
    refine eachPage_eq hsame (fun t doc hdoc ht hok => ?_) hstart
    exact (hstep t doc hdoc ht (by rw [hok]; nofun)).2.1
  rw [hpages] at hf ⊢
  obtain ⟨hok, hnext, hall, -⟩ := eachDocument_spec hstep hstart hf
  refine ⟨hok, hnext, fun name metadata hstored => hall metadata ?_⟩
  rw [mem_stored, show metadata.key = name from key_of_getDocument hstored]
  exact hstored

/-- A start brings a store in order and takes no record away. -/
theorem startup_spec (hkeys : Collisionless keys) (h : LegacyStore keyOf keys s) (f : StartFaults)
    (hf : StartAccepted (s.startup f)) :
    (s.startup f).2 = .ok () ∧ Started keyOf keys (s.startup f).1 ∧
      SameUsers s (s.startup f).1 ∧
      ∀ {key entry}, HasRecord keyOf (s.startup f).1 key entry ↔ HasRecord keyOf s key entry := by
  unfold StartAccepted startup at hf
  unfold startup
  have hrepair := repairPartialApiKeyMigrations_spec hkeys h f
  rcases heq : s.repairPartialApiKeyMigrations f with ⟨t, e | u⟩
  · rw [heq] at hrepair hf
    cases (hrepair hf.1).1
  · rw [heq] at hrepair hf
    obtain ⟨-, hstarting, hfinished⟩ := hrepair nofun
    obtain ⟨hok, hrebuilt, hentered⟩ := rebuildLegacyApiKeyIndex_spec hstarting.store f hf.2
    have hsame : ∀ n, (t.rebuildLegacyApiKeyIndex f).1.apiKey n = t.apiKey n := fun n =>
      hrebuilt.docs "api_keys" n (by decide)
    refine ⟨hok, ⟨hrebuilt.store, fun hkey hdoc hof hrecorded => ?_,
      fun {key entry metadata} hrecorded hunmigrated => ?_⟩,
      fun u => (hrebuilt.docs "users" u (by decide)).trans (hstarting.users u),
      (HasRecord.congr hsame).trans hstarting.records⟩
    · refine hfinished hkey (Eq.trans ?_ hdoc) hof (hrecorded.congr (hsame _).symm)
      exact (hrebuilt.docs "api_key_lookup" _ (by decide)).symm
    · exact hentered _ metadata ((hsame _).symm.trans hrecorded.stored) key entry hrecorded
        hunmigrated

/-- A further start changes nothing. -/
theorem startup_started (h : Started keyOf keys s) (f : StartFaults)
    (hf : StartAccepted (s.startup f)) :
    (s.startup f).2 = .ok () ∧ SameDocs s (s.startup f).1 := by
  -- every lookup document is passed over
  have hkept : ∀ doc, s.apiKeyLookup doc.key = some doc → ∀ f,
      s.repairLookup f doc = (s, .ok ()) := by
    refine fun doc hdoc f => repairLookup_kept fun entry metadata hentry hstored => ?_
    by_cases hown : ∃ key ∈ keys, legacyLookupId key = doc.key
    · obtain ⟨key, hkey, hid⟩ := hown
      rw [← hid] at hdoc ⊢
      obtain ⟨entry', metadata', hof, hrecorded⟩ := h.lookups hkey hdoc
      obtain rfl := Option.some.inj (hentry.symm.trans hof.entry)
      obtain rfl := Option.some.inj (hstored.symm.trans hrecorded.stored)
      exact (h.finished hkey hdoc hof hrecorded).lookupId
    · exact h.otherLookups (fun key hkey hid => hown ⟨key, hkey, hid⟩) hdoc hentry hstored
  have hrepair : s.repairPartialApiKeyMigrations f = (s, .ok ()) := by
    have hstep : ∀ t, ∀ doc ∈ s.systemDb.storedDocuments "api_key_lookup", t = s →
        (t.repairLookup (f.repair doc) doc).2 = .ok () →
        (t.repairLookup (f.repair doc) doc).1 = s := by
      rintro t doc hdoc rfl -
      rw [hkept doc (mem_stored.mp hdoc)]
    have hsame : ∀ t, t = s → SameIn "api_key_lookup" s t := by
      rintro t rfl
      rfl
    refine (eachPage_eq hsame hstep rfl).trans ?_
    have hall : ∀ docs, (∀ doc ∈ docs, s.apiKeyLookup doc.key = some doc) → eachDocument
        (fun s doc => s.repairLookup (f.repair doc) doc) s docs = (s, .ok ()) := by
      intro docs hdocs
      induction docs with
      | nil => rfl
      | cons doc docs ih =>
        rw [List.forall_mem_cons] at hdocs
        unfold eachDocument
        rw [hkept doc hdocs.1]
        exact ih hdocs.2
    exact hall _ fun doc hdoc => mem_stored.mp hdoc
  unfold StartAccepted startup at hf
  unfold startup
  rw [hrepair] at hf ⊢
  dsimp only at hf ⊢
  -- an entry that is there is written as it is
  have hsame : ∀ t, SameDocs s t → SameIn "api_keys" s t := fun t ht =>
    sameIn_of_getDocument (ht "api_keys")
  have hstep : ∀ t, ∀ doc ∈ s.systemDb.storedDocuments "api_keys", SameDocs s t →
      (t.indexMetadata (f.index doc) doc).2 ≠ .error "failed to persist legacy API key index" →
      (t.indexMetadata (f.index doc) doc).2 = .ok () ∧
        SameDocs s (t.indexMetadata (f.index doc) doc).1 ∧ True ∧ ∀ d : Document, True → True := by
    intro t doc hdoc ht hne
    have hstarted := h.sameDocs ht
    have hstored : t.apiKey doc.key = some doc := (ht "api_keys" _).trans (mem_stored.mp hdoc)
    rcases hstarted.toLegacyStore.indexMetadata hstored hne with ⟨-, heq⟩ |
      ⟨key, entry, entries, t', hrecorded, hunmigrated, hindex, heq, hdocs⟩
    · rw [heq]
      exact ⟨rfl, ht, trivial, fun _ _ => trivial⟩
    · rw [heq]
      refine ⟨rfl, fun c k => ?_, trivial, fun _ _ => trivial⟩
      obtain ⟨entries', hindex', hmem, hdoc'⟩ := hstarted.indexed hrecorded hunmigrated
      obtain rfl := hindex.unique hindex'
      have hunique : ∀ e ∈ entries, e.name = entry.name → e = entry := by
        intro e he hname
        obtain ⟨key', metadata', hrecorded', -⟩ := hstarted.named hindex e he
        have hstored' := hrecorded'.stored
        rw [hname, hrecorded.stored] at hstored'
        obtain rfl := Option.some.inj hstored'
        exact Option.some.inj (hrecorded'.entry.symm.trans hrecorded.entry)
      have hwritten := hdocs c k
      rw [upsertEntry_of_mem hmem hunique] at hwritten
      split at hwritten
      · next hplace =>
        obtain ⟨rfl, rfl⟩ := hplace
        exact hwritten.trans (hdoc'.symm.trans (ht _ _))
      · exact hwritten.trans (ht c k)
  have hpages : s.rebuildLegacyApiKeyIndex f = eachDocument
      (fun s doc => s.indexMetadata (f.index doc) doc) s
      (s.systemDb.storedDocuments "api_keys") := by
    refine eachPage_eq hsame (fun t doc hdoc ht hok => ?_) fun c k => rfl
    exact (hstep t doc hdoc ht (by rw [hok]; exact fun h => by cases h)).2.1
  rw [hpages] at hf ⊢
  obtain ⟨hok, hdocs, -⟩ :=
    eachDocument_spec (P := SameDocs s) (Q := fun _ _ => True) hstep (fun c k => rfl) hf.2
  exact ⟨hok, hdocs⟩

/-! ## An authentication -/

omit [External] [Crypto] in
theorem SameUsers.resolve (h : SameUsers s t) (username identity : String) :
    t.resolveApiKeySubject username identity = s.resolveApiKeySubject username identity := by
  unfold resolveApiKeySubject
  rw [h username]

/-- Tokens of the other formats change nothing. -/
theorem authenticate_other {f : BatchFaults} {now : Nat} {token : String}
    (hparse : parseApiKey token ≠ some .legacy) : (s.authenticate f now token).1 = s := by
  unfold authenticate authenticateApiKey
  split
  · split
    · rfl
    · split <;> rfl
    · next hlegacy => exact absurd hlegacy hparse
  · rfl

/-- A key of the old format is authenticated as the user of a record with the key, which is
migrated then. -/
theorem authenticate_legacy (hkeys : Collisionless keys) (h : Started keyOf keys s)
    {f : BatchFaults} {now : Nat} (hkey : key ∈ keys) (hparse : parseApiKey key = some .legacy)
    (hf : (s.authenticate f now key).2 ≠ .error "failed to atomically migrate legacy API key") :
    ((∀ entry, ¬HasRecord keyOf s key entry) ∧ ∃ e, s.authenticate f now key = (s, .error e)) ∨
    ∃ entry metadata, Recorded keyOf s key entry metadata ∧
      (s.authenticate f now key).2 = s.resolveApiKeySubject entry.username entry.userIdentity ∧
      ((s.authenticate f now key).1 = s ∧
          (Migrated metadata key ∨ ∃ e, (s.authenticate f now key).2 = .error e) ∨
        Migration keyOf s (s.authenticate f now key).1 key entry metadata) := by
  have hisKey : isApiKey key = true := by
    unfold parseApiKey at hparse
    unfold isApiKey
    split at hparse
    · cases hparse
    · next hstrip => rw [hstrip]; rfl
  have hcall : s.authenticate f now key = s.authenticateLegacyApiKey f key := by
    unfold authenticate authenticateApiKey
    rw [if_pos hisKey, hparse]
  rw [hcall] at hf ⊢
  unfold authenticateLegacyApiKey repairOrAuthenticateMigratedLegacy at hf ⊢
  dsimp only at hf ⊢
  cases hlookup : s.apiKeyLookup (legacyLookupId key) with
  | some doc =>
    -- the record is migrated
    obtain ⟨entry, metadata, hof, hrecorded⟩ := h.lookups hkey hlookup
    have hmigrated := h.finished hkey hlookup hof hrecorded
    have hcheck : s.checkMigratedLegacy key (hashLegacyKey key) (legacyLookupId key) =
        .ok (.migrated entry) := by
      unfold checkMigratedLegacy
      rw [hlookup]
      dsimp only
      rw [stringField_of_lookup hof.secretHash (hashLegacySecret_ne_empty hkeys hkey)]
      show (if _ then _ else _) = _
      rw [verifyLegacySecret_self, if_neg (by decide), fromLookupDocument_iff.mpr hof.entry]
      rw [ok_bind, hrecorded.stored]
      dsimp only
      rw [if_pos (hasString_iff.mpr hmigrated.lookupId), matchesMetadata_eq hrecorded.entry]
      show (if decide (entry = entry) = true then _ else _) = _
      rw [if_pos (decide_eq_true rfl)]
      rfl
    rw [hcheck]
    refine Or.inr ⟨entry, metadata, hrecorded, ?_⟩
    dsimp only
    cases s.resolveApiKeySubject entry.username entry.userIdentity with
    | error e => exact ⟨rfl, Or.inl ⟨rfl, Or.inl hmigrated⟩⟩
    | ok subject => exact ⟨rfl, Or.inl ⟨rfl, Or.inl hmigrated⟩⟩
  | none =>
    have hcheck : s.checkMigratedLegacy key (hashLegacyKey key) (legacyLookupId key) =
        .ok .absent := by
      unfold checkMigratedLegacy
      rw [hlookup]
    rw [hcheck] at hf ⊢
    dsimp only at hf ⊢
    obtain ⟨entries, hindex, hentries⟩ := h.index (hashLegacyKey key)
    -- without a lookup document, all records of the key are in the index
    have hall : ∀ entry, HasRecord keyOf s key entry → entry ∈ entries := by
      rintro entry ⟨metadata, hrecorded⟩
      obtain ⟨-, -, -, hunmigrated | ⟨-, doc, hdoc, -⟩⟩ :=
        h.records hrecorded.key hrecorded.stored
      · obtain ⟨entries', hindex', hmem, -⟩ := h.indexed hrecorded hunmigrated
        rwa [hindex.unique hindex']
      · rw [hlookup] at hdoc
        cases hdoc
    have hread := hindex
    unfold IndexOf at hread
    cases hdoc : s.legacyIndex (hashLegacyKey key) with
    | none =>
      rw [hdoc] at hread
      obtain rfl : entries = [] := hread
      exact Or.inl ⟨fun entry hrecord => absurd (hall entry hrecord) List.not_mem_nil, _, rfl⟩
    | some doc =>
      rw [hdoc] at hread hf
      dsimp only at hread hf ⊢
      rw [hread] at hf ⊢
      cases entries with
      | nil =>
        exact Or.inl ⟨fun entry hrecord => absurd (hall entry hrecord) List.not_mem_nil, _, rfl⟩
      | cons entry entries =>
        -- the first entry of the index has a record with the key
        obtain ⟨key', metadata, hrecorded, hunmigrated, hhash⟩ := hentries entry List.mem_cons_self
        obtain rfl := hkeys.legacyHash (h.known hrecorded.key) hkey hhash
        have hfound : s.findLegacyEntry key' (entry :: entries) = .ok (some (entry, metadata)) := by
          unfold findLegacyEntry
          rw [hrecorded.stored]
          dsimp only
          rw [hunmigrated.keyHash]
          dsimp only
          rw [verifyLegacyLookupHash_self, if_neg (by decide), matchesMetadata_eq hrecorded.entry]
          show (if decide (entry = entry) = true then _ else _) = _
          rw [if_pos (decide_eq_true rfl)]
          rfl
        have hagrees : s.lookupAgrees key' (legacyLookupId key') entry = .ok true := by
          unfold lookupAgrees
          rw [hlookup]
        have hbind : (Except.ok (entry :: entries) >>= s.findLegacyEntry key' : Except String _) =
            .ok (some (entry, metadata)) := hfound
        rw [hbind] at hf ⊢
        refine Or.inr ⟨entry, metadata, hrecorded, ?_⟩
        dsimp only at hf ⊢
        cases hresolve : s.resolveApiKeySubject entry.username entry.userIdentity with
        | error e => exact ⟨rfl, Or.inl ⟨rfl, Or.inr ⟨e, rfl⟩⟩⟩
        | ok subject =>
          rw [hresolve] at hf
          dsimp only at hf ⊢
          have hfinalize : (s.finalizeLegacyApiKeyMigration f key' (hashLegacyKey key')
              (legacyLookupId key') metadata entry).2 ≠
              .error "failed to atomically migrate legacy API key" := by
            intro heq
            rcases hres : s.finalizeLegacyApiKeyMigration f key' (hashLegacyKey key')
              (legacyLookupId key') metadata entry with ⟨t, r⟩
            rw [hres] at heq hf
            obtain rfl : r = _ := heq
            exact hf rfl
          obtain ⟨t, heq, hfinished, hlookups⟩ := finalize_finished h.placed hrecorded.stored
            hagrees hindex hfinalize
          rw [heq]
          dsimp only
          rw [SameUsers.resolve hfinished.users, hresolve]
          refine ⟨rfl, Or.inr ⟨hrecorded, hunmigrated, hfinished, fun doc hdoc => ?_,
            ⟨_, (hlookups _).trans (if_pos rfl), rfl, ?_⟩,
            fun l hl => (hlookups l).trans (if_neg hl)⟩⟩
          · rw [hlookup] at hdoc
            cases hdoc
          · exact fromLegacyMetadata_iff.mpr ⟨hrecorded.named, rfl, rfl, rfl⟩

/-! ## Runs -/

/-- What happens to keys of the old format. -/
inductive LegacyEvent where
  | restart (f : StartFaults)
  | authenticate (f : BatchFaults) (now : Nat) (token : String)
  | dropApiKey (f : BatchFaults) (name : String)
  | dropUser (f : Faults) (cascade : CascadeFaults) (username : String)

namespace LegacyEvent

def next (s : AuthService) : LegacyEvent → AuthService
  | .restart f => (s.startup f).1
  | .authenticate f now token => (s.authenticate f now token).1
  | .dropApiKey f name => (s.dropApiKeyLocked f name).1
  | .dropUser f cascade username => (s.dropUser f cascade username).1

/-- The storage engine accepts what the event writes, a dropped user is dropped with all its keys,
and the key that is presented is one of the keys. -/
def Completes (keys : Set String) (s : AuthService) : LegacyEvent → Prop
  | .restart f => StartAccepted (s.startup f)
  | .authenticate f now token => (parseApiKey token = some .legacy → token ∈ keys) ∧
      (s.authenticate f now token).2 ≠ .error "failed to atomically migrate legacy API key"
  | .dropApiKey f name => ∀ e, (s.dropApiKeyLocked f name).2 ≠ .error (.internal e)
  | .dropUser f cascade username => (s.dropUser f cascade username).2 = .ok ()

/-- The event drops the record of the entry. -/
def Drops (entry : LegacyApiKeyEntry) : LegacyEvent → Prop
  | .dropApiKey _ name => name = entry.name
  | .dropUser _ _ username => username = entry.username
  | _ => False

end LegacyEvent

/-- What an event leaves as it is: all records but those it drops, and the users of these. -/
structure RecordsKept (keyOf : String → Option String) (keys : Set String) (s t : AuthService)
    (dropped : LegacyApiKeyEntry → Prop) : Prop where
  started : Started keyOf keys t
  records : ∀ {key entry}, HasRecord keyOf t key entry ↔
    HasRecord keyOf s key entry ∧ ¬dropped entry
  users : ∀ entry, ¬dropped entry → t.user entry.username = s.user entry.username
  migrated : ∀ {name key metadata metadata'}, keyOf name = some key →
    s.apiKey name = some metadata → Migrated metadata key → t.apiKey name = some metadata' →
    Migrated metadata' key

theorem RecordsKept.of_sameDocs (h : Started keyOf keys s) (hsame : SameDocs s t)
    {dropped : LegacyApiKeyEntry → Prop}
    (hnone : ∀ key entry, HasRecord keyOf s key entry → ¬dropped entry) :
    RecordsKept keyOf keys s t dropped := by
  refine ⟨h.sameDocs hsame, fun {key entry} => (HasRecord.congr (hsame "api_keys")).trans
    ⟨fun hrecord => ⟨hrecord, hnone key entry hrecord⟩, And.left⟩,
    fun entry _ => hsame "users" _, fun _ hstored hmigrated hstored' => ?_⟩
  have heq := (hsame "api_keys" _).symm.trans hstored'
  obtain rfl := Option.some.inj (hstored.symm.trans heq)
  exact hmigrated

/-- One event. -/
theorem LegacyEvent.step (hkeys : Collisionless keys) (h : Started keyOf keys s)
    {event : LegacyEvent} (hevent : event.Completes keys s) :
    RecordsKept keyOf keys s (event.next s) event.Drops := by
  cases event with
  | restart f =>
    exact RecordsKept.of_sameDocs h (startup_started h f hevent).2 fun _ _ _ hdrops => hdrops
  | authenticate f now token =>
    show RecordsKept keyOf keys s (s.authenticate f now token).1 fun _ => False
    by_cases hparse : parseApiKey token = some .legacy
    · rcases authenticate_legacy hkeys h (hevent.1 hparse) hparse hevent.2 with
        ⟨-, e, heq⟩ | ⟨entry, metadata, hrecorded, -, ⟨heq, -⟩ | hm⟩
      · rw [heq]
        exact RecordsKept.of_sameDocs h (fun c k => rfl) fun _ _ _ => not_false
      · rw [heq]
        exact RecordsKept.of_sameDocs h (fun c k => rfl) fun _ _ _ => not_false
      · refine ⟨h.migration hkeys hm, hm.hasRecord.trans (and_iff_left not_false).symm,
          fun entry _ => hm.effect.users _, ?_⟩
        intro name key metadata metadata' hname hstored hmigrated hstored'
        have hne : name ≠ entry.name := by
          rintro rfl
          obtain rfl := Option.some.inj (hstored.symm.trans hm.recorded.stored)
          exact hmigrated.not_unmigrated hm.unmigrated
        rw [hm.apiKey_of_ne hne, hstored] at hstored'
        exact Option.some.inj hstored' ▸ hmigrated
    · rw [authenticate_other hparse]
      exact RecordsKept.of_sameDocs h (fun c k => rfl) fun _ _ _ => not_false
  | dropApiKey f name =>
    show RecordsKept keyOf keys s (s.dropApiKeyLocked f name).1 fun entry => name = entry.name
    rcases dropApiKeyLocked_spec f s name with ⟨hne, hsame⟩ | ⟨hok, metadata, hdropped⟩
    · refine RecordsKept.of_sameDocs h hsame ?_
      rintro key entry ⟨metadata, hrecorded⟩ rfl
      -- a drop that fails is about a name without a record
      have hevent : ∀ e, (s.dropApiKeyLocked f entry.name).2 ≠ .error (.internal e) := hevent
      unfold dropApiKeyLocked at hne hevent
      rw [hrecorded.stored] at hne hevent
      dsimp only at hne hevent
      split at hne
      · next e heq =>
        rw [heq] at hevent
        exact hevent _ rfl
      · next removal heq =>
        rw [heq] at hevent
        dsimp only at hevent
        split at hne
        · exact hne rfl
        · next t e hbatch =>
          rw [hbatch] at hevent
          exact hevent e rfl
    · refine ⟨dropApiKeyLocked_started hkeys h f hok,
        (hasRecord_of_dropped hdropped.keys).trans (and_congr_right fun _ => not_congr eq_comm),
        fun entry _ => hdropped.users _, ?_⟩
      intro name' key metadata' metadata'' _ hstored hmigrated hstored'
      rw [hdropped.keys] at hstored'
      split at hstored'
      · cases hstored'
      · rw [hstored] at hstored'
        exact Option.some.inj hstored' ▸ hmigrated
  | dropUser f cascade username =>
    show RecordsKept keyOf keys s (s.dropUser f cascade username).1
      fun entry => username = entry.username
    have hok : (s.dropUser f cascade username).2 = .ok () := hevent
    obtain ⟨hstarted, hrecords, husers⟩ := dropUser_started hkeys h hok
    refine ⟨hstarted, hrecords.trans (and_congr_right fun _ => not_congr eq_comm),
      fun entry hne => husers _ (Ne.symm hne), ?_⟩
    intro name key metadata metadata' _ hstored hmigrated hstored'
    have hkeys : ∀ n, (s.dropUser f cascade username).1.apiKey n = s.apiKey n ∨
        (s.dropUser f cascade username).1.apiKey n = none := by
      intro n
      rcases dropUser_spec f cascade s username with ⟨-, hsame⟩ | ⟨-, -, hdropped⟩
      · exact Or.inl (hsame "api_keys" n)
      · exact (hdropped.keys n).imp_right And.left
    rcases hkeys name with heq | hnone
    · rw [heq, hstored] at hstored'
      exact Option.some.inj hstored' ▸ hmigrated
    · rw [hnone] at hstored'
      cases hstored'

/-- The events drop the record of the entry. -/
def DroppedBy (events : List LegacyEvent) (entry : LegacyApiKeyEntry) : Prop :=
  ∃ event ∈ events, event.Drops entry

/-- A run of events, by induction on it: each event keeps what the ones before it have kept. -/
theorem LegacyEvent.run (hkeys : Collisionless keys) (h : Started keyOf keys s)
    {events : List LegacyEvent}
    (hevents : Runs.Meets LegacyEvent.next (fun s event => event.Completes keys s) s events) :
    RecordsKept keyOf keys s (events.foldl LegacyEvent.next s) (DroppedBy events) := by
  induction events generalizing s with
  | nil => exact RecordsKept.of_sameDocs h (fun c k => rfl) fun _ _ _ ⟨_, hmem, _⟩ => nomatch hmem
  | cons event events ih =>
    obtain ⟨hevent, hrest⟩ := hevents
    have hstep := LegacyEvent.step hkeys h hevent
    have hrun := ih hstep.started hrest
    have hdropped : ∀ entry, ¬DroppedBy (event :: events) entry ↔
        ¬event.Drops entry ∧ ¬DroppedBy events entry := fun entry => by
      unfold DroppedBy
      rw [List.exists_mem_cons_iff, not_or]
    refine ⟨hrun.started, ?_, fun entry hentry => ?_, ?_⟩
    · intro key entry
      rw [hdropped, ← and_assoc, ← hstep.records]
      exact hrun.records
    · obtain ⟨hfirst, hlast⟩ := (hdropped entry).mp hentry
      exact (hrun.users entry hlast).trans (hstep.users entry hfirst)
    · intro name key metadata metadata' hname hstored hmigrated hstored'
      cases hmiddle : (event.next s).apiKey name with
      | some middle =>
        exact hrun.migrated hname hmiddle (hstep.migrated hname hstored hmigrated hmiddle) hstored'
      | none =>
        -- a record that is gone does not come back
        obtain ⟨entry, hentry, hown, -⟩ := hrun.started.records hname hstored'
        have hrecord : HasRecord keyOf (events.foldl LegacyEvent.next (event.next s)) key entry :=
          ⟨metadata', hentry ▸ hname, hentry ▸ hstored', hown⟩
        obtain ⟨⟨middle, hrecorded⟩, -⟩ := hrun.records.mp hrecord
        have hstored'' := hrecorded.stored
        rw [hentry, hmiddle] at hstored''
        cases hstored''

omit [External] [Crypto] in
theorem resolveApiKeySubject_principal {username identity : String} {r : ResolvedSubject}
    (h : s.resolveApiKeySubject username identity = .ok r) :
    r.subject.userId = username ∧ r.principalIdentity = identity := by
  unfold resolveApiKeySubject at h
  split at h
  · cases h
  · split at h
    · cases h
    · split at h
      · cases h
      · next hne =>
        obtain rfl := Except.ok.inj h
        exact ⟨rfl, not_not.mp hne⟩

omit [External] [Crypto] in
theorem exists_resolveApiKeySubject {username identity : String}
    (h : HasIdentity identity (s.user username)) :
    ∃ r, s.resolveApiKeySubject username identity = .ok r := by
  obtain ⟨userDoc, huser, hidentity⟩ := h
  unfold resolveApiKeySubject
  rw [huser]
  dsimp only
  rw [hidentity]
  exact ⟨_, if_neg (not_not.mpr rfl)⟩

/-- A record is migrated as a whole or not at all. -/
theorem Started.kind (h : Started keyOf keys s) {name : String} (hname : keyOf name = some key)
    (hstored : s.apiKey name = some metadata) :
    Unmigrated metadata key ∨ Migrated metadata key ∧
      ∀ h entries, IndexOf s h entries → ∀ e ∈ entries, e.name ≠ name := by
  obtain ⟨own, _, _, hkind⟩ := h.records hname hstored
  refine Or.imp_right (fun hkind => ⟨hkind.1, fun hash entries hindex e he => ?_⟩) hkind
  rintro rfl
  obtain ⟨key', metadata', hrecorded, hunmigrated, -⟩ := h.named hindex e he
  obtain rfl := Option.some.inj (hstored.symm.trans hrecorded.stored)
  exact hkind.1.not_unmigrated hunmigrated

/-- A start and any calls after it: a key whose records are those of stored users is accepted as
long as a record with it is left, and as the user of such a record, which is migrated then.
A migrated record has a lookup id, no hash and no place in the index, and stays so. A further
start changes nothing. -/
theorem legacy_keys_stay_valid (hkeys : Collisionless keys) (h : LegacyStore keyOf keys s)
    {f : StartFaults} (hf : StartAccepted (s.startup f)) {events : List LegacyEvent}
    (hevents : Runs.Meets LegacyEvent.next (fun s event => event.Completes keys s)
      (s.startup f).1 events) :
    (s.startup f).2 = .ok () ∧
    (∀ key ∈ keys, parseApiKey key = some .legacy →
      (∀ entry, HasRecord keyOf s key entry →
        HasIdentity entry.userIdentity (s.user entry.username)) →
      ∀ g now, ((events.foldl LegacyEvent.next (s.startup f).1).authenticate g now key).2 ≠
          .error "failed to atomically migrate legacy API key" →
        ((∃ r, ((events.foldl LegacyEvent.next (s.startup f).1).authenticate g now key).2 = .ok r) ↔
          ∃ entry, HasRecord keyOf s key entry ∧ ¬DroppedBy events entry) ∧
        ∀ r, ((events.foldl LegacyEvent.next (s.startup f).1).authenticate g now key).2 = .ok r →
          ∃ entry metadata, HasRecord keyOf s key entry ∧ ¬DroppedBy events entry ∧
            r.subject.userId = entry.username ∧ r.principalIdentity = entry.userIdentity ∧
            Recorded keyOf
              ((events.foldl LegacyEvent.next (s.startup f).1).authenticate g now key).1 key entry
                metadata ∧ Migrated metadata key) ∧
    (∀ name key metadata, keyOf name = some key →
      (events.foldl LegacyEvent.next (s.startup f).1).apiKey name = some metadata →
      Unmigrated metadata key ∨ Migrated metadata key ∧ ∀ h entries,
        IndexOf (events.foldl LegacyEvent.next (s.startup f).1) h entries →
          ∀ e ∈ entries, e.name ≠ name) ∧
    (∀ front back, events = front ++ back → ∀ name key metadata metadata', keyOf name = some key →
      (front.foldl LegacyEvent.next (s.startup f).1).apiKey name = some metadata →
      Migrated metadata key →
      (events.foldl LegacyEvent.next (s.startup f).1).apiKey name = some metadata' →
      Migrated metadata' key) ∧
    ∀ g, StartAccepted ((events.foldl LegacyEvent.next (s.startup f).1).startup g) →
      ((events.foldl LegacyEvent.next (s.startup f).1).startup g).2 = .ok () ∧
        SameDocs (events.foldl LegacyEvent.next (s.startup f).1)
          ((events.foldl LegacyEvent.next (s.startup f).1).startup g).1 := by
  obtain ⟨hok, hstarted, husers, hrecords⟩ := startup_spec hkeys h f hf
  have hrun := LegacyEvent.run hkeys hstarted hevents
  refine ⟨hok, fun key hkey hparse howned g now hg => ?_,
    fun name key metadata hname hstored => hrun.started.kind hname hstored, ?_,
    fun g hg => startup_started hrun.started g hg⟩
  · have hleft : ∀ {entry}, HasRecord keyOf (events.foldl LegacyEvent.next (s.startup f).1) key
        entry ↔ HasRecord keyOf s key entry ∧ ¬DroppedBy events entry :=
      hrun.records.trans (and_congr_left fun _ => hrecords)
    rcases authenticate_legacy hkeys hrun.started hkey hparse hg with
      ⟨hnone, e, heq⟩ | ⟨entry, metadata, hrecorded, hresult, hstate⟩
    · rw [heq]
      refine ⟨⟨nofun, fun ⟨entry, hentry⟩ => ?_⟩, nofun⟩
      exact absurd (hleft.mpr hentry) (hnone entry)
    · obtain ⟨hrecord, hkept⟩ := hleft.mp ⟨metadata, hrecorded⟩
      -- the user of a record that is left is as at the start
      obtain ⟨r, hr⟩ : ∃ r, (events.foldl LegacyEvent.next (s.startup f).1).resolveApiKeySubject
          entry.username entry.userIdentity = .ok r := by
        apply exists_resolveApiKeySubject
        rw [hrun.users entry hkept, husers entry.username]
        exact howned entry hrecord
      rw [hr] at hresult
      refine ⟨⟨fun _ => ⟨entry, hrecord, hkept⟩, fun _ => ⟨r, hresult⟩⟩, fun r' hr' => ?_⟩
      obtain rfl := Except.ok.inj (hresult.symm.trans hr')
      obtain ⟨huser, hidentity⟩ := resolveApiKeySubject_principal hr
      rcases hstate with ⟨hsame, hmigrated | ⟨e, he⟩⟩ | hm
      · rw [hsame]
        exact ⟨entry, metadata, hrecord, hkept, huser, hidentity, hrecorded, hmigrated⟩
      · rw [hresult] at he
        cases he
      · exact ⟨entry, _, hrecord, hkept, huser, hidentity, hm.recorded_next,
          migrated_migratedMetadata metadata key⟩
  · rintro front back rfl name key metadata metadata' hname hstored hmigrated hstored'
    obtain ⟨hfront, hback⟩ := Runs.meets_append.mp hevents
    have hmiddle := LegacyEvent.run hkeys hstarted hfront
    rw [List.foldl_append] at hstored'
    exact (LegacyEvent.run hkeys hmiddle.started hback).migrated hname hstored hmigrated hstored'

end

end AuthService

/-! A key of the user `ann` in a store of an older version, with and without the user. -/

namespace Visitors

open AuthService

/-- The hashes of the one key. -/
local instance : External :=
  { External.standIn with
    xxh3_128 := fun _ =>
      [234, 160, 150, 24, 47, 162, 195, 30, 209, 52, 221, 145, 173, 196, 64, 121] }

local instance : Crypto where
  jwtTtlSecs := 3600
  hashPassword := fun salt password => .ok (salt ++ password)
  verifyPassword := fun password hash => hash = "salt" ++ password
  sha256 := fun _ => [230, 162, 21, 104, 173, 97, 76, 124, 175, 228, 252, 118, 94, 48, 19, 131, 72,
    78, 210, 117, 250, 121, 219, 139, 229, 231, 55, 0, 206, 3, 164, 4]
  encodeJwt := fun _ => .error "no tokens"
  decodeJwt := fun _ _ => .error "no tokens"

def token : String :=
  "stl_0123456789abcdef0123456789abcdef0123456789abcdef0123456789abcdef"

def keyOf (name : String) : Option String := if name = "door" then some token else none

def door : LegacyApiKeyEntry := ⟨"door", "ann", "ann-1"⟩

def annDocument : Document where
  id := "users:ann"
  fields := [("username", .string "ann"), ("user_identity", .string "ann-1")]
  wf := rfl

def doorRecord : Document where
  id := "api_keys:door"
  fields := [("name", .string "door"), ("username", .string "ann"),
    ("user_identity", .string "ann-1"), ("key_hash", .string (hashLegacyKey token))]
  wf := rfl

/-- The documents an older version has left. -/
def store (docs : List Document) : AuthService :=
  (AuthService.writeBatch .none
    { systemDb := ⟨fun _ => none, fun _ => [], fun _ => ∅, ⟨[], fun _ => ∅⟩⟩, policies := [] }
    (docs.map .insertDoc)).1

def accepts : StartFaults := ⟨fun _ => .none, fun _ => .none⟩

theorem collisionless : Collisionless {token} where
  lookupId := Set.injOn_singleton _ _
  legacyHash := Set.injOn_singleton _ _
  digest := by
    rintro key rfl
    exact List.cons_ne_nil _ _

/-- A store with the record only, and perhaps users. -/
theorem legacyStore_of_door {s : AuthService}
    (husers : ∀ u doc, s.user u = some doc → doc.collection = "users")
    (hkeys : ∀ n, s.apiKey n = if "door" = n then some doorRecord else none)
    (hlookups : ∀ l, s.apiKeyLookup l = none) (hindex : ∀ h, s.legacyIndex h = none) :
    LegacyStore keyOf {token} s := by
  have hdoor : ∀ {n metadata}, s.apiKey n = some metadata → n = "door" ∧ metadata = doorRecord := by
    intro n metadata hstored
    rw [hkeys] at hstored
    split at hstored
    · next hn => exact ⟨hn.symm, (Option.some.inj hstored).symm⟩
    · cases hstored
  have htoken : ∀ {n key}, keyOf n = some key → key = token := by
    intro n key hn
    unfold keyOf at hn
    split at hn
    · exact (Option.some.inj hn).symm
    · cases hn
  refine ⟨⟨husers, fun n metadata hstored => ?_⟩, htoken, ?_, ?_, ?_, ?_,
    fun h => ⟨[], ?_, nofun⟩⟩
  · rw [(hdoor hstored).2]
    decide +kernel
  · intro n key metadata hn hstored
    obtain ⟨rfl, rfl⟩ := hdoor hstored
    obtain rfl := htoken hn
    exact ⟨door, rfl, rfl, Or.inl ⟨rfl, rfl⟩⟩
  · intro n metadata hn hstored
    obtain ⟨rfl, rfl⟩ := hdoor hstored
    cases hn
  · intro key doc _ hdoc
    rw [hlookups] at hdoc
    cases hdoc
  · intro l doc entry metadata _ hdoc
    rw [hlookups] at hdoc
    cases hdoc
  · unfold IndexOf
    rw [hindex h]

/-- The store without the user. -/
theorem orphaned_get (c k : String) : (store [doorRecord]).systemDb.getDocument c (utf8 k) =
    if ("api_keys", "door") = (c, k) then some doorRecord else none := by
  refine (writeBatch_getDocument ..).trans ((if_pos (by decide +kernel)).trans ?_)
  have htarget : (WriteOp.insertDoc doorRecord).target = some ("api_keys", "door") := by
    decide +kernel
  show (if _ = _ then _ else _) = _
  rw [htarget]
  exact if_congr (by rw [Option.some.injEq]) rfl rfl

theorem owned_get (c k : String) : (store [annDocument, doorRecord]).systemDb.getDocument c (utf8 k)
    = if ("api_keys", "door") = (c, k) then some doorRecord
      else if ("users", "ann") = (c, k) then some annDocument else none := by
  refine (writeBatch_getDocument ..).trans ((if_pos (by decide +kernel)).trans ?_)
  have hdoor : (WriteOp.insertDoc doorRecord).target = some ("api_keys", "door") := by
    decide +kernel
  have hann : (WriteOp.insertDoc annDocument).target = some ("users", "ann") := by
    decide +kernel
  show (if _ = _ then _ else if _ = _ then _ else _) = _
  rw [hdoor, hann]
  refine if_congr (by rw [Option.some.injEq]) rfl (if_congr (by rw [Option.some.injEq]) rfl rfl)

theorem orphaned_legacyStore : LegacyStore keyOf {token} (store [doorRecord]) := by
  refine legacyStore_of_door (fun u doc hu => ?_) (fun n => ?_) (fun l => ?_) (fun h => ?_)
  · have hu := (orphaned_get "users" u).symm.trans hu
    rw [if_neg (by simp)] at hu
    cases hu
  · exact (orphaned_get "api_keys" n).trans (if_congr (by simp) rfl rfl)
  · exact (orphaned_get "api_key_lookup" l).trans (if_neg (by simp))
  · exact (orphaned_get "api_key_legacy_lookup" h).trans (if_neg (by simp))

theorem owned_legacyStore : LegacyStore keyOf {token} (store [annDocument, doorRecord]) := by
  refine legacyStore_of_door (fun u doc hu => ?_) (fun n => ?_) (fun l => ?_) (fun h => ?_)
  · have hu := (owned_get "users" u).symm.trans hu
    rw [if_neg (by simp)] at hu
    split at hu
    · obtain rfl := Option.some.inj hu
      decide +kernel
    · cases hu
  · refine (owned_get "api_keys" n).trans (if_congr (by simp) rfl ?_)
    exact if_neg (by simp)
  · exact (owned_get "api_key_lookup" l).trans ((if_neg (by simp)).trans (if_neg (by simp)))
  · exact (owned_get "api_key_legacy_lookup" h).trans ((if_neg (by simp)).trans (if_neg (by simp)))

/-- A key whose user is not there is not accepted, though no one has dropped it. -/
theorem orphan_not_accepted : Collisionless {token} ∧
    LegacyStore keyOf {token} (store [doorRecord]) ∧
    StartAccepted ((store [doorRecord]).startup accepts) ∧
    HasRecord keyOf (store [doorRecord]) token door ∧ ¬DroppedBy [] door ∧
    (((store [doorRecord]).startup accepts).1.authenticate .none 0 token).2 ≠
      .error "failed to atomically migrate legacy API key" ∧
    ∀ r, (((store [doorRecord]).startup accepts).1.authenticate .none 0 token).2 ≠ .ok r := by
  have hresult : (((store [doorRecord]).startup accepts).1.authenticate .none 0 token).2.map
      (fun _ => ()) = .error "invalid API key: associated user not found" := by decide +kernel
  have hrecord : HasRecord keyOf (store [doorRecord]) token door :=
    ⟨doorRecord, rfl, (orphaned_get "api_keys" "door").trans (if_pos rfl), rfl⟩
  refine ⟨collisionless, orphaned_legacyStore, ⟨by decide +kernel, by decide +kernel⟩, hrecord,
    fun ⟨_, hmem, _⟩ => List.not_mem_nil hmem, fun h => ?_, fun r h => ?_⟩
  · have heq := (congrArg (Except.map fun _ => ()) h).symm.trans hresult
    exact absurd (Except.error.inj heq) (by decide)
  · have heq := (congrArg (Except.map fun _ => ()) h).symm.trans hresult
    cases heq

/-- The key of the stored user is used. -/
def visit : List LegacyEvent := [.authenticate .none 0 token]

theorem visit_accepted : (((store [annDocument, doorRecord]).startup accepts).1.authenticate .none 0
    token).2.map (fun _ => ()) ≠ .error "failed to atomically migrate legacy API key" := by
  decide +kernel

theorem visit_completes : Runs.Meets LegacyEvent.next (fun s event => event.Completes {token} s)
    ((store [annDocument, doorRecord]).startup accepts).1 visit := by
  have hcompletes : ∀ s : AuthService, (s.authenticate .none 0 token).2.map (fun _ => ()) ≠
      .error "failed to atomically migrate legacy API key" →
      (LegacyEvent.authenticate .none 0 token).Completes {token} s := fun s hs =>
    ⟨fun _ => rfl, fun h => hs (congrArg (Except.map fun _ => ()) h)⟩
  exact ⟨hcompletes _ visit_accepted, trivial⟩

theorem visit_valid :
    (((store [annDocument, doorRecord]).startup accepts).2 = .ok ()) ∧
      ∀ g now, ((visit.foldl LegacyEvent.next
        ((store [annDocument, doorRecord]).startup accepts).1).authenticate g now token).2 ≠
          .error "failed to atomically migrate legacy API key" →
        ((∃ r, ((visit.foldl LegacyEvent.next
          ((store [annDocument, doorRecord]).startup accepts).1).authenticate g now token).2 =
            .ok r) ↔
          ∃ entry, HasRecord keyOf (store [annDocument, doorRecord]) token entry ∧
            ¬DroppedBy visit entry) := by
  have hvalid := legacy_keys_stay_valid collisionless owned_legacyStore
    (f := accepts) ⟨by decide +kernel, by decide +kernel⟩ visit_completes
  refine ⟨hvalid.1, fun g now hg =>
    (hvalid.2.1 token rfl (by decide +kernel) (fun entry hentry => ?_) g now hg).1⟩
  obtain ⟨metadata, hrecorded⟩ := hentry
  have hstored := hrecorded.stored
  rw [show (store [annDocument, doorRecord]).apiKey entry.name = _ from
    owned_get "api_keys" entry.name] at hstored
  split at hstored
  · obtain rfl := Option.some.inj hstored
    obtain rfl := Option.some.inj (hrecorded.entry.symm.trans
      (show LegacyApiKeyEntry.fromLegacyMetadata doorRecord = some door from rfl))
    exact ⟨annDocument, (owned_get "users" "ann").trans rfl, rfl⟩
  · rw [if_neg (by simp)] at hstored
    cases hstored

end Visitors

end StellarDb
