import StellarDb.Lib.Joined
import StellarDb.Indexes.BTree
import StellarDb.Schema.CreateIndex

/-!
# StellarDb — where an index is stored (`storage/keyspaces.rs`, `storage/indexes/{fts,hnsw}.rs`)

An index has a keyspace, `idx_{collection}_{name}`. A full-text index has a directory of its own
besides, under its name, and a vector index two files, under its first field.

The name of an index is made of the collection, the type and the fields, joined by underscores.
Joining forgets where a part ended that has underscores of its own, so two indexes are apart
exactly if the words between their underscores differ, and, for two vector indexes of a collection,
their first fields do (`storedApart_iff_words`).
-/

namespace StellarDb

open Keyspaces Joined

/-! ## Keyspaces -/

def docsKeyspace (collection : String) : String := "docs_" ++ collection

def uniqueLocksKeyspace (collection : String) : String := "ulock_" ++ collection

def existsKeyspace (collection : String) : String := "exists_" ++ collection

/-- The keyspaces of `create_keyspaces`. -/
def collectionKeyspaces (collection : String) : List String :=
  [docsKeyspace collection, uniqueLocksKeyspace collection, existsKeyspace collection]

/-! ## Directories and files -/

/-- The directories `indexes/fts` and `indexes/vector`. -/
inductive IndexRoot where
  | fts
  | vector
  deriving DecidableEq, Repr

/-- An entry of a collection's directory. -/
structure IndexPath where
  root : IndexRoot
  collection : String
  entry : String
  deriving DecidableEq, Repr

/-- `FtsIndex::index_path` -/
def ftsPath (collection indexName : String) : IndexPath := ⟨.fts, collection, indexName⟩

/-- `HnswIndex::index_path` -/
def vectorPath (collection field : String) : IndexPath := ⟨.vector, collection, field ++ ".idx"⟩

/-- The vector file's path with another extension. -/
def vectorMetaPath (collection field : String) : IndexPath :=
  ⟨.vector, collection, field ++ ".meta"⟩

namespace IndexDefinition

def keyspace (collection : String) (d : IndexDefinition) : String :=
  indexKeyspaceName collection d.name

/-- A vector index goes by its first field. -/
def paths (collection : String) (d : IndexDefinition) : List IndexPath :=
  match d.indexType, d.fields with
  | .btree, _ => []
  | .fullText, _ => [ftsPath collection d.name]
  | .hnsw, [] => []
  | .hnsw, field :: _ => [vectorPath collection field, vectorMetaPath collection field]

end IndexDefinition

/-! ## The disk -/

/-- Keyspaces with their contents, and the directories of the collections below each root. -/
structure Disk (κ φ : Type*) where
  keyspaces : AList fun _ : String => κ
  dirs : IndexRoot → AList fun _ : String => AList fun _ : String => φ

namespace Disk

variable {κ φ : Type*}

/-- The entries of a collection's directory; a missing directory has none. -/
def dir (disk : Disk κ φ) (root : IndexRoot) (collection : String) : AList fun _ : String => φ :=
  ((disk.dirs root).lookup collection).getD ∅

def putDir (disk : Disk κ φ) (root : IndexRoot) (collection : String)
    (entries : AList fun _ : String => φ) : Disk κ φ :=
  { disk with
    dirs := Function.update disk.dirs root ((disk.dirs root).insert collection entries) }

def file (disk : Disk κ φ) (p : IndexPath) : Option φ :=
  (disk.dir p.root p.collection).lookup p.entry

def setKeyspace (disk : Disk κ φ) (name : String) : Option κ → Disk κ φ
  | some content => { disk with keyspaces := disk.keyspaces.insert name content }
  | none => { disk with keyspaces := disk.keyspaces.erase name }

def setFile (disk : Disk κ φ) (p : IndexPath) : Option φ → Disk κ φ
  | some content =>
    disk.putDir p.root p.collection ((disk.dir p.root p.collection).insert p.entry content)
  | none => disk.putDir p.root p.collection ((disk.dir p.root p.collection).erase p.entry)

/-- Maintaining, building and dropping an index give its keyspace and its files new contents. -/
def changeIndex (collection : String) (d : IndexDefinition) (content : Option κ)
    (files : IndexPath → Option φ) (disk : Disk κ φ) : Disk κ φ :=
  (d.paths collection).foldl (fun disk p => disk.setFile p (files p))
    (disk.setKeyspace (d.keyspace collection) content)

theorem putDir_dir (disk : Disk κ φ) (root root' : IndexRoot) (collection collection' : String)
    (entries : AList fun _ : String => φ) :
    (disk.putDir root collection entries).dir root' collection' =
      if root' = root ∧ collection' = collection then entries else disk.dir root' collection' := by
  show ((Function.update disk.dirs root _ root').lookup collection').getD ∅ =
    if _ then entries else disk.dir root' collection'
  by_cases hroot : root' = root
  · subst hroot
    rw [Function.update_self]
    by_cases hcollection : collection' = collection
    · subst hcollection
      rw [AList.lookup_insert, if_pos ⟨rfl, rfl⟩]
      rfl
    · rw [AList.lookup_insert_ne hcollection, if_neg fun h => hcollection h.2]
      rfl
  · rw [Function.update_of_ne hroot, if_neg fun h => hroot h.1]
    rfl

theorem lookup_setKeyspace {name other : String} (hne : other ≠ name) (disk : Disk κ φ)
    (content : Option κ) :
    (disk.setKeyspace name content).keyspaces.lookup other = disk.keyspaces.lookup other := by
  cases content with
  | some x => exact AList.lookup_insert_ne hne
  | none => exact AList.lookup_erase_ne hne

theorem setKeyspace_file (disk : Disk κ φ) (name : String) (content : Option κ) (p : IndexPath) :
    (disk.setKeyspace name content).file p = disk.file p := by
  cases content <;> rfl

theorem setFile_keyspaces (disk : Disk κ φ) (p : IndexPath) (content : Option φ) :
    (disk.setFile p content).keyspaces = disk.keyspaces := by
  cases content <;> rfl

theorem setFile_file {p other : IndexPath} (hne : other ≠ p) (disk : Disk κ φ)
    (content : Option φ) : (disk.setFile p content).file other = disk.file other := by
  have hentry : other.root = p.root ∧ other.collection = p.collection →
      other.entry ≠ p.entry := fun hdir hentry => by
    cases other
    cases p
    exact hne (IndexPath.mk.injEq .. ▸ ⟨hdir.1, hdir.2, hentry⟩)
  unfold file
  cases content with
  | some x =>
    show ((disk.putDir ..).dir _ _).lookup _ = _
    rw [putDir_dir]
    split
    · next hdir =>
      rw [AList.lookup_insert_ne (hentry hdir), hdir.1, hdir.2]
    · rfl
  | none =>
    show ((disk.putDir ..).dir _ _).lookup _ = _
    rw [putDir_dir]
    split
    · next hdir =>
      rw [AList.lookup_erase_ne (hentry hdir), hdir.1, hdir.2]
    · rfl

theorem foldl_setFile (ps : List IndexPath) (files : IndexPath → Option φ) (disk : Disk κ φ) :
    (ps.foldl (fun disk p => disk.setFile p (files p)) disk).keyspaces = disk.keyspaces ∧
      ∀ other, other ∉ ps →
        (ps.foldl (fun disk p => disk.setFile p (files p)) disk).file other = disk.file other := by
  induction ps generalizing disk with
  | nil => exact ⟨rfl, fun _ _ => rfl⟩
  | cons p ps ih =>
    obtain ⟨hkeyspaces, hfile⟩ := ih (disk.setFile p (files p))
    refine ⟨hkeyspaces.trans (setFile_keyspaces disk p _), fun other hother => ?_⟩
    obtain ⟨hne, hps⟩ := List.ne_and_not_mem_of_not_mem_cons hother
    exact (hfile other hps).trans (setFile_file hne disk _)

end Disk

/-! ## Two indexes -/

/-- Neither index is stored where the other one is, or where a collection is, and no change of the
first one is seen in the second. -/
structure StoredApart (collection : String) (d : IndexDefinition) (collection' : String)
    (d' : IndexDefinition) : Prop where
  keyspaces : d.keyspace collection ≠ d'.keyspace collection'
  paths : ∀ p ∈ d.paths collection, p ∉ d'.paths collection'
  collections : ∀ c, d.keyspace collection ∉ collectionKeyspaces c ∧
    d'.keyspace collection' ∉ collectionKeyspaces c
  unchanged : ∀ {κ φ : Type} (disk : Disk κ φ) (content : Option κ) (files : IndexPath → Option φ),
    (disk.changeIndex collection d content files).keyspaces.lookup (d'.keyspace collection') =
        disk.keyspaces.lookup (d'.keyspace collection') ∧
      ∀ p ∈ d'.paths collection',
        (disk.changeIndex collection d content files).file p = disk.file p

/-- No index keyspace has the name of a collection's: the first letters differ. -/
theorem indexKeyspaceName_notMem (collection name c : String) :
    indexKeyspaceName collection name ∉ collectionKeyspaces c := by
  intro h
  have hletter : (indexKeyspaceName collection name).toList.head? = some 'i' := by
    simp [indexKeyspaceName, String.toList_append]
  have hletters : ∀ keyspace ∈ collectionKeyspaces c, keyspace.toList.head? ≠ some 'i' := by
    simp [collectionKeyspaces, docsKeyspace, uniqueLocksKeyspace, existsKeyspace,
      String.toList_append]
  exact hletters _ h hletter

theorem storedApart_iff {collection collection' : String} {d d' : IndexDefinition} :
    StoredApart collection d collection' d' ↔
      d.keyspace collection ≠ d'.keyspace collection' ∧
        ∀ p ∈ d.paths collection, p ∉ d'.paths collection' := by
  refine ⟨fun h => ⟨h.keyspaces, h.paths⟩, fun h => ⟨h.1, h.2, fun c =>
    ⟨indexKeyspaceName_notMem _ _ c, indexKeyspaceName_notMem _ _ c⟩, fun disk content files => ?_⟩⟩
  obtain ⟨hkeyspaces, hfile⟩ := Disk.foldl_setFile (d.paths collection) files
    (disk.setKeyspace (d.keyspace collection) content)
  refine ⟨?_, fun p hp => ?_⟩
  · unfold Disk.changeIndex
    rw [hkeyspaces, Disk.lookup_setKeyspace (Ne.symm h.1)]
  · have hother : p ∉ d.paths collection := fun hd => h.2 p hd hp
    exact (hfile p hother).trans (Disk.setKeyspace_file ..)

/-! ## Words -/

/-- The words of a name between its underscores. -/
def wordsOf (name : String) : List (List Char) := name.toList.splitOn '_'

/-- The words of joined names. -/
def joinedWords : List String → List (List Char)
  | [] => [[]]
  | part :: parts => (part :: parts).flatMap wordsOf

theorem words_injective : Function.Injective wordsOf := fun _ _ h =>
  String.toList_injective (splitOn_injective '_' h)

theorem words_append (front rest : String) :
    wordsOf (front ++ "_" ++ rest) = wordsOf front ++ wordsOf rest := by
  unfold wordsOf
  rw [String.toList_append, String.toList_append, show "_".toList = ['_'] from rfl,
    List.append_assoc, List.singleton_append, List.splitOn_append_cons_self]

theorem words_intercalate (parts : List String) :
    wordsOf ("_".intercalate parts) = joinedWords parts := by
  unfold wordsOf
  rw [String.toList_intercalate, show "_".toList = ['_'] from rfl]
  cases parts with
  | nil => rfl
  | cons part parts =>
    rw [splitOn_intercalate (by simp), List.flatMap_map]
    rfl

/-- `idx_{collection}_{type}_{fields}` -/
theorem words_typed (collection type : String) (parts : List String) :
    wordsOf ("idx_" ++ collection ++ ("_" ++ type ++ "_") ++ "_".intercalate parts) =
      wordsOf "idx" ++ wordsOf collection ++ wordsOf type ++ joinedWords parts := by
  have hname : "idx_" ++ collection ++ ("_" ++ type ++ "_") ++ "_".intercalate parts =
      "idx" ++ "_" ++ collection ++ "_" ++ type ++ "_" ++ "_".intercalate parts := by
    rw [show "idx_" = "idx" ++ "_" from rfl]
    simp only [String.append_assoc]
  rw [hname, words_append, words_append, words_append, words_intercalate]

namespace CreateIndex

/-- The words of an index name; a dot in a field counts as an underscore. -/
def nameWords (collection : String) (r : CreateIndex) : List (List Char) :=
  let parts := r.fields.map replaceDots
  match r.indexType with
  | .fullText =>
    joinedWords (parts.mergeSort fun a b => (compare (utf8 a) (utf8 b)).isLE) ++ wordsOf "fts"
  | .btree => wordsOf "idx" ++ wordsOf collection ++ wordsOf "btree" ++ joinedWords parts
  | .hnsw => wordsOf "idx" ++ wordsOf collection ++ wordsOf "hnsw" ++ joinedWords parts

theorem words_generateIndexName (collection : String) (r : CreateIndex) :
    wordsOf (generateIndexName collection r.indexType r.fields) = r.nameWords collection := by
  unfold generateIndexName nameWords
  cases r.indexType with
  | fullText =>
    show wordsOf ("_".intercalate _ ++ ("_" ++ "fts")) = _
    rw [← String.append_assoc, words_append, words_intercalate]
  | btree => exact words_typed collection "btree" _
  | hnsw => exact words_typed collection "hnsw" _

/-- The words of an index keyspace. -/
def keyspaceWords (collection : String) (r : CreateIndex) : List (List Char) :=
  wordsOf "idx" ++ wordsOf collection ++ r.nameWords collection

theorem words_keyspace (collection : String) (r : CreateIndex) :
    wordsOf ((r.definition collection).keyspace collection) = r.keyspaceWords collection := by
  show wordsOf ("idx" ++ "_" ++ collection ++ "_" ++ generateIndexName collection _ _) = _
  rw [words_append, words_append, words_generateIndexName]
  rfl

/-- Both are vector indexes of one collection on one first field. -/
def SharesVector (collection : String) (r : CreateIndex) (collection' : String)
    (r' : CreateIndex) : Prop :=
  r.indexType = .hnsw ∧ r'.indexType = .hnsw ∧ collection = collection' ∧
    ∃ field, r.fields.head? = some field ∧ r'.fields.head? = some field

theorem idx_ne_meta (field field' : String) : field ++ ".idx" ≠ field' ++ ".meta" := by
  intro h
  have hlast := congrArg (fun s : String => s.toList.getLast?) h
  revert hlast
  simp [String.toList_append]

theorem mem_paths {collection : String} {r : CreateIndex} {p : IndexPath} :
    p ∈ (r.definition collection).paths collection ↔
      (r.indexType = .fullText ∧ p = ftsPath collection (r.definition collection).name) ∨
        r.indexType = .hnsw ∧ ∃ field, r.fields.head? = some field ∧
          (p = vectorPath collection field ∨ p = vectorMetaPath collection field) := by
  obtain ⟨fields, unique, indexType, params, analyzer⟩ := r
  cases indexType with
  | btree => simp [IndexDefinition.paths, definition]
  | fullText => simp [IndexDefinition.paths, definition]
  | hnsw => cases fields <;> simp [IndexDefinition.paths, definition]

/-- Full-text directories are one only if the keyspaces are. -/
theorem paths_disjoint_iff {collection collection' : String} {r r' : CreateIndex}
    (hkeyspace : (r.definition collection).keyspace collection ≠
      (r'.definition collection').keyspace collection') :
    (∀ p ∈ (r.definition collection).paths collection,
        p ∉ (r'.definition collection').paths collection') ↔
      ¬ r.SharesVector collection collection' r' := by
  constructor
  · rintro h ⟨htype, htype', rfl, field, hfield, hfield'⟩
    exact h (vectorPath collection field) (mem_paths.mpr (Or.inr ⟨htype, field, hfield, Or.inl rfl⟩))
      (mem_paths.mpr (Or.inr ⟨htype', field, hfield', Or.inl rfl⟩))
  · intro h p hp hp'
    rcases mem_paths.mp hp with ⟨-, rfl⟩ | ⟨htype, field, hfield, hpath⟩
    · rcases mem_paths.mp hp' with ⟨-, heq⟩ | ⟨-, field', -, heq | heq⟩
      · obtain ⟨-, hcollection, hname⟩ := IndexPath.mk.inj heq
        apply hkeyspace
        show indexKeyspaceName collection _ = indexKeyspaceName collection' _
        rw [hname, hcollection]
      · cases heq
      · cases heq
    · rcases mem_paths.mp hp' with ⟨-, rfl⟩ | ⟨htype', field', hfield', hpath'⟩
      · rcases hpath with heq | heq <;> cases heq
      · -- both are vector indexes; their extensions tell which of the two files it is
        have hsame : collection = collection' ∧ field = field' := by
          rcases hpath with rfl | rfl <;> rcases hpath' with heq | heq <;>
            obtain ⟨-, hcollection, hentry⟩ := IndexPath.mk.inj heq
          · exact ⟨hcollection, (String.append_left_inj _).mp hentry⟩
          · exact absurd hentry (idx_ne_meta field field')
          · exact absurd hentry.symm (idx_ne_meta field' field)
          · exact ⟨hcollection, (String.append_left_inj _).mp hentry⟩
        obtain ⟨hcollection, rfl⟩ := hsame
        exact h ⟨htype, htype', hcollection, field, hfield, hfield'⟩

end CreateIndex

/-- Two indexes of requests are stored apart exactly if the words between their underscores differ
and they are not vector indexes of one collection with the same first field. -/
theorem storedApart_iff_words (collection collection' : String) (r r' : CreateIndex) :
    StoredApart collection (r.definition collection) collection' (r'.definition collection') ↔
      r.keyspaceWords collection ≠ r'.keyspaceWords collection' ∧
        ¬ r.SharesVector collection collection' r' := by
  rw [storedApart_iff, ← r.words_keyspace, ← r'.words_keyspace, words_injective.ne_iff]
  exact and_congr_right fun hkeyspace => CreateIndex.paths_disjoint_iff hkeyspace

/-! ## Two indexes of one collection -/

namespace Signups

/-- A BTree index on fields. -/
def onFields (fields : List String) : CreateIndex := ⟨fields, false, .btree, none, none⟩

/-- The collection with some indexes. -/
def registered (indexes : List IndexDefinition) : CreateContext :=
  ⟨fun c => c = "users", fun c => if c = "users" then indexes else [], fun _ => true⟩

/-- An index on `first_name` is registered when one on `first` and `name` is accepted. -/
theorem first_name_shared :
    prepareCreateIndex (registered []) "users" (onFields ["first_name"]) =
        .ok ((onFields ["first_name"]).definition "users") ∧
      prepareCreateIndex (registered [(onFields ["first_name"]).definition "users"]) "users"
          (onFields ["first", "name"]) = .ok ((onFields ["first", "name"]).definition "users") ∧
      ¬ StoredApart "users" ((onFields ["first_name"]).definition "users") "users"
        ((onFields ["first", "name"]).definition "users") := by
  refine ⟨by decide +kernel, by decide +kernel, fun h => h.keyspaces ?_⟩
  decide +kernel

end Signups

end StellarDb
