import StellarDb.Indexes.PhysicalNames

/-!
# StellarDb — cleaning up after unfinished builds (`IndexManager::cleanup_orphaned_builds`)

A build of an index works in a keyspace `idx_{collection}___build_{id}`, for a unique index in a
second one, and for a full-text or vector index in a directory or in files whose names begin with
`__build_`. At startup all of them are removed: every keyspace with the marker anywhere in its
name, and every directory entry that begins with it. Reading and removing do not fail here.

Names that users choose may have the marker as well. The cleanup leaves what is published alone
exactly if no keyspace with contents has the marker in its name and no directory or file of a
published index begins with it (`cleanup_keeps_iff`).
-/

namespace StellarDb

open Keyspaces

def indexBuildMarker : String := "__build_"

/-- `IndexManager::build_name` -/
def buildName (buildId : String) : String := indexBuildMarker ++ buildId

/-- The build keyspace of the locks of a unique index. -/
def uniqueBuildName (buildId : String) : String := indexBuildMarker ++ buildId ++ "_unique"

/-- `name.contains(INDEX_BUILD_MARKER)` -/
def hasMarker (name : String) : Bool := indexBuildMarker.toList <:+: name.toList

/-- `name.starts_with(INDEX_BUILD_MARKER)` -/
def startsWithMarker (name : String) : Bool := indexBuildMarker.toList <+: name.toList

namespace Disk

variable {κ φ : Type*}

/-! ## Cleaning up -/

/-- Remove the marked entries of a directory. -/
def cleanEntries (entries : AList fun _ : String => φ) : AList fun _ : String => φ :=
  entries.keys.foldl
    (fun rest name => if startsWithMarker name then rest.erase name else rest) entries

/-- `FtsIndex::cleanup_orphaned_builds` and `HnswIndex::cleanup_orphaned_builds` -/
def cleanRoot (root : IndexRoot) (disk : Disk κ φ) : Disk κ φ :=
  (disk.dirs root).keys.foldl
    (fun disk collection => disk.putDir root collection (cleanEntries (disk.dir root collection)))
    disk

def listIndexBuildKeyspaceNames (disk : Disk κ φ) : List String :=
  disk.keyspaces.keys.filter hasMarker

def clearIndexBuildKeyspaceByName (disk : Disk κ φ) (name : String) : Disk κ φ :=
  if !hasMarker name || (disk.keyspaces.lookup name).isNone then disk
  else disk.setKeyspace name none

def cleanupOrphanedBuilds (disk : Disk κ φ) : Disk κ φ :=
  let disk := (disk.cleanRoot .fts).cleanRoot .vector
  disk.listIndexBuildKeyspaceNames.foldl clearIndexBuildKeyspaceByName disk

/-! ## What is left -/

theorem lookup_foldl_erase (names : List String) (entries : AList fun _ : String => φ)
    (name : String) :
    (names.foldl (fun rest name => if startsWithMarker name then rest.erase name else rest)
        entries).lookup name =
      if name ∈ names ∧ startsWithMarker name then none else entries.lookup name := by
  induction names generalizing entries with
  | nil => simp
  | cons first names ih =>
    rw [List.foldl_cons, ih]
    by_cases hmarked : startsWithMarker name = true
    · by_cases hname : name = first
      · subst hname
        simp [hmarked]
      · have hfirst : (if startsWithMarker first then entries.erase first else entries).lookup name =
            entries.lookup name := by
          split
          · exact AList.lookup_erase_ne hname
          · rfl
        rw [hfirst]
        simp [hname]
    · have hfirst : (if startsWithMarker first then entries.erase first else entries).lookup name =
          entries.lookup name := by
        split
        · next h =>
          exact AList.lookup_erase_ne fun hname => hmarked (hname ▸ h)
        · rfl
      rw [hfirst]
      simp [hmarked]

/-- The marked entries are gone, the others are as they were. -/
theorem lookup_cleanEntries (entries : AList fun _ : String => φ) (name : String) :
    (cleanEntries entries).lookup name =
      if startsWithMarker name then none else entries.lookup name := by
  unfold cleanEntries
  rw [lookup_foldl_erase]
  by_cases hname : name ∈ entries.keys
  · simp [hname]
  · rw [if_neg fun h => hname h.1, AList.lookup_eq_none.mpr (mt AList.mem_keys.mp hname), ite_self]

theorem cleanRoot_keyspaces (root : IndexRoot) (disk : Disk κ φ) :
    (disk.cleanRoot root).keyspaces = disk.keyspaces := by
  unfold cleanRoot
  generalize (disk.dirs root).keys = collections
  induction collections generalizing disk with
  | nil => rfl
  | cons collection collections ih => exact ih _

/-- Only the directories of the root are cleaned. -/
theorem foldl_cleanDir (root : IndexRoot) (collections : List String) (disk : Disk κ φ)
    (p : IndexPath) :
    (collections.foldl (fun disk collection =>
        disk.putDir root collection (cleanEntries (disk.dir root collection))) disk).file p =
      if p.root = root ∧ p.collection ∈ collections ∧ startsWithMarker p.entry then none
      else disk.file p := by
  induction collections generalizing disk with
  | nil => simp
  | cons collection collections ih =>
    rw [List.foldl_cons, ih]
    have hfirst : (disk.putDir root collection (cleanEntries (disk.dir root collection))).file p =
        if p.root = root ∧ p.collection = collection ∧ startsWithMarker p.entry then none
        else disk.file p := by
      show ((disk.putDir _ _ _).dir _ _).lookup _ = _
      rw [putDir_dir]
      by_cases hdir : p.root = root ∧ p.collection = collection
      · rw [if_pos hdir, lookup_cleanEntries, ← hdir.1, ← hdir.2]
        simp [file]
      · rw [if_neg hdir, if_neg fun h => hdir ⟨h.1, h.2.1⟩]
        rfl
    rw [hfirst]
    by_cases hroot : p.root = root
    · by_cases hmarked : startsWithMarker p.entry = true
      · by_cases hcollection : p.collection = collection <;> simp [hroot, hmarked, hcollection]
      · simp [hmarked]
    · simp [hroot]

theorem file_none_of_notMem {disk : Disk κ φ} {p : IndexPath}
    (h : p.collection ∉ (disk.dirs p.root).keys) : disk.file p = none := by
  unfold file dir
  rw [AList.lookup_eq_none.mpr (mt AList.mem_keys.mp h)]
  exact AList.lookup_empty _

theorem cleanRoot_file (root : IndexRoot) (disk : Disk κ φ) (p : IndexPath) :
    (disk.cleanRoot root).file p =
      if p.root = root ∧ startsWithMarker p.entry then none else disk.file p := by
  unfold cleanRoot
  rw [foldl_cleanDir]
  by_cases hroot : p.root = root
  · by_cases hcollection : p.collection ∈ (disk.dirs root).keys
    · simp [hcollection]
    · have hnone : disk.file p = none := file_none_of_notMem (hroot ▸ hcollection)
      rw [hnone, ite_self, ite_self]
  · simp [hroot]

theorem clearIndexBuildKeyspaceByName_lookup (disk : Disk κ φ) (name other : String) :
    (disk.clearIndexBuildKeyspaceByName name).keyspaces.lookup other =
      if other = name ∧ hasMarker name then none else disk.keyspaces.lookup other := by
  unfold clearIndexBuildKeyspaceByName
  by_cases hname : other = name
  · subst hname
    cases hmarker : hasMarker other with
    | false => simp
    | true =>
      cases hlookup : disk.keyspaces.lookup other with
      | none => simp [hlookup]
      | some content =>
        show (disk.keyspaces.erase other).lookup other = _
        rw [AList.lookup_erase]
        simp
  · rw [if_neg (c := other = name ∧ _) fun h => hname h.1]
    split
    · rfl
    · exact AList.lookup_erase_ne hname

theorem clearIndexBuildKeyspaceByName_file (disk : Disk κ φ) (name : String) (p : IndexPath) :
    (disk.clearIndexBuildKeyspaceByName name).file p = disk.file p := by
  unfold clearIndexBuildKeyspaceByName
  split <;> rfl

theorem foldl_clear (names : List String) (disk : Disk κ φ) :
    (∀ other, (names.foldl clearIndexBuildKeyspaceByName disk).keyspaces.lookup other =
        if other ∈ names ∧ hasMarker other then none else disk.keyspaces.lookup other) ∧
      ∀ p, (names.foldl clearIndexBuildKeyspaceByName disk).file p = disk.file p := by
  induction names generalizing disk with
  | nil => simp
  | cons name names ih =>
    obtain ⟨hkeyspaces, hfiles⟩ := ih (disk.clearIndexBuildKeyspaceByName name)
    refine ⟨fun other => ?_, fun p => (hfiles p).trans (clearIndexBuildKeyspaceByName_file ..)⟩
    rw [List.foldl_cons, hkeyspaces, clearIndexBuildKeyspaceByName_lookup]
    by_cases hname : other = name
    · subst hname
      cases hasMarker other <;> simp
    · simp [hname]

/-- The keyspaces with the marker are gone, the others are as they were. -/
theorem cleanup_keyspaces (disk : Disk κ φ) (name : String) :
    disk.cleanupOrphanedBuilds.keyspaces.lookup name =
      if hasMarker name then none else disk.keyspaces.lookup name := by
  unfold cleanupOrphanedBuilds
  have hkeyspaces : ((disk.cleanRoot .fts).cleanRoot .vector).keyspaces = disk.keyspaces := by
    rw [cleanRoot_keyspaces, cleanRoot_keyspaces]
  rw [(foldl_clear _ _).1, listIndexBuildKeyspaceNames, hkeyspaces]
  by_cases hname : name ∈ disk.keyspaces.keys
  · simp [hname]
  · rw [if_neg fun h => hname (List.mem_of_mem_filter h.1),
      AList.lookup_eq_none.mpr (mt AList.mem_keys.mp hname), ite_self]

/-- The directory entries that begin with the marker are gone, the others are as they were. -/
theorem cleanup_file (disk : Disk κ φ) (p : IndexPath) :
    disk.cleanupOrphanedBuilds.file p =
      if startsWithMarker p.entry then none else disk.file p := by
  unfold cleanupOrphanedBuilds
  rw [(foldl_clear _ _).2, cleanRoot_file, cleanRoot_file]
  cases hroot : p.root <;> simp

end Disk

/-! ## What is published -/

/-- The collections and the published indexes with their collections. -/
structure PublishedNames where
  collections : List String
  indexes : List (String × IndexDefinition)

namespace PublishedNames

/-- The document, exists, lock and index keyspaces. -/
def keyspaceNames (published : PublishedNames) : List String :=
  published.collections.flatMap collectionKeyspaces ++
    published.indexes.map fun index => index.2.keyspace index.1

/-- The directories of the full-text indexes and the files of the vector indexes. -/
def indexPaths (published : PublishedNames) : List IndexPath :=
  published.indexes.flatMap fun index => index.2.paths index.1

/-- Names that DEFINE COLLECTION and CREATE INDEX accept. -/
structure NamesValid (published : PublishedNames) : Prop where
  collections : ∀ c ∈ published.collections, validateName "collection" c = .ok ()
  indexed : ∀ index ∈ published.indexes, index.1 ∈ published.collections
  indexes : ∀ index ∈ published.indexes, validateName "index" index.2.name = .ok ()
  fields : ∀ index ∈ published.indexes, ∀ field ∈ index.2.fields, validateName "field" field = .ok ()

end PublishedNames

namespace Disk

variable {κ φ : Type*}

/-- The contents of a keyspace; a missing one has none. -/
def contents [EmptyCollection κ] (disk : Disk κ φ) (name : String) : κ :=
  (disk.keyspaces.lookup name).getD ∅

/-- Nothing of an unfinished build is left. -/
structure NoBuilds (disk : Disk κ φ) : Prop where
  keyspace : ∀ collection buildId,
    disk.keyspaces.lookup (indexKeyspaceName collection (buildName buildId)) = none
  uniqueKeyspace : ∀ collection buildId,
    disk.keyspaces.lookup (indexKeyspaceName collection (uniqueBuildName buildId)) = none
  directory : ∀ collection buildId, disk.file (ftsPath collection (buildName buildId)) = none
  files : ∀ collection buildId, disk.file (vectorPath collection (buildName buildId)) = none ∧
    disk.file (vectorMetaPath collection (buildName buildId)) = none

/-- The published contents are as they were, and nothing of an unfinished build is left. -/
structure RemovesOnlyBuilds [EmptyCollection κ] (published : PublishedNames) (disk disk' : Disk κ φ) :
    Prop where
  keyspaces : ∀ name ∈ published.keyspaceNames, disk'.contents name = disk.contents name
  files : ∀ p ∈ published.indexPaths, disk'.file p = disk.file p
  noBuilds : disk'.NoBuilds

theorem hasMarker_build (collection rest : String) :
    hasMarker (indexKeyspaceName collection (indexBuildMarker ++ rest)) = true := by
  refine decide_eq_true ⟨("idx_" ++ collection ++ "_").toList, rest.toList, ?_⟩
  show _ = ("idx_" ++ collection ++ "_" ++ (indexBuildMarker ++ rest)).toList
  simp only [String.toList_append, List.append_assoc]

theorem startsWithMarker_build (rest : String) :
    startsWithMarker (indexBuildMarker ++ rest) = true :=
  decide_eq_true ⟨rest.toList, (String.toList_append ..).symm⟩

theorem cleanup_noBuilds (disk : Disk κ φ) : disk.cleanupOrphanedBuilds.NoBuilds where
  keyspace collection buildId := by
    rw [cleanup_keyspaces]
    exact if_pos (hasMarker_build collection buildId)
  uniqueKeyspace collection buildId := by
    rw [cleanup_keyspaces, uniqueBuildName, String.append_assoc]
    exact if_pos (hasMarker_build collection _)
  directory collection buildId := by
    rw [cleanup_file]
    exact if_pos (startsWithMarker_build buildId)
  files collection buildId := by
    rw [cleanup_file, cleanup_file, vectorPath, vectorMetaPath, buildName, String.append_assoc,
      String.append_assoc]
    exact ⟨if_pos (startsWithMarker_build _), if_pos (startsWithMarker_build _)⟩

/-- The cleanup removes every build, and only builds exactly if what is published with the marker
in its name is empty. -/
theorem cleanup_keeps_iff [EmptyCollection κ] (published : PublishedNames) (disk : Disk κ φ) :
    RemovesOnlyBuilds published disk disk.cleanupOrphanedBuilds ↔
      (∀ name ∈ published.keyspaceNames, hasMarker name → disk.contents name = ∅) ∧
        ∀ p ∈ published.indexPaths, startsWithMarker p.entry → disk.file p = none := by
  constructor
  · intro h
    refine ⟨fun name hname hmarker => ?_, fun p hp hmarker => ?_⟩
    · rw [← h.keyspaces name hname, contents, cleanup_keyspaces, if_pos hmarker]
      rfl
    · rw [← h.files p hp, cleanup_file, if_pos hmarker]
  · rintro ⟨hempty, habsent⟩
    refine ⟨fun name hname => ?_, fun p hp => ?_, cleanup_noBuilds disk⟩
    · unfold contents
      rw [cleanup_keyspaces]
      split
      · next hmarker => exact (hempty name hname hmarker).symm
      · rfl
    · rw [cleanup_file]
      split
      · next hmarker => exact (habsent p hp hmarker).symm
      · rfl

end Disk

/-! ## Names with the marker -/

/-! ## A collection with an unlucky name -/

namespace Warehouse

/-- `_build_plans` is a name that is accepted. -/
def published : PublishedNames := ⟨["_build_plans"], []⟩

/-- Its document keyspace has one document. -/
def disk : Disk (List String) Unit :=
  ⟨AList.singleton (docsKeyspace "_build_plans") ["house"], fun _ => ∅⟩

/-- The documents of the collection are removed. -/
theorem plans_removed :
    published.NamesValid ∧ ¬ Disk.RemovesOnlyBuilds published disk disk.cleanupOrphanedBuilds := by
  refine ⟨⟨?_, by simp [published], by simp [published], by simp [published]⟩, fun h => ?_⟩
  · intro c hc
    obtain rfl : c = "_build_plans" := List.mem_singleton.mp hc
    decide +kernel
  · have hdocs := h.keyspaces (docsKeyspace "_build_plans") (by decide)
    revert hdocs
    decide +kernel

end Warehouse

end StellarDb
