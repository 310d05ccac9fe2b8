import Mathlib.Data.List.Nodup
import Walrusd.Identity
import Walrusd.Litestream.Bucket

/-!
# The in-process replica store

The clients of the memory provider share one map from object keys to stored LTX files, each below
the replica prefix of its database (`litestream/memory.go`). Whether the client of one database
reaches the objects of another depends on their IDs alone: it does if the first ID lies below the
second, or the second is or lies below the `replica` directory of the first.

## Main definitions

* `LTXPaths`, `LTXPaths.Below` — the paths of LTX files, and that they lie below the replica.
* `MemoryObjects`, `MemoryReplicaClient`.
* `DatabaseID.Isolated`, `DatabaseID.Overlaps`.

## Main results

* `isolated_iff`.
-/

namespace Walrusd.Litestream

open List

/-! ### Names of LTX files -/

/-- The paths and names of LTX files, which belong to the libraries `litestream` and `ltx`. -/
structure LTXPaths where
  /-- `litestream.LTXLevelDir`. -/
  ltxLevelDir : String → ℕ → String
  /-- `litestream.LTXFilePath`. -/
  ltxFilePath : String → ℕ → ℕ → ℕ → String
  /-- `ltx.ParseFilename`. -/
  parseFilename : String → Option (ℕ × ℕ)

/-- The level directories and the files of a replica lie below its path. -/
structure LTXPaths.Below (L : LTXPaths) (path : String) : Prop where
  levelDir : ∀ level, (path ++ "/").toList <+: (L.ltxLevelDir path level).toList
  filePath : ∀ level minTXID maxTXID,
    (path ++ "/").toList <+: (L.ltxFilePath path level minTXID maxTXID).toList

/-- One directory for each level, in which a file has the name of its last TXID. -/
def LTXPaths.flat : LTXPaths where
  ltxLevelDir path level := path ++ "/" ++ toString level
  ltxFilePath path level _ maxTXID := path ++ "/" ++ (toString level ++ "/" ++ toString maxTXID)
  parseFilename name := name.toNat?.map fun n => (n, n)

theorem LTXPaths.flat_below (path : String) : flat.Below path := by
  have hprefix : ∀ s t : String, s.toList <+: (s ++ t).toList := by
    intro s t
    rw [String.toList_append]
    exact prefix_append _ _
  exact ⟨fun _ => hprefix _ _, fun _ _ _ => hprefix _ _⟩

/-! ### The client -/

/-- One stored LTX file. -/
structure MemoryObject where
  data : Bytes
  createdAt : ℤ
  deriving DecidableEq, Repr

/-- The objects of the process, at most one of each key. -/
structure MemoryObjects where
  entries : List (String × MemoryObject)
  nodup : (entries.map Prod.fst).Nodup

namespace MemoryObjects

/-- The objects whose keys begin with a text, or those whose keys do not. -/
def select (m : MemoryObjects) (text : String) (under : Bool) : MemoryObjects where
  entries := m.entries.filter fun e => decide (text.toList <+: e.1.toList) = under
  nodup := m.nodup.sublist (filter_sublist.map _)

theorem entries_select (m : MemoryObjects) (text : String) (under : Bool) :
    (m.select text under).entries =
      m.entries.filter fun e => decide (text.toList <+: e.1.toList) = under := rfl

/-- `memoryObjects[key] = obj`. -/
def store (m : MemoryObjects) (key : String) (obj : MemoryObject) : MemoryObjects where
  entries := (m.entries.filter fun e => e.1 ≠ key) ++ [(key, obj)]
  nodup := by
    rw [map_append, map_singleton, nodup_append]
    refine ⟨m.nodup.sublist (filter_sublist.map _), nodup_singleton _, ?_⟩
    intro k hk k' hk'
    obtain ⟨e, he, rfl⟩ := mem_map.mp hk
    rw [mem_singleton.mp hk']
    exact of_decide_eq_true (mem_filter.mp he).2

end MemoryObjects

/-- A client, rooted at the replica prefix of its database. -/
structure MemoryReplicaClient where
  path : String

namespace MemoryReplicaClient

variable (L : LTXPaths) (c : MemoryReplicaClient) (m : MemoryObjects)

/-- `LTXFiles`, up to the order of the files. -/
def ltxFiles (level seek : ℕ) : List FileInfo :=
  let dir := L.ltxLevelDir c.path level ++ "/"
  m.entries.filterMap fun e =>
    if dir.toList <+: e.1.toList then
      match L.parseFilename (String.ofList (e.1.toList.drop dir.length)) with
      | none => none
      | some (minTXID, maxTXID) =>
        if minTXID < seek then none
        else some ⟨level, minTXID, maxTXID, e.2.data.length, e.2.createdAt⟩
    else none

/-- `OpenLTXFile`: the window of the stored file. -/
def openLTXFile (level minTXID maxTXID offset : ℕ) (size : ℤ) : Option Bytes :=
  let key := L.ltxFilePath c.path level minTXID maxTXID
  (m.entries.find? fun e => e.1 = key).map fun e => window e.2.data offset size

/-- `WriteLTXFile`; `createdAt` is the timestamp in the header of the file. -/
def writeLTXFile (level minTXID maxTXID : ℕ) (data : Bytes) (createdAt : ℤ) : MemoryObjects :=
  m.store (L.ltxFilePath c.path level minTXID maxTXID) ⟨data, createdAt⟩

/-- `DeleteLTXFiles`. -/
def deleteLTXFiles (files : List FileInfo) : MemoryObjects where
  entries := m.entries.filter fun e =>
    ∀ f ∈ files, e.1 ≠ L.ltxFilePath c.path f.level f.minTXID f.maxTXID
  nodup := m.nodup.sublist (filter_sublist.map _)

/-- `DeleteAll`: remove every object below the prefix of the client. -/
def deleteAll : MemoryObjects := m.select (c.path ++ "/") false

end MemoryReplicaClient

end Walrusd.Litestream

namespace Walrusd.DatabaseID

open List

/-! ### Isolation -/

/-- No object key of `b` lies in the replica directory of `a`. -/
def Isolated (rootPrefix : String) (a b : DatabaseID) : Prop :=
  ∀ key : String, (b.storagePrefix rootPrefix).toList <+: key.toList →
    ¬ (a.replicaPrefix rootPrefix ++ "/").toList <+: key.toList

/-- The ID `a` is or lies below `b`, or `b` is or lies below the directory `replica` of `a`. -/
def Overlaps (a b : DatabaseID) : Prop :=
  Path.segments b.ID.toList <+: Path.segments a.ID.toList ∨
    Path.segments a.ID.toList ++ ["replica".toList] <+: Path.segments b.ID.toList

instance (a b : DatabaseID) : Decidable (a.Overlaps b) := inferInstanceAs (Decidable (_ ∨ _))

theorem prefixes_eq (rootPrefix : String) :
    ∃ R : List Char, ∀ d : DatabaseID,
      (d.storagePrefix rootPrefix).toList = R ++ (d.ID.toList ++ ['/']) ∧
        (d.replicaPrefix rootPrefix).toList = R ++ (d.ID.toList ++ '/' :: "replica".toList) := by
  by_cases hroot : trimSlash rootPrefix = ""
  · exact ⟨[], fun d => by simp [storagePrefix, replicaPrefix, hroot]⟩
  · exact ⟨(trimSlash rootPrefix).toList ++ ['/'],
      fun d => by simp [storagePrefix, replicaPrefix, hroot]⟩

theorem segments_replica (d : DatabaseID) :
    Path.segments (d.ID.toList ++ '/' :: "replica".toList) =
      Path.segments d.ID.toList ++ ["replica".toList] := by
  rw [Path.segments_append, Path.segments_of_notMem (p := "replica".toList) (by decide)]

theorem overlaps_of_isPrefix {a b : DatabaseID}
    (h : Path.segments b.ID.toList <+: Path.segments a.ID.toList ++ ["replica".toList]) :
    a.Overlaps b := by
  rcases prefix_concat_iff.mp h with heq | hprefix
  · exact .inr (heq ▸ prefix_refl _)
  · exact .inl hprefix

theorem isolated_iff_not_overlaps (rootPrefix : String) (a b : DatabaseID) :
    Isolated rootPrefix a b ↔ ¬ a.Overlaps b := by
  obtain ⟨R, hR⟩ := prefixes_eq rootPrefix
  have hreplica : (a.replicaPrefix rootPrefix ++ "/").toList =
      R ++ ((a.ID.toList ++ '/' :: "replica".toList) ++ ['/']) := by
    simp [(hR a).2]
  rw [Isolated, hreplica, (hR b).1]
  constructor
  · intro h hoverlaps
    -- the longer of the two prefixes is a key below both
    rcases hoverlaps with hbelow | habove
    · obtain ⟨key, hkey⟩ : ∃ key : String,
          key.toList = R ++ ((a.ID.toList ++ '/' :: "replica".toList) ++ ['/']) :=
        ⟨_, String.toList_ofList⟩
      refine h key ?_ (hkey ▸ prefix_refl _)
      rw [hkey, prefix_append_right_inj, Path.segments_prefix_iff, segments_replica]
      exact hbelow.trans (prefix_append _ _)
    · obtain ⟨key, hkey⟩ : ∃ key : String, key.toList = R ++ (b.ID.toList ++ ['/']) :=
        ⟨_, String.toList_ofList⟩
      refine h key (hkey ▸ prefix_refl _) ?_
      rw [hkey, prefix_append_right_inj, Path.segments_prefix_iff, segments_replica]
      exact habove
  · intro h key hb ha
    rcases prefix_or_prefix_of_prefix hb ha with hprefix | hprefix
    all_goals
      rw [prefix_append_right_inj, Path.segments_prefix_iff, segments_replica] at hprefix
    · exact h (overlaps_of_isPrefix hprefix)
    · exact h (.inr hprefix)

end Walrusd.DatabaseID

namespace Walrusd.Litestream

open List

/-- The client of the replica of a database. -/
def replicaClient (rootPrefix : String) (d : DatabaseID) : MemoryReplicaClient :=
  ⟨d.replicaPrefix rootPrefix⟩

namespace MemoryReplicaClient

variable {rootPrefix : String} {a b : DatabaseID} {L : LTXPaths}

section

variable (hL : L.Below (a.replicaPrefix rootPrefix)) (h : ¬ a.Overlaps b)
include hL h

/-- A listing shows no object below the storage prefix of a database that does not overlap. -/
theorem ltxFiles_select (m : MemoryObjects) (level seek : ℕ) :
    (replicaClient rootPrefix a).ltxFiles L (m.select (b.storagePrefix rootPrefix) false) level
        seek =
      (replicaClient rootPrefix a).ltxFiles L m level seek := by
  rw [ltxFiles, ltxFiles, MemoryObjects.entries_select, filterMap_filter]
  refine filterMap_congr fun e _ => ?_
  split
  · rfl
  · next hunder =>
    have hb : (b.storagePrefix rootPrefix).toList <+: e.1.toList := by simpa using hunder
    refine (if_neg fun hdir => ?_).symm
    rw [String.toList_append] at hdir
    exact (DatabaseID.isolated_iff_not_overlaps rootPrefix a b).mpr h e.1 hb
      ((hL.levelDir level).trans ((prefix_append _ _).trans hdir))

/-- The path of a file is not below the storage prefix of a database that does not overlap. -/
theorem filePath_not_under (level minTXID maxTXID : ℕ) :
    ¬ (b.storagePrefix rootPrefix).toList <+:
      (L.ltxFilePath (replicaClient rootPrefix a).path level minTXID maxTXID).toList := fun hb =>
  (DatabaseID.isolated_iff_not_overlaps rootPrefix a b).mpr h _ hb
    (hL.filePath level minTXID maxTXID)

/-- What a client of `a` reads does not depend on the objects of `b`. -/
theorem openLTXFile_select (m : MemoryObjects) (level minTXID maxTXID offset : ℕ) (size : ℤ) :
    (replicaClient rootPrefix a).openLTXFile L (m.select (b.storagePrefix rootPrefix) false)
        level minTXID maxTXID offset size =
      (replicaClient rootPrefix a).openLTXFile L m level minTXID maxTXID offset size := by
  rw [openLTXFile, openLTXFile, MemoryObjects.entries_select, find?_filter]
  refine congrArg (Option.map _) ?_
  refine congrArg (fun p => List.find? p m.entries) (funext fun e => ?_)
  refine decide_eq_decide.mpr ⟨fun he => of_decide_eq_true he.2, fun he => ?_⟩
  have hkey := filePath_not_under hL h level minTXID maxTXID
  exact ⟨by simpa [he] using hkey, decide_eq_true he⟩

/-- Writing and deleting files of `a` keeps the objects of `b`. -/
theorem files_select (m : MemoryObjects) :
    (∀ level minTXID maxTXID data createdAt,
      (((replicaClient rootPrefix a).writeLTXFile L m level minTXID maxTXID data createdAt).select
          (b.storagePrefix rootPrefix) true).entries =
        (m.select (b.storagePrefix rootPrefix) true).entries) ∧
      ∀ files, (((replicaClient rootPrefix a).deleteLTXFiles L m files).select
          (b.storagePrefix rootPrefix) true).entries =
        (m.select (b.storagePrefix rootPrefix) true).entries := by
  have hnot := filePath_not_under hL h
  constructor
  · intro level minTXID maxTXID data createdAt
    have hkey := hnot level minTXID maxTXID
    rw [MemoryObjects.entries_select, MemoryObjects.entries_select, writeLTXFile,
      MemoryObjects.store, filter_append, filter_filter,
      filter_cons_of_neg (by simpa using hkey), filter_nil, append_nil]
    refine filter_congr fun e _ => Bool.and_eq_left_iff_imp.mpr fun hb => ?_
    refine decide_eq_true fun heq => hkey ?_
    rw [heq] at hb
    simpa using hb
  · intro files
    rw [MemoryObjects.entries_select, MemoryObjects.entries_select, deleteLTXFiles, filter_filter]
    refine filter_congr fun e _ => Bool.and_eq_left_iff_imp.mpr fun hb => ?_
    refine decide_eq_true fun f _ heq => hnot f.level f.minTXID f.maxTXID ?_
    rw [← heq]
    simpa using hb

end

theorem openLTXFile_select_siblings : ¬ DatabaseID.Overlaps ⟨"a7"⟩ ⟨"a8"⟩ ∧ ∀ m,
    (replicaClient "root" ⟨"a7"⟩).openLTXFile .flat
        (m.select (DatabaseID.storagePrefix ⟨"a8"⟩ "root") false) 0 1 1 0 0 =
      (replicaClient "root" ⟨"a7"⟩).openLTXFile .flat m 0 1 1 0 0 :=
  ⟨by decide +kernel,
    fun m => openLTXFile_select (LTXPaths.flat_below _) (by decide +kernel) m 0 1 1 0 0⟩

theorem files_select_siblings : ¬ DatabaseID.Overlaps ⟨"a7"⟩ ⟨"a8"⟩ ∧ ∀ m files,
    (((replicaClient "root" ⟨"a7"⟩).deleteLTXFiles .flat m files).select
        (DatabaseID.storagePrefix ⟨"a8"⟩ "root") true).entries =
      (m.select (DatabaseID.storagePrefix ⟨"a8"⟩ "root") true).entries :=
  ⟨by decide +kernel, fun m => (files_select (LTXPaths.flat_below _) (by decide +kernel) m).2⟩

/-- `DeleteAll` keeps the objects below an isolated storage prefix. -/
theorem deleteAll_select (h : DatabaseID.Isolated rootPrefix a b) (m : MemoryObjects) :
    (((replicaClient rootPrefix a).deleteAll m).select (b.storagePrefix rootPrefix) true).entries =
      (m.select (b.storagePrefix rootPrefix) true).entries := by
  rw [MemoryObjects.entries_select, MemoryObjects.entries_select, deleteAll,
    MemoryObjects.entries_select, filter_filter]
  refine filter_congr fun e _ => ?_
  by_cases hb : (b.storagePrefix rootPrefix).toList <+: e.1.toList
  · have ha := h e.1 hb
    rw [String.toList_append] at ha
    simpa [hb, replicaClient] using ha
  · simp [hb]

end MemoryReplicaClient

/-- **Isolation of databases.** The objects of a database `b` lie outside the replica directory of
a database `a` if and only if `a` is not `b` and does not lie below it, and `b` is not and does not
lie below the directory `replica` of `a`. `DeleteAll` on the replica of `a` then keeps every object
of `b`, and its listings show none of them where the level directories of a replica lie below its
path. -/
theorem isolated_iff (rootPrefix : String) (a b : DatabaseID) :
    (DatabaseID.Isolated rootPrefix a b ↔ ¬ a.Overlaps b) ∧
      (¬ a.Overlaps b → ∀ m : MemoryObjects,
        (((replicaClient rootPrefix a).deleteAll m).select
            (b.storagePrefix rootPrefix) true).entries =
          (m.select (b.storagePrefix rootPrefix) true).entries ∧
        ∀ L : LTXPaths, L.Below (a.replicaPrefix rootPrefix) → ∀ level seek,
          (replicaClient rootPrefix a).ltxFiles L
              (m.select (b.storagePrefix rootPrefix) false) level seek =
            (replicaClient rootPrefix a).ltxFiles L m level seek) := by
  have hiff := DatabaseID.isolated_iff_not_overlaps rootPrefix a b
  refine ⟨hiff, fun h m => ⟨MemoryReplicaClient.deleteAll_select (hiff.mpr h) m, fun L hL => ?_⟩⟩
  exact MemoryReplicaClient.ltxFiles_select hL h m

theorem isolated_siblings :
    newDatabaseID "acme/agents/a7" = .ok ⟨"acme/agents/a7"⟩ ∧
      newDatabaseID "acme/agents/a8" = .ok ⟨"acme/agents/a8"⟩ ∧
      DatabaseID.Isolated "root" ⟨"acme/agents/a7"⟩ ⟨"acme/agents/a8"⟩ ∧
      ∀ m : MemoryObjects, (replicaClient "root" ⟨"acme/agents/a7"⟩).ltxFiles .flat
          (m.select (DatabaseID.storagePrefix ⟨"acme/agents/a8"⟩ "root") false) 0 0 =
        (replicaClient "root" ⟨"acme/agents/a7"⟩).ltxFiles .flat m 0 0 := by
  have hsiblings := isolated_iff "root" ⟨"acme/agents/a7"⟩ ⟨"acme/agents/a8"⟩
  have hapart : ¬ DatabaseID.Overlaps ⟨"acme/agents/a7"⟩ ⟨"acme/agents/a8"⟩ := by decide +kernel
  exact ⟨by decide +kernel, by decide +kernel, hsiblings.1.mpr hapart,
    fun m => (hsiblings.2 hapart m).2 .flat (LTXPaths.flat_below _) 0 0⟩

/-- Two accepted IDs, the second below the directory `replica` of the first: `DeleteAll` on the
replica of the first removes the file that the client of the second has stored. -/
theorem deleteAll_removes_other :
    newDatabaseID "x" = .ok ⟨"x"⟩ ∧ newDatabaseID "x/replica/y" = .ok ⟨"x/replica/y"⟩ ∧
      ¬ DatabaseID.Isolated "root" ⟨"x"⟩ ⟨"x/replica/y"⟩ ∧
      ∀ L : LTXPaths, L.Below (DatabaseID.replicaPrefix ⟨"x/replica/y"⟩ "root") →
        let other := replicaClient "root" ⟨"x/replica/y"⟩
        let m := other.writeLTXFile L ⟨[], nodup_nil⟩ 0 1 1 [] 0
        other.openLTXFile L m 0 1 1 0 0 = some [] ∧
          ((replicaClient "root" ⟨"x"⟩).deleteAll m).entries = [] := by
  refine ⟨by decide +kernel, by decide +kernel, ?_, fun L hL => ⟨?_, ?_⟩⟩
  · rw [DatabaseID.isolated_iff_not_overlaps]
    decide +kernel
  · simp [MemoryReplicaClient.openLTXFile, MemoryReplicaClient.writeLTXFile, MemoryObjects.store,
      window]
  have hbelow : (DatabaseID.replicaPrefix ⟨"x"⟩ "root" ++ "/").toList <+:
      (DatabaseID.replicaPrefix ⟨"x/replica/y"⟩ "root" ++ "/").toList := by decide +kernel
  have hkey := hbelow.trans (hL.filePath 0 1 1)
  rw [MemoryReplicaClient.deleteAll, MemoryObjects.entries_select]
  exact filter_eq_nil_iff.mpr (by
    simpa [MemoryReplicaClient.writeLTXFile, MemoryObjects.store, replicaClient] using hkey)

end Walrusd.Litestream
