import Walrusd.Error
import Walrusd.Litestream.FileInfo

/-!
# The durable manifest

The manifest is one small document that indexes the LTX files of a database
(`litestream/manifest.go`). This file has its codec, the merge of a delta into a file list, and
the client that answers listings from a manifest and records what is written through it.

The contents of the manifest object have an arbitrary type `B`; of `encoding/json` only the round
trip on documents is used. File lists are lists of values, so they hold no nil entries.

## Main definitions

* `ManifestDocument`, `ManifestJson`.
* `encodeManifest`, `decodeManifest`, and the same with any `sort.Slice`.
* `applyManifestDelta`, `ManifestClient`.

## Main results

* `decodeManifest_valid` — what decodes is well formed.
* `decodeManifest_encodeManifest` — what was encoded decodes to the same names.
* `hasKey_applyManifestDelta`, `mem_applyManifestDelta` — the names and the files of a merged delta.
* `applyManifestDeltaWith_laws` — the algebra of deltas, with any `sort.Slice`.
-/

namespace Walrusd.Litestream

open List

/-! ### Documents -/

/-- One file of a manifest document. -/
structure ManifestFile where
  level : ℤ
  minTXID : ℕ
  maxTXID : ℕ
  size : ℤ
  createdAt : ℤ
  deriving DecidableEq, Repr

/-- A manifest document. -/
structure ManifestDocument where
  version : ℤ
  files : List ManifestFile
  deriving DecidableEq, Repr

/-- The manifest format. -/
def manifestVersion : ℤ := 1

/-- `encoding/json` on manifest documents: what is marshaled unmarshals to itself. -/
structure ManifestJson (B : Type) where
  marshal : ManifestDocument → Except Err B
  unmarshal : B → Except Err ManifestDocument
  unmarshal_marshal : ∀ {doc data}, marshal doc = .ok data → unmarshal data = .ok doc

/-- The codec whose object contents are the documents themselves, and garbage. -/
def ManifestJson.plain : ManifestJson (Option ManifestDocument) where
  marshal doc := .ok (some doc)
  unmarshal
    | some doc => .ok doc
    | none => .error (.other "unexpected end of JSON input")
  unmarshal_marshal := by
    intro doc data h
    rw [← Except.ok.inj h]

/-- The document entry of a file. -/
def FileInfo.toManifestFile (f : FileInfo) : ManifestFile :=
  ⟨f.level, f.minTXID, f.maxTXID, f.size, f.createdAt⟩

/-- The file of a document entry. -/
def ManifestFile.toFileInfo (f : ManifestFile) : FileInfo :=
  ⟨f.level.toNat, f.minTXID, f.maxTXID, f.size, f.createdAt⟩

variable {f : FileInfo} {files : List FileInfo} {sort : SortSlice fileLE} {k : FileKey}
  {out written base deleted : List FileInfo}

@[simp] theorem FileInfo.toFileInfo_toManifestFile (f : FileInfo) :
    f.toManifestFile.toFileInfo = f := by
  simp [FileInfo.toManifestFile, ManifestFile.toFileInfo]

/-- The order of `EncodeManifest`: by level, then by first and last TXID. -/
def manifestFileLE (f g : ManifestFile) : Prop :=
  f.level < g.level ∨ f.level = g.level ∧
    (f.minTXID < g.minTXID ∨ f.minTXID = g.minTXID ∧ f.maxTXID ≤ g.maxTXID)

instance : DecidableRel manifestFileLE := fun _ _ => inferInstanceAs (Decidable (_ ∨ _))

instance : Std.Total manifestFileLE where
  total f g := by
    simp only [manifestFileLE]
    omega

instance : IsTrans ManifestFile manifestFileLE where
  trans f g h := by
    simp only [manifestFileLE]
    omega

/-- The document that `EncodeManifest` marshals. -/
def manifestDocument (files : List FileInfo) : ManifestDocument :=
  ⟨manifestVersion, (files.map FileInfo.toManifestFile).insertionSort manifestFileLE⟩

variable {B : Type} (json : ManifestJson B) {data : B}

/-- `EncodeManifest`: serialize a file list, sorted by level and TXID. -/
def encodeManifest (files : List FileInfo) : Except Err B := json.marshal (manifestDocument files)

/-- The loop of `DecodeManifest`: reject malformed entries and skip repeated names. -/
def decodeFiles : List FileKey → List ManifestFile → Except Err (List FileInfo)
  | _, [] => .ok []
  | seen, f :: fs =>
    if f.level < 0 ∨ (snapshotLevel : ℤ) < f.level then
      .error (.other ("litestream: manifest level " ++ toString f.level ++ " out of range"))
    else if f.minTXID = 0 ∨ f.maxTXID < f.minTXID then
      .error (.other ("litestream: manifest file range " ++ toString f.minTXID ++ "-" ++
        toString f.maxTXID ++ " is invalid"))
    else if f.toFileInfo.key ∈ seen then decodeFiles seen fs
    else
      match decodeFiles (f.toFileInfo.key :: seen) fs with
      | .error e => .error e
      | .ok rest => .ok (f.toFileInfo :: rest)

/-- `DecodeManifest`: parse and validate a manifest document. -/
def decodeManifest (data : B) : Except Err (List FileInfo) :=
  match json.unmarshal data with
  | .error e => .error (.annotated "litestream: decode manifest: " "" e)
  | .ok doc =>
    if doc.version ≠ manifestVersion then
      .error (.other ("litestream: unsupported manifest version " ++ toString doc.version))
    else
      match decodeFiles [] doc.files with
      | .error e => .error e
      | .ok files => .ok (sortFiles files)

/-- `EncodeManifest` with any `sort.Slice`. -/
def encodeManifestWith (sort : SortSlice manifestFileLE) (files : List FileInfo) : Except Err B :=
  json.marshal ⟨manifestVersion, sort.sort (files.map FileInfo.toManifestFile)⟩

/-- `DecodeManifest` with any `sort.Slice`. -/
def decodeManifestWith (sort : SortSlice fileLE) (data : B) : Except Err (List FileInfo) :=
  match json.unmarshal data with
  | .error e => .error (.annotated "litestream: decode manifest: " "" e)
  | .ok doc =>
    if doc.version ≠ manifestVersion then
      .error (.other ("litestream: unsupported manifest version " ++ toString doc.version))
    else
      match decodeFiles [] doc.files with
      | .error e => .error e
      | .ok files => .ok (sort.sort files)

theorem decodeManifest_eq (data : B) :
    decodeManifest json data = decodeManifestWith json (.stable fileLE) data := rfl

/-! ### What decodes -/

theorem ManifestFile.valid_key {f : ManifestFile}
    (hlevel : ¬ (f.level < 0 ∨ (snapshotLevel : ℤ) < f.level))
    (hrange : ¬ (f.minTXID = 0 ∨ f.maxTXID < f.minTXID)) : f.toFileInfo.key.Valid := by
  simp only [ManifestFile.toFileInfo, FileInfo.key, FileKey.Valid]
  omega

/-- The entry of a file of a valid name passes the checks of the loop. -/
theorem FileInfo.accepted_of_valid (hf : f.key.Valid) :
    ¬ (f.toManifestFile.level < 0 ∨ (snapshotLevel : ℤ) < f.toManifestFile.level) ∧
      ¬ (f.toManifestFile.minTXID = 0 ∨ f.toManifestFile.maxTXID < f.toManifestFile.minTXID) := by
  simp only [FileKey.Valid, FileInfo.key] at hf
  simp only [FileInfo.toManifestFile]
  omega

/-- A list of entries of files is that of a list of files. -/
theorem exists_map_toManifestFile {entries : List ManifestFile}
    (hperm : entries.Perm (files.map FileInfo.toManifestFile)) :
    ∃ fs : List FileInfo, entries = fs.map FileInfo.toManifestFile ∧ fs.Perm files := by
  refine ⟨entries.map ManifestFile.toFileInfo, ?_, ?_⟩
  · have hround : ∀ e ∈ entries, e.toFileInfo.toManifestFile = e := by
      intro e he
      obtain ⟨f, -, rfl⟩ := mem_map.mp (hperm.mem_iff.mp he)
      rw [FileInfo.toFileInfo_toManifestFile]
    rw [map_map]
    exact (map_id _).symm.trans (map_congr_left fun e he => (hround e he).symm)
  · have h := hperm.map ManifestFile.toFileInfo
    simpa [Function.comp_def] using h

theorem decodeFiles_valid {seen : List FileKey} {fs : List ManifestFile}
    (h : decodeFiles seen fs = .ok files) :
    AllValid files ∧ (keys files).Nodup ∧ ∀ k, HasKey files k → k ∉ seen := by
  induction fs generalizing seen files with
  | nil =>
    obtain rfl : [] = files := Except.ok.inj h
    exact ⟨fun k hk => absurd hk not_hasKey_nil, nodup_nil, fun k hk =>
      absurd hk not_hasKey_nil⟩
  | cons f fs ih =>
    simp only [decodeFiles] at h
    split at h
    · cases h
    · next hlevel =>
      split at h
      · cases h
      · next hrange =>
        split at h
        · exact ih h
        · next hseen =>
          split at h
          · cases h
          · next rest hrest =>
            obtain rfl : f.toFileInfo :: rest = files := Except.ok.inj h
            obtain ⟨hvalid, hnodup, hnew⟩ := ih hrest
            refine ⟨fun k hk => ?_, ?_, fun k hk => ?_⟩
            · rcases hasKey_cons.mp hk with rfl | hk
              · exact ManifestFile.valid_key hlevel hrange
              · exact hvalid k hk
            · exact nodup_cons.mpr ⟨fun hk => hnew _ hk mem_cons_self, hnodup⟩
            rcases hasKey_cons.mp hk with rfl | hk
            · exact hseen
            · exact fun hks => hnew k hk (mem_cons_of_mem _ hks)

theorem decodeManifestWith_valid (h : decodeManifestWith json sort data = .ok files) :
    AllValid files ∧ (keys files).Nodup ∧ files.Pairwise fileLE := by
  unfold decodeManifestWith at h
  split at h
  · cases h
  split at h
  · cases h
  split at h
  · cases h
  · next decoded hdecoded =>
    obtain rfl : sort.sort decoded = files := Except.ok.inj h
    obtain ⟨hvalid, hnodup, -⟩ := decodeFiles_valid hdecoded
    refine ⟨fun k hk => hvalid k ((hasKey_perm (sort.perm decoded)).mp hk), ?_, sort.sorted _⟩
    exact (((sort.perm decoded).map FileInfo.key).nodup_iff).mpr hnodup

/-- **What decodes is well formed:** names are valid and occur once. -/
theorem decodeManifest_valid (h : decodeManifest json data = .ok files) :
    AllValid files ∧ (keys files).Nodup := by
  rw [decodeManifest_eq] at h
  obtain ⟨hvalid, hnodup, -⟩ := decodeManifestWith_valid json h
  exact ⟨hvalid, hnodup⟩

/-- Valid entries decode, to entries of the same names. -/
theorem decodeFiles_of_valid (seen : List FileKey) {fs : List FileInfo} (hvalid : AllValid fs) :
    ∃ files, decodeFiles seen (fs.map FileInfo.toManifestFile) = .ok files ∧
      (∀ f ∈ files, f ∈ fs) ∧ ∀ k, HasKey fs k → k ∈ seen ∨ HasKey files k := by
  induction fs generalizing seen with
  | nil => exact ⟨[], rfl, fun f hf => hf, fun k hk => absurd hk not_hasKey_nil⟩
  | cons f fs ih =>
    have hf : f.key.Valid := hvalid _ (hasKey_cons.mpr (.inl rfl))
    have hfs : AllValid fs := fun k hk => hvalid k (hasKey_cons.mpr (.inr hk))
    obtain ⟨hlevel, hrange⟩ := FileInfo.accepted_of_valid hf
    simp only [map_cons, decodeFiles, FileInfo.toFileInfo_toManifestFile]
    rw [if_neg hlevel, if_neg hrange]
    split
    · next hseen =>
      obtain ⟨files, hdecode, hmem, hkeys⟩ := ih seen hfs
      refine ⟨files, hdecode, fun g hg => mem_cons_of_mem _ (hmem g hg), fun k hk => ?_⟩
      rcases hasKey_cons.mp hk with rfl | hk
      · exact .inl hseen
      · exact hkeys k hk
    · obtain ⟨files, hdecode, hmem, hkeys⟩ := ih (f.key :: seen) hfs
      refine ⟨f :: files, by rw [hdecode], fun g hg => ?_, fun k hk => ?_⟩
      · rcases mem_cons.mp hg with rfl | hg
        · exact mem_cons_self
        · exact mem_cons_of_mem _ (hmem g hg)
      rcases hasKey_cons.mp hk with rfl | hk
      · exact .inr (hasKey_cons.mpr (.inl rfl))
      rcases hkeys k hk with hks | hkf
      · rcases mem_cons.mp hks with rfl | hks
        · exact .inr (hasKey_cons.mpr (.inl rfl))
        · exact .inl hks
      · exact .inr (hasKey_cons.mpr (.inr hkf))

/-- **What was encoded decodes**, to files of the list with the same names. -/
theorem decodeManifest_encodeManifest (hvalid : AllValid files)
    (h : encodeManifest json files = .ok data) :
    ∃ decoded, decodeManifest json data = .ok decoded ∧ (∀ f ∈ decoded, f ∈ files) ∧
      ∀ k, HasKey decoded k ↔ HasKey files k := by
  -- the sorted entries are those of a permutation of the files
  obtain ⟨fs, hfs, hperm⟩ :=
    exists_map_toManifestFile (perm_insertionSort manifestFileLE (files.map _))
  have hvalid' : AllValid fs := fun k hk => hvalid k ((hasKey_perm hperm).mp hk)
  obtain ⟨decoded, hdecoded, hmem, hkeys⟩ := decodeFiles_of_valid [] hvalid'
  refine ⟨sortFiles decoded, ?_, fun f hf => ?_, fun k => ?_⟩
  · simp only [decodeManifest, json.unmarshal_marshal h, manifestDocument, ne_eq, not_true_eq_false,
      if_false, hfs, hdecoded]
  · exact hperm.mem_iff.mp (hmem f (mem_sortFiles.mp hf))
  rw [hasKey_sortFiles, ← hasKey_perm hperm]
  constructor
  · intro hk
    obtain ⟨f, hf, rfl⟩ := hasKey_iff.mp hk
    exact hasKey_of_mem (hmem f hf)
  · intro hk
    exact (hkeys k hk).resolve_left (by simp)

/-- The stored document determines the names that were encoded. -/
theorem hasKey_of_encodeManifest {files' : List FileInfo} (h : encodeManifest json files = .ok data)
    (h' : encodeManifest json files' = .ok data) (hk : HasKey files k) : HasKey files' k := by
  have hdoc : manifestDocument files = manifestDocument files' :=
    Except.ok.inj ((json.unmarshal_marshal h).symm.trans (json.unmarshal_marshal h'))
  obtain ⟨f, hf, rfl⟩ := hasKey_iff.mp hk
  have hmem : f.toManifestFile ∈ (manifestDocument files').files := by
    rw [← hdoc]
    exact (perm_insertionSort manifestFileLE _).mem_iff.mpr (mem_map_of_mem hf)
  obtain ⟨g, hg, heq⟩ := mem_map.mp ((perm_insertionSort manifestFileLE _).mem_iff.mp hmem)
  have hfg : g = f := by
    rw [← g.toFileInfo_toManifestFile, heq, f.toFileInfo_toManifestFile]
  exact hfg ▸ hasKey_of_mem hg

/-! ### Deltas -/

/-- The loop of `applyManifestDelta` over the written files. -/
def appendMissing (out written : List FileInfo) : List FileInfo :=
  written.foldl (fun out f => if manifestContains out f then out else out ++ [f]) out

/-- Remove deleted files and add written files; compaction applies its result in this way to the
manifest that it re-reads. `sort.Slice` may leave two files with the same level and first TXID in
either order, and here the order is the stable one. Nothing above depends on that: the result is
used through its files, their names and their last TXIDs, which are the same in every order
(`applyManifestDeltaWith_laws`), and the encoder sorts again, by the whole name. -/
def applyManifestDelta (base written deleted : List FileInfo) : List FileInfo :=
  sortFiles (appendMissing (base.filter fun f => !manifestContains deleted f) written)

/-- `applyManifestDelta` with any `sort.Slice`. -/
def applyManifestDeltaWith (sort : SortSlice fileLE) (base written deleted : List FileInfo) :
    List FileInfo :=
  sort.sort (appendMissing (base.filter fun f => !manifestContains deleted f) written)

theorem applyManifestDelta_eq (base written deleted : List FileInfo) :
    applyManifestDelta base written deleted =
      applyManifestDeltaWith (.stable fileLE) base written deleted := rfl

theorem hasKey_appendMissing :
    HasKey (appendMissing out written) k ↔ HasKey out k ∨ HasKey written k := by
  induction written generalizing out with
  | nil => simp [appendMissing]
  | cons f written ih =>
    have hstep : appendMissing out (f :: written) =
        appendMissing (if manifestContains out f then out else out ++ [f]) written := rfl
    rw [hstep, ih, hasKey_cons]
    split
    · next hin =>
      have hf := manifestContains_iff.mp hin
      constructor
      · rintro (h | h)
        · exact .inl h
        · exact .inr (.inr h)
      rintro (h | rfl | h)
      · exact .inl h
      · exact .inl hf
      · exact .inr h
    · simp [or_assoc]

/-- The files that are added are those whose names are not there yet. -/
theorem mem_appendMissing (hnodup : (keys written).Nodup) :
    f ∈ appendMissing out written ↔ f ∈ out ∨ f ∈ written ∧ ¬ HasKey out f.key := by
  induction written generalizing out with
  | nil => simp [appendMissing]
  | cons g written ih =>
    obtain ⟨hnew, hnodup⟩ := nodup_cons.mp hnodup
    have hstep : appendMissing out (g :: written) =
        appendMissing (if manifestContains out g then out else out ++ [g]) written := rfl
    -- the names that are left are not that of the first file
    have hne : ∀ f ∈ written, g.key ≠ f.key := fun f hf h => hnew (h ▸ hasKey_of_mem hf)
    rw [hstep, ih hnodup]
    split
    · next hin =>
      have hg := manifestContains_iff.mp hin
      constructor
      · rintro (h | ⟨h, hout⟩)
        · exact .inl h
        · exact .inr ⟨mem_cons_of_mem _ h, hout⟩
      rintro (h | ⟨h, hout⟩)
      · exact .inl h
      rcases mem_cons.mp h with rfl | h
      · exact absurd hg hout
      · exact .inr ⟨h, hout⟩
    · next hout =>
      have hg : ¬ HasKey out g.key := fun h => hout (manifestContains_iff.mpr h)
      simp only [mem_append, mem_cons, not_mem_nil, hasKey_append, hasKey_cons,
        not_hasKey_nil, or_false, not_or]
      constructor
      · rintro ((h | rfl) | ⟨h, hout, -⟩)
        · exact .inl h
        · exact .inr ⟨.inl rfl, hg⟩
        · exact .inr ⟨.inr h, hout⟩
      · rintro (h | ⟨rfl | h, hout⟩)
        · exact .inl (.inl h)
        · exact .inl (.inr rfl)
        · exact .inr ⟨h, hout, hne f h⟩

/-- The files of a name that is there already stay, and no other file of that name is added. -/
theorem mem_appendMissing_of_hasKey (h : HasKey out f.key) :
    f ∈ appendMissing out written ↔ f ∈ out := by
  induction written generalizing out with
  | nil => rfl
  | cons g written ih =>
    have hstep : appendMissing out (g :: written) =
        appendMissing (if manifestContains out g then out else out ++ [g]) written := rfl
    rw [hstep]
    split
    · exact ih h
    · next hout =>
      rw [ih (hasKey_append.mpr (.inl h)), mem_append, mem_singleton]
      refine or_iff_left ?_
      rintro rfl
      exact hout (manifestContains_iff.mpr h)

theorem nodup_keys_appendMissing (hout : (keys out).Nodup) :
    (keys (appendMissing out written)).Nodup := by
  induction written generalizing out with
  | nil => exact hout
  | cons f written ih =>
    refine @ih (if manifestContains out f then out else out ++ [f]) ?_
    split
    · exact hout
    · next hnew =>
      have hnew' : ¬ HasKey out f.key := fun h => hnew (manifestContains_iff.mpr h)
      rw [keys, map_append, map_singleton]
      exact nodup_append.mpr ⟨hout, nodup_singleton _, fun k hk k' hk' heq =>
        hnew' (mem_singleton.mp hk' ▸ heq ▸ hk)⟩

theorem mem_filter_manifestContains :
    f ∈ base.filter (fun f => !manifestContains deleted f) ↔ f ∈ base ∧ ¬ HasKey deleted f.key := by
  rw [mem_filter, Bool.not_eq_true', ← Bool.not_eq_true, manifestContains_iff]

theorem hasKey_filter_manifestContains :
    HasKey (base.filter fun f => !manifestContains deleted f) k ↔
      HasKey base k ∧ ¬ HasKey deleted k :=
  hasKey_part (q := fun k => ¬ HasKey deleted k) (fun _ => mem_filter_manifestContains) k

/-- The names of a merged delta, however it is sorted. -/
theorem hasKey_applyManifestDeltaWith :
    HasKey (applyManifestDeltaWith sort base written deleted) k ↔
      (HasKey base k ∧ ¬ HasKey deleted k) ∨ HasKey written k := by
  rw [applyManifestDeltaWith, hasKey_perm (sort.perm _), hasKey_appendMissing,
    hasKey_filter_manifestContains]

/-- **The names of a merged delta** are those of the base that were not deleted and those that
were written. -/
theorem hasKey_applyManifestDelta :
    HasKey (applyManifestDelta base written deleted) k ↔
      (HasKey base k ∧ ¬ HasKey deleted k) ∨ HasKey written k := by
  rw [applyManifestDelta_eq, hasKey_applyManifestDeltaWith]

/-- **The files of a merged delta**: the file of a name that stays wins over a written one. -/
theorem mem_applyManifestDelta (hnodup : (keys written).Nodup) :
    f ∈ applyManifestDelta base written deleted ↔ (f ∈ base ∧ ¬ HasKey deleted f.key) ∨
      f ∈ written ∧ ¬ (HasKey base f.key ∧ ¬ HasKey deleted f.key) := by
  rw [applyManifestDelta, mem_sortFiles, mem_appendMissing hnodup, mem_filter_manifestContains,
    hasKey_filter_manifestContains]

theorem nodup_keys_applyManifestDeltaWith (hbase : (keys base).Nodup) :
    (keys (applyManifestDeltaWith sort base written deleted)).Nodup := by
  have hkept : (keys (base.filter fun f => !manifestContains deleted f)).Nodup :=
    hbase.sublist (filter_sublist.map FileInfo.key)
  exact (((sort.perm _).map FileInfo.key).nodup_iff).mpr (nodup_keys_appendMissing hkept)

theorem nodup_keys_applyManifestDelta (hbase : (keys base).Nodup) :
    (keys (applyManifestDelta base written deleted)).Nodup := by
  rw [applyManifestDelta_eq]
  exact nodup_keys_applyManifestDeltaWith hbase

/-- **The algebra of manifest deltas.** The names are those of the base that were not deleted and
those that were written, each once if the base has them once. The files of a name that stays are
those of the base, the list is sorted, and a delta that is applied again changes no name. -/
theorem applyManifestDeltaWith_laws (sort : SortSlice fileLE)
    (base written deleted : List FileInfo) :
    (∀ k, HasKey (applyManifestDeltaWith sort base written deleted) k ↔
      (HasKey base k ∧ ¬ HasKey deleted k) ∨ HasKey written k) ∧
    ((keys base).Nodup → (keys (applyManifestDeltaWith sort base written deleted)).Nodup) ∧
    (∀ k, HasKey base k → HasKey written k → ¬ HasKey deleted k → ∀ f : FileInfo, f.key = k →
      (f ∈ applyManifestDeltaWith sort base written deleted ↔ f ∈ base)) ∧
    (applyManifestDeltaWith sort base written deleted).Pairwise
      (fun f g => f.level < g.level ∨ f.level = g.level ∧ f.minTXID ≤ g.minTXID) ∧
    ∀ k, HasKey (applyManifestDeltaWith sort
        (applyManifestDeltaWith sort base written deleted) written deleted) k ↔
      HasKey (applyManifestDeltaWith sort base written deleted) k := by
  refine ⟨fun k => hasKey_applyManifestDeltaWith, nodup_keys_applyManifestDeltaWith, ?_,
    sort.sorted _, fun k => ?_⟩
  · rintro _ hbase - hdeleted f rfl
    have hkept := hasKey_filter_manifestContains.mpr ⟨hbase, hdeleted⟩
    rw [applyManifestDeltaWith, (sort.perm _).mem_iff, mem_appendMissing_of_hasKey hkept,
      mem_filter_manifestContains]
    exact and_iff_left hdeleted
  · simp only [hasKey_applyManifestDeltaWith]
    tauto

/-- A file of the base that is written again, one that is deleted, and a new one. -/
theorem applyManifestDeltaWith_laws_rewritten :
    (keys (applyManifestDeltaWith (.stable fileLE) [⟨0, 1, 1, 5, 10⟩, ⟨0, 2, 2, 5, 20⟩]
      [⟨0, 2, 2, 7, 30⟩, ⟨1, 1, 1, 5, 30⟩] [⟨0, 1, 1, 5, 10⟩])).Nodup ∧
    (⟨0, 2, 2, 5, 20⟩ : FileInfo) ∈ applyManifestDeltaWith (.stable fileLE)
      [⟨0, 1, 1, 5, 10⟩, ⟨0, 2, 2, 5, 20⟩] [⟨0, 2, 2, 7, 30⟩, ⟨1, 1, 1, 5, 30⟩]
      [⟨0, 1, 1, 5, 10⟩] := by
  obtain ⟨-, hnodup, hkept, -⟩ := applyManifestDeltaWith_laws (.stable fileLE)
    [⟨0, 1, 1, 5, 10⟩, ⟨0, 2, 2, 5, 20⟩] [⟨0, 2, 2, 7, 30⟩, ⟨1, 1, 1, 5, 30⟩] [⟨0, 1, 1, 5, 10⟩]
  refine ⟨hnodup (by decide), (hkept ⟨0, 2, 2⟩ ?_ ?_ ?_ ⟨0, 2, 2, 5, 20⟩ rfl).mpr ?_⟩
  all_goals decide

theorem applyManifestDelta_perm_cons {info : FileInfo}
    (hnew : ¬ (HasKey base info.key ∧ ¬ HasKey deleted info.key)) :
    (applyManifestDelta base [info] deleted).Perm
      (info :: base.filter fun f => !manifestContains deleted f) := by
  have hout : ¬ manifestContains (base.filter fun f => !manifestContains deleted f) info = true :=
    fun h => hnew (hasKey_filter_manifestContains.mp (manifestContains_iff.mp h))
  have hadd : appendMissing (base.filter fun f => !manifestContains deleted f) [info] =
      (base.filter fun f => !manifestContains deleted f) ++ [info] := if_neg hout
  rw [applyManifestDelta, hadd]
  exact (perm_insertionSort fileLE _).trans (perm_append_singleton _ _)

theorem applyManifestDelta_valid (hbase : AllValid base) (hwritten : AllValid written) :
    AllValid (applyManifestDelta base written deleted) := by
  intro k hk
  rcases hasKey_applyManifestDelta.mp hk with ⟨hk, -⟩ | hk
  · exact hbase k hk
  · exact hwritten k hk

/-! ### The manifest client -/

/-- A client that answers listings from a manifest snapshot and records every write and delete
made through it. -/
structure ManifestClient where
  files : List FileInfo
  written : List FileInfo
  deleted : List FileInfo

namespace ManifestClient

/-- `newManifestClient`: a client over a snapshot. -/
def new (files : List FileInfo) : ManifestClient := ⟨files, [], []⟩

/-- `LTXFiles`: the files of a level that start at `seek` or later. -/
def ltxFiles (c : ManifestClient) (level : ℕ) (seek : ℕ) : List FileInfo :=
  c.files.filter fun f => f.level = level && seek ≤ f.minTXID

/-- What `WriteLTXFile` records after the inner client wrote the file. -/
def recordWrite (c : ManifestClient) (info : FileInfo) : ManifestClient :=
  { c with files := applyManifestDelta c.files [info] [], written := c.written ++ [info] }

/-- What `DeleteLTXFiles` records after the inner client deleted the files. -/
def recordDelete (c : ManifestClient) (files : List FileInfo) : ManifestClient :=
  { c with files := applyManifestDelta c.files [] files, deleted := c.deleted ++ files }

theorem hasKey_recordWrite {c : ManifestClient} {info : FileInfo} {k : FileKey} :
    HasKey (c.recordWrite info).files k ↔ HasKey c.files k ∨ info.key = k := by
  simp [recordWrite, hasKey_applyManifestDelta]

end ManifestClient

end Walrusd.Litestream
