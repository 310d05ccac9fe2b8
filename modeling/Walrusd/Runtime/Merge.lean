import Walrusd.Runtime.Storage
import Walrusd.Litestream.Database

/-!
# What a compaction pass does to file lists

A pass merges a manifest snapshot level by level (`CompactManifest`): a level with more files than
the threshold is merged into the next one, and the merged file then counts there. `Merging` is the
relation between the snapshot, the file list of the pass's client and the merged files; the
sources that `supersede` computes from them are removed from the manifest and deleted later.

## Main definitions

* `Merging` — the passes on a snapshot.
* `mergedAt` — the merges that a snapshot calls for, which do not depend on the answers of the
  compactor.

## Main results

* `Merging.mergedFrom` — a merged file spans its sources.
* `hasKey_supersede` — what a pass supersedes.
* `Merging.follows` — a pass merges what the snapshot calls for.
-/

namespace Walrusd.Runtime

open Program Litestream List

/-- The number of files that the list has at a level. -/
def levelCount (files : List FileInfo) (level : ℕ) : ℤ :=
  ((files.filter fun f => f.level = level).length : ℤ)

/-- `Merging T S level client merged`: a pass on the snapshot `S` with threshold `T` that has
treated the destination levels up to `level` has merged `merged`, and its client then lists
`client`. -/
inductive Merging (T : ℤ) (S : List FileInfo) : ℕ → List FileInfo → List FileInfo → Prop
  | start : Merging T S 0 S []
  | skip {level client merged} (h : Merging T S level client merged)
      (hskip : levelCount client level ≤ T ∨ mergeSources (level + 1) client = []) :
      Merging T S (level + 1) client merged
  | merge {level client merged info} (h : Merging T S level client merged)
      (hcount : T < levelCount client level) (hne : mergeSources (level + 1) client ≠ [])
      (hinfo : info = mergedFile (level + 1) (mergeSources (level + 1) client) info.size
        info.createdAt) :
      Merging T S (level + 1) (applyManifestDelta client [info] []) (merged ++ [info])

variable {files : List FileInfo} {level : ℕ} {k : FileKey} {T : ℤ}
  {S client merged : List FileInfo} {info : FileInfo}

theorem levelCount_eq_countLTXFiles (c : ManifestClient) (level : ℕ) :
    (countLTXFiles c level : ℤ) = levelCount c.files level := by
  simp [countLTXFiles, levelCount, ManifestClient.ltxFiles]

theorem hasKey_filter_level :
    HasKey (files.filter fun f => f.level = level) k ↔ HasKey files k ∧ k.level = level :=
  hasKey_level (fun f => by simp) k

theorem manifestMaxTXID_lt_iff {n : ℕ} :
    manifestMaxTXID files < n ↔ 0 < n ∧ ∀ k, HasKey files k → k.maxTXID < n := by
  have hiff : manifestMaxTXID files ≤ n - 1 ↔ _ := manifestMaxTXID_le_iff
  constructor
  · intro hlt
    have hle := hiff.mp (by omega)
    exact ⟨by omega, fun k hk => by have := hle k hk; omega⟩
  rintro ⟨hpos, hall⟩
  have hle := hiff.mpr fun k hk => by have := hall k hk; omega
  omega

/-- The sources of a merge are the files of the level below that start after the level. -/
theorem hasKey_mergeSources :
    HasKey (mergeSources level files) k ↔ HasKey files k ∧ k.level + 1 = level ∧
      0 < k.minTXID ∧ ∀ k', HasKey files k' → k'.level = level → k'.maxTXID < k.minTXID := by
  have hmax : manifestMaxTXID (files.filter fun g => g.level = level) < k.minTXID ↔
      0 < k.minTXID ∧ ∀ k', HasKey files k' → k'.level = level → k'.maxTXID < k.minTXID := by
    rw [manifestMaxTXID_lt_iff]
    simp only [hasKey_filter_level, and_imp]
  rw [← hmax]
  exact hasKey_part (q := fun k => k.level + 1 = level ∧
    manifestMaxTXID (files.filter fun g => g.level = level) < k.minTXID)
    (fun f => by simp [mergeSources]) k

theorem mergedFile_valid {sources : List FileInfo} {size createdAt : ℤ} (hvalid : AllValid sources)
    (hne : sources ≠ []) (hlevel : level ≤ snapshotLevel) :
    (mergedFile level sources size createdAt).key.Valid := by
  obtain ⟨k, hk, hmin⟩ := exists_eq_manifestMinTXID hne
  have hk' := hvalid k hk
  have hmax := le_manifestMaxTXID hk
  refine ⟨hlevel, ?_, ?_⟩
  · change 0 < manifestMinTXID sources
    rw [← hmin]
    exact hk'.2.1
  change manifestMinTXID sources ≤ manifestMaxTXID sources
  rw [← hmin]
  exact hk'.2.2.trans hmax

theorem Merging.valid (h : Merging T S level client merged) (hS : AllValid S)
    (hlevel : level ≤ snapshotLevel) : AllValid client ∧ AllValid merged := by
  induction h with
  | start => exact ⟨hS, fun k hk => absurd hk not_hasKey_nil⟩
  | skip h hskip ih => exact ih (Nat.le_of_succ_le hlevel)
  | @merge level client merged info h hcount hne hinfo ih =>
    obtain ⟨hclient, hmerged⟩ := ih (Nat.le_of_succ_le hlevel)
    have hinfo' : info.key.Valid := by
      rw [hinfo]
      exact mergedFile_valid (fun k hk => hclient k (hasKey_mergeSources.mp hk).1) hne hlevel
    have hone : AllValid [info] := by
      intro k hk
      obtain rfl : info.key = k := by simpa using hk
      exact hinfo'
    refine ⟨applyManifestDelta_valid hclient hone, fun k hk => ?_⟩
    rcases hasKey_append.mp hk with hk | hk
    · exact hmerged k hk
    · exact hone k hk

/-! ### The merged files -/

/-- The client of a pass lists the snapshot and the merged files, which are of treated levels. -/
theorem Merging.keys (h : Merging T S level client merged) :
    (∀ k, HasKey client k ↔ HasKey S k ∨ HasKey merged k) ∧
      ∀ k, HasKey merged k → 0 < k.level ∧ k.level ≤ level := by
  induction h with
  | start => exact ⟨fun k => by simp, fun k hk => absurd hk not_hasKey_nil⟩
  | skip h hskip ih =>
    exact ⟨ih.1, fun k hk => ⟨(ih.2 k hk).1, (ih.2 k hk).2.trans (Nat.le_succ _)⟩⟩
  | @merge level client merged info h hcount hne hinfo ih =>
    refine ⟨fun k => ?_, fun k hk => ?_⟩
    · rw [hasKey_applyManifestDelta, ih.1 k]
      simp [or_assoc]
    rcases hasKey_append.mp hk with hk | hk
    · exact ⟨(ih.2 k hk).1, (ih.2 k hk).2.trans (Nat.le_succ _)⟩
    obtain rfl : info.key = k := by simpa using hk
    have hlevel : info.key.level = level + 1 := by
      rw [hinfo]
      rfl
    omega

/-- A merged file spans its sources, which the client listed when its level was treated. -/
structure MergedFrom (S client merged : List FileInfo) (info : FileInfo) : Prop where
  level : 0 < info.level
  keys : ∀ k, HasKey client k ↔ HasKey S k ∨ HasKey merged k
  below : ∀ k, HasKey merged k → k.level < info.level
  sources : mergeSources info.level client ≠ []
  spans : info = mergedFile info.level (mergeSources info.level client) info.size info.createdAt

theorem Merging.mergedFrom (h : Merging T S level client merged) (hinfo : info ∈ merged) :
    info.level ≤ level ∧
      ∃ client' merged', MergedFrom S client' merged' info ∧
        ∀ k, HasKey merged' k → HasKey merged k := by
  induction h with
  | start => cases hinfo
  | skip h hskip ih => exact ⟨(ih hinfo).1.trans (Nat.le_succ _), (ih hinfo).2⟩
  | @merge level client merged info' h hcount hne hspans ih =>
    rcases mem_append.mp hinfo with hinfo | hinfo
    · obtain ⟨hle, client', merged', hfrom, hsub⟩ := ih hinfo
      exact ⟨hle.trans (Nat.le_succ _), client', merged', hfrom, fun k hk =>
        hasKey_append.mpr (.inl (hsub k hk))⟩
    obtain rfl := mem_singleton.mp hinfo
    have hlevel : info.level = level + 1 := congrArg FileInfo.level hspans
    refine ⟨hlevel.le, client, merged, ⟨by omega, h.keys.1, fun k hk => ?_, ?_, ?_⟩, fun k hk =>
      hasKey_append.mpr (.inl hk)⟩
    · have := (h.keys.2 k hk).2
      omega
    · rwa [hlevel]
    · rw [hlevel]
      exact hspans

theorem MergedFrom.le (h : MergedFrom S client merged info)
    (hk : HasKey (mergeSources info.level client) k) :
    info.minTXID ≤ k.minTXID ∧ k.maxTXID ≤ info.maxTXID := by
  rw [h.spans]
  exact ⟨manifestMinTXID_le hk, le_manifestMaxTXID hk⟩

/-! ### The superseded files -/

theorem hasKey_goneBy :
    HasKey (goneBy info files) k ↔ HasKey files k ∧ k.level + 1 = info.level ∧
      k.maxTXID ≤ info.maxTXID :=
  hasKey_part (q := fun k => k.level + 1 = info.level ∧ k.maxTXID ≤ info.maxTXID)
    (fun f => by simp [goneBy]) k

/-- A merged file of the next level reaches as far. -/
def Superseded (merged : List FileInfo) (k : FileKey) : Prop :=
  ∃ info ∈ merged, k.level + 1 = info.level ∧ k.maxTXID ≤ info.maxTXID

theorem superseded_cons : Superseded (info :: merged) k ↔
    (k.level + 1 = info.level ∧ k.maxTXID ≤ info.maxTXID) ∨ Superseded merged k := by
  simp [Superseded]

variable {updated sources : List FileInfo}

/-- A superseded file is of the snapshot or merged, and a merged file of the next level reaches as
far. -/
theorem hasKey_supersede (hk : HasKey (supersede updated sources merged).2 k) :
    HasKey sources k ∨ Superseded merged k ∧ (HasKey updated k ∨ HasKey merged k) := by
  induction merged generalizing updated sources with
  | nil => exact .inl hk
  | cons info merged ih =>
    rcases ih hk with hsources | ⟨hgone, hfrom⟩
    · rcases hasKey_append.mp hsources with hsources | hgone
      · exact .inl hsources
      · obtain ⟨hupdated, hgone⟩ := hasKey_goneBy.mp hgone
        exact .inr ⟨superseded_cons.mpr (.inl hgone), .inl hupdated⟩
    · refine .inr ⟨superseded_cons.mpr (.inr hgone), ?_⟩
      rcases hfrom with hupdated | hmerged
      · rcases hasKey_applyManifestDelta.mp hupdated with ⟨hupdated, -⟩ | hone
        · exact .inl hupdated
        · exact .inr (hasKey_cons.mpr (.inl (by simpa using hone)))
      · exact .inr (hasKey_cons.mpr (.inr hmerged))

/-- What leaves the active set is a source, and no source is forgotten. -/
theorem hasKey_supersede_iff :
    HasKey (supersede updated sources merged).1 k ∨ HasKey (supersede updated sources merged).2 k ↔
      HasKey updated k ∨ HasKey sources k ∨ HasKey merged k := by
  induction merged generalizing updated sources with
  | nil => simp [supersede]
  | cons info merged ih =>
    have hgone : HasKey (goneBy info updated) k → HasKey updated k := fun h =>
      (hasKey_goneBy.mp h).1
    refine ih.trans ?_
    rw [hasKey_append, hasKey_applyManifestDelta, hasKey_cons, hasKey_cons]
    tauto

theorem hasKey_supersede_of_sources (hk : HasKey sources k) :
    HasKey (supersede updated sources merged).2 k := by
  induction merged generalizing updated sources with
  | nil => exact hk
  | cons info merged ih => exact ih (hasKey_append.mpr (.inl hk))

/-! ### The merges that a snapshot calls for -/

/-- A file without its size and its time, which play no part in what a pass merges. -/
def bare (f : FileInfo) : FileInfo := { f with size := 0, createdAt := 0 }

/-- The file that a pass merges from a level of its client's list, if it merges the level. -/
def mergeOf (T : ℤ) (client : List FileInfo) (level : ℕ) : Option FileInfo :=
  if level < compactionTopLevel ∧ T < levelCount client level ∧
      mergeSources (level + 1) client ≠ [] then
    some (mergedFile (level + 1) (mergeSources (level + 1) client) 0 0)
  else none

/-- The list of a pass's client when the levels below `level` were treated as sources. -/
def listing (T : ℤ) (files : List FileInfo) : ℕ → List FileInfo
  | 0 => files.map bare
  | level + 1 => (mergeOf T (listing T files level) level).elim (listing T files level)
      fun info => applyManifestDelta (listing T files level) [info] []

/-- The file that a pass on the snapshot merges from a level, if it merges the level. -/
def mergedAt (T : ℤ) (files : List FileInfo) (level : ℕ) : Option FileInfo :=
  mergeOf T (listing T files level) level

@[simp] theorem keys_map_bare (files : List FileInfo) : keys (files.map bare) = keys files := by
  rw [Litestream.keys, map_map]
  rfl

theorem levelCount_map_bare (files : List FileInfo) (level : ℕ) :
    levelCount (files.map bare) level = levelCount files level := by
  rw [levelCount, filter_map, length_map]
  rfl

theorem manifestMaxTXID_map_bare (files : List FileInfo) :
    manifestMaxTXID (files.map bare) = manifestMaxTXID files := by
  rw [manifestMaxTXID, maxTXIDFrom, foldl_map]
  rfl

theorem mergeSources_map_bare (level : ℕ) (files : List FileInfo) :
    mergeSources level (files.map bare) = (mergeSources level files).map bare := by
  rw [mergeSources, filter_map, filter_map, manifestMaxTXID_map_bare]
  rfl

theorem mergedFile_map_bare (level : ℕ) (sources : List FileInfo) (size createdAt : ℤ) :
    mergedFile level (sources.map bare) 0 0 = bare (mergedFile level sources size createdAt) := by
  rw [mergedFile, manifestMaxTXID_map_bare, manifestMinTXID, map_map]
  rfl

theorem applyManifestDelta_map_bare (files : List FileInfo) (info : FileInfo) :
    (applyManifestDelta files [info] []).map bare =
      applyManifestDelta (files.map bare) [bare info] [] := by
  have hcontains : manifestContains (files.map bare) (bare info) = manifestContains files info := by
    rw [manifestContains, any_map]
    rfl
  have happend : (appendMissing files [info]).map bare =
      appendMissing (files.map bare) [bare info] := by
    simp only [appendMissing, foldl_cons, foldl_nil, hcontains]
    split <;> simp
  have hall : ∀ l : List FileInfo, (l.filter fun f => !manifestContains [] f) = l := fun l =>
    filter_eq_self.mpr fun _ _ => rfl
  rw [applyManifestDelta, applyManifestDelta, hall, hall, ← happend]
  exact map_insertionSort fileLE fileLE bare _ fun _ _ _ _ => Iff.rfl

theorem mergeOf_map_bare (T : ℤ) (client : List FileInfo) (level : ℕ) (size createdAt : ℤ) :
    mergeOf T (client.map bare) level = if level < compactionTopLevel ∧
        T < levelCount client level ∧ mergeSources (level + 1) client ≠ [] then
      some (bare (mergedFile (level + 1) (mergeSources (level + 1) client) size createdAt))
    else none := by
  rw [mergeOf, levelCount_map_bare, mergeSources_map_bare, mergedFile_map_bare _ _ size createdAt]
  simp only [ne_eq, map_eq_nil_iff]

/-- **A pass merges what the snapshot calls for.** -/
theorem Merging.follows (h : Merging T S level client merged)
    (hlevel : level ≤ compactionTopLevel) :
    client.map bare = listing T S level ∧
      merged.map bare = (List.range level).filterMap (mergedAt T S) := by
  induction h with
  | start => exact ⟨rfl, rfl⟩
  | @skip level client merged h hskip ih =>
    obtain ⟨hclient, hmerged⟩ := ih (Nat.le_of_succ_le hlevel)
    have hnone : mergeOf T (listing T S level) level = none := by
      rw [← hclient, mergeOf_map_bare T client level 0 0, if_neg]
      rintro ⟨-, hcount, hne⟩
      exact hskip.elim (fun hle => absurd hcount (not_lt.mpr hle)) hne
    refine ⟨?_, ?_⟩
    · rw [listing, hnone]
      exact hclient
    · rw [range_succ, filterMap_append, ← hmerged]
      simp [mergedAt, hnone]
  | @merge level client merged info h hcount hne hinfo ih =>
    obtain ⟨hclient, hmerged⟩ := ih (Nat.le_of_succ_le hlevel)
    have hsome : mergeOf T (listing T S level) level = some (bare info) := by
      rw [← hclient, mergeOf_map_bare T client level info.size info.createdAt, if_pos, ← hinfo]
      exact ⟨hlevel, hcount, hne⟩
    refine ⟨?_, ?_⟩
    · rw [listing, hsome, applyManifestDelta_map_bare, hclient]
      rfl
    · rw [range_succ, filterMap_append, ← hmerged]
      simp [mergedAt, hsome]

theorem level_of_mem_mergedAt (h : info ∈ mergedAt T S level) :
    level < compactionTopLevel ∧ info.level = level + 1 := by
  rw [mergedAt, mergeOf, Option.mem_def, Option.ite_none_right_eq_some] at h
  obtain ⟨⟨htop, -⟩, ⟨⟩⟩ := h
  exact ⟨htop, rfl⟩

theorem Merging.hasKey_merged (h : Merging T S compactionTopLevel client merged) :
    HasKey merged k ↔ ∃ level, ∃ info ∈ mergedAt T S level, info.key = k := by
  have hkeys : Litestream.keys merged = Litestream.keys (merged.map bare) := by simp
  rw [HasKey, hkeys, (h.follows le_rfl).2, ← HasKey, hasKey_iff]
  simp only [mem_filterMap, mem_range]
  constructor
  · rintro ⟨info, ⟨level, -, hinfo⟩, rfl⟩
    exact ⟨level, info, hinfo, rfl⟩
  · rintro ⟨level, info, hinfo, rfl⟩
    exact ⟨info, ⟨level, (level_of_mem_mergedAt hinfo).1, hinfo⟩, rfl⟩

end Walrusd.Runtime
