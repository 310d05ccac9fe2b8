import Walrusd.Litestream.Manifest

/-!
# The canonical form of a manifest

`EncodeManifest` orders the entries by level, first and last TXID; `DecodeManifest` orders the files
by level and first TXID only, and drops repeated names. `sort.Slice` is unstable, so both are taken
with any sort. On lists of distinct valid names the encoder's order is total, so the document is a
canonical form of the list, and decoding gives the list back up to its order.

## Main definitions

* `ManifestJson.Carries` — the timestamps that JSON can carry.

## Main results

* `manifest_canonical`.
-/

namespace Walrusd.Litestream

open List

variable {B : Type} (json : ManifestJson B)
variable {files : List FileInfo}

/-- JSON can carry these timestamps: a document with no other ones can be marshaled. Years outside
`0..9999`, for example, cannot. -/
def ManifestJson.Carries (carried : ℤ → Prop) : Prop :=
  ∀ doc : ManifestDocument, (∀ f ∈ doc.files, carried f.createdAt) →
    ∃ data, json.marshal doc = .ok data

/-! ### Distinct names -/

theorem eq_of_key_eq (hnodup : (keys files).Nodup) {f g : FileInfo} (hf : f ∈ files)
    (hg : g ∈ files) (hkey : f.key = g.key) : f = g :=
  inj_on_of_nodup_map hnodup hf hg hkey

/-- The encoder's order tells files of distinct names apart. -/
theorem manifestFileLE_antisymm (hnodup : (keys files).Nodup) :
    ∀ a ∈ files.map FileInfo.toManifestFile, ∀ b ∈ files.map FileInfo.toManifestFile,
      manifestFileLE a b → manifestFileLE b a → a = b := by
  intro a ha b hb hab hba
  obtain ⟨f, hf, rfl⟩ := mem_map.mp ha
  obtain ⟨g, hg, rfl⟩ := mem_map.mp hb
  have hkey : f.key = g.key := by
    simp only [manifestFileLE, FileInfo.toManifestFile] at hab hba
    simp only [FileInfo.key, FileKey.mk.injEq]
    omega
  rw [eq_of_key_eq hnodup hf hg hkey]

/-- Permutations of a list of distinct names have the same document. -/
theorem encodeManifestWith_perm (sort : SortSlice manifestFileLE) {files' : List FileInfo}
    (hnodup : (keys files).Nodup) (hperm : files.Perm files') :
    encodeManifestWith json sort files = encodeManifestWith json sort files' := by
  unfold encodeManifestWith
  rw [sort.sort_eq_of_perm (hperm.map _) (manifestFileLE_antisymm hnodup)]

/-! ### Decoding -/

/-- Entries of distinct valid names that were not seen decode to their files. -/
theorem decodeFiles_map {seen : List FileKey} (hvalid : AllValid files)
    (hnodup : (keys files).Nodup) (hseen : ∀ k, HasKey files k → k ∉ seen) :
    decodeFiles seen (files.map FileInfo.toManifestFile) = .ok files := by
  induction files generalizing seen with
  | nil => rfl
  | cons f files ih =>
    obtain ⟨hnew, hnodup⟩ := nodup_cons.mp hnodup
    have hf : f.key.Valid := hvalid _ (hasKey_cons.mpr (.inl rfl))
    have hrest : decodeFiles (f.key :: seen) (files.map FileInfo.toManifestFile) = .ok files := by
      refine ih (fun k hk => hvalid k (hasKey_cons.mpr (.inr hk))) hnodup fun k hk hin => ?_
      rcases mem_cons.mp hin with rfl | hin
      · exact hnew hk
      · exact hseen k (hasKey_cons.mpr (.inr hk)) hin
    obtain ⟨hlevel, hrange⟩ := FileInfo.accepted_of_valid hf
    rw [map_cons, decodeFiles, FileInfo.toFileInfo_toManifestFile, if_neg hlevel,
      if_neg hrange, if_neg (hseen _ (hasKey_cons.mpr (.inl rfl))), hrest]

/-- **The manifest codec.** A list of distinct valid names, with timestamps that JSON can carry, is
encoded to a document that depends on the set of its files only; the document decodes to a
permutation of the list in the order of the decoder, which has the same document. And whatever
bytes decode, they decode to distinct valid names in that order. -/
theorem manifest_canonical (encodeSort : SortSlice manifestFileLE) (decodeSort : SortSlice fileLE)
    {carried : ℤ → Prop} (hcarried : json.Carries carried) :
    (∀ files, AllValid files → (keys files).Nodup → (∀ f ∈ files, carried f.createdAt) →
      ∃ data decoded, encodeManifestWith json encodeSort files = .ok data ∧
        decodeManifestWith json decodeSort data = .ok decoded ∧
        decoded.Perm files ∧ decoded.Pairwise fileLE ∧
        (∀ files', files'.Perm files → encodeManifestWith json encodeSort files' = .ok data) ∧
        encodeManifestWith json encodeSort decoded = .ok data) ∧
      ∀ data files, decodeManifestWith json decodeSort data = .ok files →
        (keys files).Nodup ∧ AllValid files ∧ files.Pairwise fileLE := by
  constructor
  · intro files hvalid hnodup htimes
    have hsorted := encodeSort.perm (files.map FileInfo.toManifestFile)
    obtain ⟨data, hdata⟩ : ∃ data, encodeManifestWith json encodeSort files = .ok data := by
      refine hcarried _ fun e he => ?_
      obtain ⟨f, hf, rfl⟩ := mem_map.mp (hsorted.mem_iff.mp he)
      exact htimes f hf
    have hencode : ∀ files', files'.Perm files →
        encodeManifestWith json encodeSort files' = .ok data := fun files' hperm =>
      (encodeManifestWith_perm json encodeSort hnodup hperm.symm).symm.trans hdata
    -- the sorted entries are those of a permutation of the files, which is then sorted again
    obtain ⟨fs, hfs, hperm⟩ := exists_map_toManifestFile hsorted
    have hdecode : decodeFiles [] (fs.map FileInfo.toManifestFile) = .ok fs :=
      decodeFiles_map (fun k hk => hvalid k ((hasKey_perm hperm).mp hk))
        ((hperm.map FileInfo.key).nodup_iff.mpr hnodup) (fun k _ => not_mem_nil)
    have hdecoded : (decodeSort.sort fs).Perm files := (decodeSort.perm fs).trans hperm
    refine ⟨data, decodeSort.sort fs, hdata, ?_, hdecoded, decodeSort.sorted fs, hencode,
      hencode _ hdecoded⟩
    simp only [decodeManifestWith, json.unmarshal_marshal hdata, ne_eq, not_true_eq_false, if_false,
      hfs, hdecode]
  · intro data files h
    obtain ⟨hvalid, hnodup, hsorted⟩ := decodeManifestWith_valid json h
    exact ⟨hnodup, hvalid, hsorted⟩

theorem manifest_canonical_plain :
    ∃ data decoded, encodeManifestWith .plain (.stable manifestFileLE)
        [⟨1, 1, 2, 10, 5⟩, ⟨0, 3, 4, 7, 9⟩, ⟨0, 3, 3, 0, 8⟩] = .ok data ∧
      decodeManifestWith .plain (.stable fileLE) data = .ok decoded ∧
      decoded.Perm [⟨1, 1, 2, 10, 5⟩, ⟨0, 3, 4, 7, 9⟩, ⟨0, 3, 3, 0, 8⟩] := by
  have hcarried : ManifestJson.plain.Carries fun _ => True := fun doc _ => ⟨some doc, rfl⟩
  obtain ⟨data, decoded, hencode, hdecode, hperm, -⟩ :=
    (manifest_canonical .plain (.stable manifestFileLE) (.stable fileLE) hcarried).1
      [⟨1, 1, 2, 10, 5⟩, ⟨0, 3, 4, 7, 9⟩, ⟨0, 3, 3, 0, 8⟩]
      (by unfold AllValid HasKey; decide) (by decide) (fun _ _ => trivial)
  exact ⟨data, decoded, hencode, hdecode, hperm⟩

end Walrusd.Litestream
