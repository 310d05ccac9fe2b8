import Walrusd.Litestream.FileInfo
import Walrusd.Program.LinkedMap

/-!
# The LTX files of a replica

What a replica client of Litestream acts on: the stored LTX files, at most one of each name, with
their metadata and their bytes. A write replaces the file of its name, a listing shows the files of
a level from a TXID on, and a ranged read shows a window of the bytes (`litestream/memory.go`).

## Main definitions

* `Blob`, `Bucket`.
* `Bucket.find`, `Bucket.list`, `window`.
* `Bucket.write`, `Bucket.delete`, `Bucket.empty`.

## Main results

* `Bucket.find_write`, `Bucket.find_delete`.
-/

namespace Walrusd.Litestream

open List

/-- A stored LTX file. -/
structure Blob where
  info : FileInfo
  data : List UInt8
  deriving DecidableEq, Repr

/-- The LTX files of a replica, at most one of each name. -/
structure Bucket where
  blobs : List Blob
  nodup : (blobs.map fun b => b.info.key).Nodup

/-- The bytes from an offset on, cut to a size if that is positive. -/
def window (data : List UInt8) (offset : ℕ) (size : ℤ) : List UInt8 :=
  if 0 < size then (data.drop offset).take size.toNat else data.drop offset

namespace Bucket

variable (st : Bucket)

/-- The metadata of all files. -/
def infos : List FileInfo := st.blobs.map Blob.info

/-- The file of a name. -/
def find (k : FileKey) : Option Blob := st.blobs.find? fun b => b.info.key = k

/-- The files of a level that start at `seek` or later. -/
def list (level seek : ℕ) : List FileInfo :=
  st.infos.filter fun f => f.level = level && seek ≤ f.minTXID

/-- Store a file, in place of one of the same name. -/
def write (b : Blob) : Bucket where
  blobs := (st.blobs.filter fun b' => b'.info.key ≠ b.info.key) ++ [b]
  nodup := by
    rw [map_append, map_singleton, nodup_append]
    refine ⟨st.nodup.sublist (filter_sublist.map _), nodup_singleton _, ?_⟩
    intro k hk k' hk'
    obtain ⟨b', hb', rfl⟩ := mem_map.mp hk
    rw [mem_singleton.mp hk']
    exact of_decide_eq_true (mem_filter.mp hb').2

/-- Remove the files of these names; names that are not there are ignored. -/
def delete (files : List FileInfo) : Bucket where
  blobs := st.blobs.filter fun b => ¬ HasKey files b.info.key
  nodup := st.nodup.sublist (filter_sublist.map _)

/-- No files. -/
def empty : Bucket := ⟨[], nodup_nil⟩

variable {st}
variable {k : FileKey} {b : Blob} {files : List FileInfo}

theorem keys_infos : keys st.infos = st.blobs.map fun b => b.info.key := by
  simp [keys, infos, Function.comp_def]

theorem nodup_infos : (keys st.infos).Nodup := keys_infos ▸ st.nodup

theorem find_eq_some : st.find k = some b ↔ b ∈ st.blobs ∧ b.info.key = k :=
  Program.find?_eq_some_iff_of_nodup (f := fun b : Blob => b.info.key) st.nodup

theorem mem_blobs_write {b' : Blob} :
    b' ∈ (st.write b).blobs ↔ (b' ∈ st.blobs ∧ b'.info.key ≠ b.info.key) ∨ b' = b := by
  simp [write]

theorem mem_blobs_delete :
    b ∈ (st.delete files).blobs ↔ b ∈ st.blobs ∧ ¬ HasKey files b.info.key := by
  simp [delete]

theorem find_write : (st.write b).find k = if b.info.key = k then some b else st.find k := by
  split
  · next hk => exact find_eq_some.mpr ⟨mem_blobs_write.mpr (.inr rfl), hk⟩
  · next hk =>
    refine Option.ext fun b' => ?_
    rw [find_eq_some, find_eq_some, mem_blobs_write]
    constructor
    · rintro ⟨⟨hb', -⟩ | rfl, hkey⟩
      · exact ⟨hb', hkey⟩
      · exact absurd hkey hk
    · rintro ⟨hb', rfl⟩
      exact ⟨.inl ⟨hb', fun h => hk h.symm⟩, rfl⟩

theorem find_delete : (st.delete files).find k = if HasKey files k then none else st.find k := by
  refine Option.ext fun b => ?_
  rw [find_eq_some, mem_blobs_delete]
  split
  · next hk =>
    refine iff_of_false ?_ (by simp)
    rintro ⟨⟨-, hkept⟩, rfl⟩
    exact hkept hk
  · next hk =>
    rw [find_eq_some]
    constructor
    · rintro ⟨⟨hb, -⟩, hkey⟩
      exact ⟨hb, hkey⟩
    · rintro ⟨hb, rfl⟩
      exact ⟨⟨hb, hk⟩, rfl⟩

/-- A listing from a TXID on is the end of the whole listing. -/
theorem filter_list_zero (level seek : ℕ) :
    (st.list level 0).filter (fun f => seek ≤ f.minTXID) = st.list level seek := by
  simp [list, filter_filter, Bool.and_comm]

theorem list_eq_map (level seek : ℕ) :
    st.list level seek =
      (st.blobs.filter fun b => b.info.level = level && seek ≤ b.info.minTXID).map Blob.info :=
  filter_map

theorem list_write_of_ne {level seek : ℕ} (h : b.info.level ≠ level) :
    (st.write b).list level seek = st.list level seek := by
  rw [list_eq_map, list_eq_map, write, filter_append, filter_filter]
  have hnew : ([b].filter fun b' => b'.info.level = level && seek ≤ b'.info.minTXID) = [] := by
    simp [h]
  rw [hnew, append_nil]
  congr 1
  refine filter_congr fun b' _ => ?_
  simp only [Bool.and_eq_left_iff_imp, Bool.and_eq_true, decide_eq_true_eq]
  rintro ⟨hlevel, -⟩ hkey
  exact h ((congrArg FileKey.level hkey).symm.trans hlevel)

theorem list_delete_of_ne {level seek : ℕ} (h : ∀ f ∈ files, f.level ≠ level) :
    (st.delete files).list level seek = st.list level seek := by
  rw [list_eq_map, list_eq_map, delete, filter_filter]
  congr 1
  refine filter_congr fun b _ => ?_
  simp only [Bool.and_eq_left_iff_imp, Bool.and_eq_true, decide_eq_true_eq]
  rintro ⟨hlevel, -⟩ hkey
  obtain ⟨f, hf, hfkey⟩ := hasKey_iff.mp hkey
  exact h f hf ((congrArg FileKey.level hfkey).trans hlevel)

end Bucket

end Walrusd.Litestream
