import Mathlib.Data.List.Sort
import Walrusd.Basic

/-!
# LTX files and what a list of them covers

An LTX file is named by its level and its range of TXIDs. A list of files covers the TXIDs that
lie in the range of one of them; this depends on the names alone.

## Main definitions

* `FileInfo`, with `FileInfo.key` and `FileInfo.Valid`.
* `HasKey`, `Covers`.
* `manifestMaxTXID`, `manifestHasTXID`, `manifestContains`.
-/

namespace Walrusd.Litestream

open List

/-- Litestream's snapshot level, the highest one. -/
def snapshotLevel : ℕ := 9

/-- A level and a range of TXIDs: the name of an LTX file. -/
structure FileKey where
  level : ℕ
  minTXID : ℕ
  maxTXID : ℕ
  deriving DecidableEq, Repr

/-- The metadata of an LTX file. -/
structure FileInfo where
  level : ℕ
  minTXID : ℕ
  maxTXID : ℕ
  size : ℤ
  createdAt : ℤ
  deriving DecidableEq, Repr

namespace FileInfo

/-- The name of a file. -/
def key (f : FileInfo) : FileKey := ⟨f.level, f.minTXID, f.maxTXID⟩

@[simp] theorem key_level (f : FileInfo) : f.key.level = f.level := rfl

@[simp] theorem key_minTXID (f : FileInfo) : f.key.minTXID = f.minTXID := rfl

@[simp] theorem key_maxTXID (f : FileInfo) : f.key.maxTXID = f.maxTXID := rfl

end FileInfo

/-- The names that a manifest may list. -/
def FileKey.Valid (k : FileKey) : Prop :=
  k.level ≤ snapshotLevel ∧ 0 < k.minTXID ∧ k.minTXID ≤ k.maxTXID

instance (k : FileKey) : Decidable k.Valid := inferInstanceAs (Decidable (_ ∧ _ ∧ _))

/-- The names of a list of files. -/
def keys (files : List FileInfo) : List FileKey := files.map FileInfo.key

/-- A file of this name is in the list. -/
def HasKey (files : List FileInfo) (k : FileKey) : Prop := k ∈ keys files

instance (files : List FileInfo) (k : FileKey) : Decidable (HasKey files k) :=
  inferInstanceAs (Decidable (_ ∈ _))

variable {files : List FileInfo} {k : FileKey} {f : FileInfo} {xs ys : List FileInfo}

theorem hasKey_iff :
    HasKey files k ↔ ∃ f ∈ files, f.key = k := mem_map

theorem hasKey_of_mem (h : f ∈ files) :
    HasKey files f.key := mem_map_of_mem h

/-- The names of a part of a list that is chosen by the names. -/
theorem hasKey_part {q : FileKey → Prop} (h : ∀ f, f ∈ xs ↔ f ∈ files ∧ q f.key) (k : FileKey) :
    HasKey xs k ↔ HasKey files k ∧ q k := by
  simp only [hasKey_iff, h]
  constructor
  · rintro ⟨f, ⟨hf, hq⟩, rfl⟩
    exact ⟨⟨f, hf, rfl⟩, hq⟩
  · rintro ⟨⟨f, hf, rfl⟩, hq⟩
    exact ⟨f, ⟨hf, hq⟩, rfl⟩

theorem hasKey_level {level : ℕ} (h : ∀ f, f ∈ xs ↔ f ∈ files ∧ f.level = level) (k : FileKey) :
    HasKey xs k ↔ HasKey files k ∧ k.level = level :=
  hasKey_part (q := fun k => k.level = level) h k

@[simp] theorem hasKey_append : HasKey (xs ++ ys) k ↔ HasKey xs k ∨ HasKey ys k := by
  simp [HasKey, keys]

@[simp] theorem hasKey_cons : HasKey (f :: xs) k ↔ f.key = k ∨ HasKey xs k := by
  simp [HasKey, keys, eq_comm]

@[simp] theorem not_hasKey_nil : ¬ HasKey [] k := by
  simp [HasKey, keys]

theorem eq_nil_of_not_hasKey (h : ∀ k, ¬ HasKey files k) : files = [] :=
  eq_nil_iff_forall_not_mem.mpr fun f hf => h f.key (hasKey_of_mem hf)

theorem hasKey_perm (h : xs.Perm ys) :
    HasKey xs k ↔ HasKey ys k := (h.map FileInfo.key).mem_iff

/-- Every name of the list is one that a manifest may list. -/
def AllValid (files : List FileInfo) : Prop := ∀ k, HasKey files k → k.Valid

/-! ### Coverage -/

/-- The TXID lies in the range of a file of the list. -/
def Covers (files : List FileInfo) (t : ℕ) : Prop :=
  ∃ k, HasKey files k ∧ k.minTXID ≤ t ∧ t ≤ k.maxTXID

theorem Covers.mono (h : ∀ k, HasKey xs k → HasKey ys k) {t : ℕ} (ht : Covers xs t) :
    Covers ys t := by
  obtain ⟨k, hk, hrange⟩ := ht
  exact ⟨k, h k hk, hrange⟩

/-- The loop of `manifestHasTXID`: whether a file list covers a TXID. -/
def manifestHasTXID (files : List FileInfo) (txid : ℕ) : Bool :=
  files.any fun f => f.minTXID ≤ txid && txid ≤ f.maxTXID

theorem manifestHasTXID_iff {t : ℕ} : manifestHasTXID files t = true ↔ Covers files t := by
  simp only [manifestHasTXID, any_eq_true, Bool.and_eq_true, decide_eq_true_eq, Covers, hasKey_iff]
  constructor
  · rintro ⟨f, hf, hrange⟩
    exact ⟨f.key, ⟨f, hf, rfl⟩, hrange⟩
  · rintro ⟨_, ⟨f, hf, rfl⟩, hrange⟩
    exact ⟨f, hf, hrange⟩

instance (files : List FileInfo) (t : ℕ) : Decidable (Covers files t) :=
  decidable_of_iff _ manifestHasTXID_iff

/-- The loop of `manifestMaxTXID`, from a maximum found so far. -/
def maxTXIDFrom (max : ℕ) (files : List FileInfo) : ℕ :=
  files.foldl (fun max f => if f.maxTXID > max then f.maxTXID else max) max

/-- The highest TXID in a file list. -/
def manifestMaxTXID (files : List FileInfo) : ℕ := maxTXIDFrom 0 files

theorem maxTXIDFrom_le_iff {m n : ℕ} :
    maxTXIDFrom m files ≤ n ↔ m ≤ n ∧ ∀ k, HasKey files k → k.maxTXID ≤ n := by
  induction files generalizing m with
  | nil => simp [maxTXIDFrom]
  | cons f files ih =>
    have hstep : maxTXIDFrom m (f :: files) =
        maxTXIDFrom (if f.maxTXID > m then f.maxTXID else m) files := rfl
    rw [hstep, ih]
    simp only [hasKey_cons]
    constructor
    · rintro ⟨hmax, hall⟩
      split at hmax
      · refine ⟨by omega, ?_⟩
        rintro k (rfl | hk)
        · exact hmax
        · exact hall k hk
      · refine ⟨hmax, ?_⟩
        rintro k (rfl | hk)
        · simp only [FileInfo.key_maxTXID]
          omega
        · exact hall k hk
    · rintro ⟨hm, hall⟩
      refine ⟨?_, fun k hk => hall k (.inr hk)⟩
      have hf : f.maxTXID ≤ n := hall f.key (.inl rfl)
      split <;> assumption

theorem manifestMaxTXID_le_iff {n : ℕ} :
    manifestMaxTXID files ≤ n ↔ ∀ k, HasKey files k → k.maxTXID ≤ n := by
  rw [manifestMaxTXID, maxTXIDFrom_le_iff]
  exact ⟨fun h => h.2, fun h => ⟨Nat.zero_le n, h⟩⟩

theorem le_manifestMaxTXID (h : HasKey files k) :
    k.maxTXID ≤ manifestMaxTXID files := manifestMaxTXID_le_iff.mp le_rfl k h

theorem manifestMaxTXID_mono (h : ∀ k, HasKey xs k → HasKey ys k) :
    manifestMaxTXID xs ≤ manifestMaxTXID ys :=
  manifestMaxTXID_le_iff.mpr fun k hk => le_manifestMaxTXID (h k hk)

/-- The highest TXID of a list that has one is that of one of its files. -/
theorem exists_eq_manifestMaxTXID (h : 0 < manifestMaxTXID files) :
    ∃ k, HasKey files k ∧ k.maxTXID = manifestMaxTXID files := by
  by_contra hnone
  have hlt : manifestMaxTXID files ≤ manifestMaxTXID files - 1 := by
    refine manifestMaxTXID_le_iff.mpr fun k hk => ?_
    have hle := le_manifestMaxTXID hk
    have hne : k.maxTXID ≠ manifestMaxTXID files := fun heq => hnone ⟨k, hk, heq⟩
    omega
  omega

/-- The loop of `manifestContains`: whether a file of this name is in the list. -/
def manifestContains (files : List FileInfo) (want : FileInfo) : Bool :=
  files.any fun f =>
    f.level = want.level && f.minTXID = want.minTXID && f.maxTXID = want.maxTXID

theorem manifestContains_iff {want : FileInfo} :
    manifestContains files want = true ↔ HasKey files want.key := by
  simp only [manifestContains, any_eq_true, Bool.and_eq_true, decide_eq_true_eq, hasKey_iff,
    FileInfo.key, FileKey.mk.injEq, and_assoc]

/-! ### Order -/

/-- The order of `applyManifestDelta` and `DecodeManifest`: by level, then by first TXID. -/
def fileLE (f g : FileInfo) : Prop :=
  f.level < g.level ∨ f.level = g.level ∧ f.minTXID ≤ g.minTXID

instance : DecidableRel fileLE := fun _ _ => inferInstanceAs (Decidable (_ ∨ _))

/-- `sort.Slice` by level and first TXID. -/
def sortFiles (files : List FileInfo) : List FileInfo := files.insertionSort fileLE

@[simp] theorem hasKey_sortFiles : HasKey (sortFiles files) k ↔ HasKey files k :=
  hasKey_perm (perm_insertionSort fileLE files)

theorem mem_sortFiles :
    f ∈ sortFiles files ↔ f ∈ files := (perm_insertionSort fileLE files).mem_iff

instance : Std.Total fileLE where
  total f g := by
    simp only [fileLE]
    omega

instance : IsTrans FileInfo fileLE where
  trans f g h := by
    simp only [fileLE]
    omega

/-! ### Sorts -/

/-- A sort by an order, as `sort.Slice` is one: it returns some sorted permutation, in which
elements that the order does not tell apart stand in any order. -/
structure SortSlice {α : Type} (le : α → α → Prop) where
  sort : List α → List α
  perm : ∀ l, (sort l).Perm l
  sorted : ∀ l, (sort l).Pairwise le

namespace SortSlice

variable {α : Type} {le : α → α → Prop}

/-- The sort that keeps the order of elements that the order does not tell apart. -/
def stable (le : α → α → Prop) [DecidableRel le] [Std.Total le] [IsTrans α le] :
    SortSlice le where
  sort l := l.insertionSort le
  perm := perm_insertionSort le
  sorted := pairwise_insertionSort le

/-- Permutations of a list sort to the same list if the order tells its elements apart. -/
theorem sort_eq_of_perm (s : SortSlice le) {l l' : List α} (hperm : l.Perm l')
    (hanti : ∀ a ∈ l, ∀ b ∈ l, le a b → le b a → a = b) : s.sort l = s.sort l' := by
  have hsorted : (s.sort l).Perm (s.sort l') := (s.perm l).trans (hperm.trans (s.perm l').symm)
  refine hsorted.eq_of_pairwise (fun a b ha hb => ?_) (s.sorted l) (s.sorted l')
  exact hanti a ((s.perm l).mem_iff.mp ha) b (hperm.mem_iff.mpr ((s.perm l').mem_iff.mp hb))

end SortSlice

end Walrusd.Litestream
