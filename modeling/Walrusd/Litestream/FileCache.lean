import Walrusd.Litestream.FileInfo
import Walrusd.Program.LinkedMap

/-!
# The cache of LTX file contents

`fileCache` of `litestream/range_cache.go`: a least-recently-used cache that is bounded by the
number of its bytes. The list is in the order of use, the most recent entry first; the map of the
source is the search in this list.

A value of the type has one entry for each key, counts its bytes correctly, and does not exceed its
limit.

## Main definitions

* `FileCache`, `FileCache.get`, `FileCache.put`, `FileCache.drop`, `FileCache.dropDB`.

## Main results

* `FileCache.get_eq_some`, `FileCache.mem_get`, `FileCache.mem_put`, `FileCache.mem_drop`,
  `FileCache.mem_dropDB` — what is cached after each operation.
-/

namespace Walrusd.Litestream

open List

/-- The key of a cached file: its database and its name. -/
structure CacheKey where
  dbKey : String
  file : FileKey
  deriving DecidableEq, Repr

/-- A cached file. -/
structure FileEntry where
  key : CacheKey
  data : List UInt8
  deriving DecidableEq, Repr

/-- The number of bytes in a list of entries. -/
def totalBytes (order : List FileEntry) : ℤ := (order.map fun e => (e.data.length : ℤ)).sum

/-- A cache of file contents; the most recently used entry comes first. -/
structure FileCache where
  limit : ℤ
  order : List FileEntry
  bytes : ℤ
  nodup : (order.map FileEntry.key).Nodup
  bytes_eq : bytes = totalBytes order
  bounded : order = [] ∨ bytes ≤ limit

theorem totalBytes_perm {order order' : List FileEntry} (h : order.Perm order') :
    totalBytes order = totalBytes order' := (h.map _).sum_eq

theorem totalBytes_cons (e : FileEntry) (order : List FileEntry) :
    totalBytes (e :: order) = e.data.length + totalBytes order := by
  simp [totalBytes]

theorem totalBytes_append (order order' : List FileEntry) :
    totalBytes (order ++ order') = totalBytes order + totalBytes order' := by
  simp [totalBytes]

theorem totalBytes_nonneg (order : List FileEntry) : 0 ≤ totalBytes order :=
  sum_nonneg fun n hn => by
    obtain ⟨e, -, rfl⟩ := mem_map.mp hn
    exact Int.natCast_nonneg _

theorem perm_cons_eraseP {order : List FileEntry} {p : FileEntry → Bool} {e : FileEntry}
    (h : order.find? p = some e) : order.Perm (e :: order.eraseP p) := by
  induction order with
  | nil => cases h
  | cons a order ih =>
    by_cases ha : p a = true
    · rw [find?_cons_of_pos ha] at h
      rw [eraseP_cons_of_pos ha, Option.some.inj h]
    rw [find?_cons_of_neg ha] at h
    rw [eraseP_cons_of_neg ha]
    exact ((ih h).cons a).trans (.swap e a _)

namespace FileCache

/-- `newFileCache`: an empty cache. -/
def new (limit : ℤ) : FileCache := ⟨limit, [], 0, nodup_nil, rfl, Or.inl rfl⟩

variable (c : FileCache)
variable {k : CacheKey} {e : FileEntry}

/-- The entry of a key. -/
def find (k : CacheKey) : Option FileEntry := c.order.find? fun e => e.key = k

/-- `get`: the cached bytes of a key, whose entry becomes the most recently used one. -/
def get (k : CacheKey) : Option (List UInt8) × FileCache :=
  match h : c.find k with
  | none => (none, c)
  | some e =>
    (some e.data, { c with
      order := e :: c.order.eraseP fun e => e.key = k
      nodup := ((perm_cons_eraseP h).map _).nodup_iff.mp c.nodup
      bytes_eq := c.bytes_eq.trans (totalBytes_perm (perm_cons_eraseP h))
      bounded := c.bounded.imp_left fun hnil => by simp [find, hnil] at h })

/-- `drop`: remove the entry of a key. -/
def drop (k : CacheKey) : FileCache :=
  match h : c.find k with
  | none => c
  | some e =>
    { c with
      order := c.order.eraseP fun e => e.key = k
      bytes := c.bytes - e.data.length
      nodup := c.nodup.sublist (eraseP_sublist.map _)
      bytes_eq := by
        rw [c.bytes_eq, totalBytes_perm (perm_cons_eraseP h), totalBytes_cons]
        exact add_sub_cancel_left _ _
      bounded := c.bounded.imp (fun hnil => by simp [hnil]) fun hle => by omega }

/-- The loop of `put`: remove the oldest entries, which come first here, until the limit is
met. -/
def shrink (limit : ℤ) : List FileEntry → ℤ → List FileEntry × ℤ
  | [], bytes => ([], bytes)
  | e :: newer, bytes =>
    if bytes > limit then shrink limit newer (bytes - e.data.length) else (e :: newer, bytes)

theorem shrink_suffix (limit : ℤ) (order : List FileEntry) (bytes : ℤ) :
    (shrink limit order bytes).1 <:+ order := by
  induction order generalizing bytes with
  | nil => exact suffix_refl _
  | cons e newer ih =>
    unfold shrink
    split
    · exact (ih _).trans (suffix_cons _ _)
    · exact suffix_refl _

theorem reverse_shrink_sublist (limit : ℤ) (order : List FileEntry) (bytes : ℤ) :
    (shrink limit order.reverse bytes).1.reverse.Sublist order := by
  have hsub := (shrink_suffix limit order.reverse bytes).sublist.reverse
  rwa [reverse_reverse] at hsub

theorem bytes_add (k : CacheKey) (data : List UInt8) :
    c.bytes + data.length = totalBytes (⟨k, data⟩ :: c.order).reverse := by
  rw [totalBytes_perm (reverse_perm _), totalBytes_cons, c.bytes_eq, add_comm]

theorem nodup_cons (data : List UInt8) (hnew : c.find k = none) :
    ((⟨k, data⟩ :: c.order : List FileEntry).map FileEntry.key).Nodup := by
  refine List.nodup_cons.mpr ⟨fun hk => ?_, c.nodup⟩
  obtain ⟨e, he, hkey⟩ := mem_map.mp hk
  exact absurd (decide_eq_true hkey) (find?_eq_none.mp hnew e he)

theorem shrink_bytes (limit : ℤ) {order : List FileEntry} {bytes : ℤ}
    (h : bytes = totalBytes order) :
    (shrink limit order bytes).2 = totalBytes (shrink limit order bytes).1 ∧
      ((shrink limit order bytes).1 = [] ∨ (shrink limit order bytes).2 ≤ limit) := by
  induction order generalizing bytes with
  | nil => exact ⟨h, .inl rfl⟩
  | cons e newer ih =>
    unfold shrink
    split
    · refine ih ?_
      rw [h, totalBytes_cons]
      exact add_sub_cancel_left _ _
    · next hle => exact ⟨h, .inr (not_lt.mp hle)⟩

/-- Make an entry of a new key the most recently used one, and make room for it. -/
def push (k : CacheKey) (data : List UInt8) (hnew : c.find k = none) : FileCache :=
  let rest := shrink c.limit (⟨k, data⟩ :: c.order).reverse (c.bytes + data.length)
  have hbytes := shrink_bytes c.limit (c.bytes_add k data)
  { c with
    order := rest.1.reverse
    bytes := rest.2
    nodup := (c.nodup_cons data hnew).sublist
      ((reverse_shrink_sublist c.limit (⟨k, data⟩ :: c.order) _).map _)
    bytes_eq := hbytes.1.trans (totalBytes_perm (reverse_perm _).symm)
    bounded := hbytes.2.imp_left reverse_eq_nil_iff.mpr }

/-- `put`: cache the bytes of a key; bytes that are cached already stay as they are. -/
def put (k : CacheKey) (data : List UInt8) : FileCache :=
  if c.limit ≤ 0 ∨ c.limit < data.length then c
  else
    match h : c.find k with
    | some _ => (c.get k).2
    | none => c.push k data h

/-- `dropDB`: remove every entry of a database. -/
def dropDB (dbKey : String) : FileCache :=
  { c with
    order := c.order.filter fun e => !(e.key.dbKey = dbKey)
    bytes := c.bytes - totalBytes (c.order.filter fun e => e.key.dbKey = dbKey)
    nodup := c.nodup.sublist (filter_sublist.map _)
    bytes_eq := by
      rw [c.bytes_eq, ← totalBytes_perm (filter_append_perm (fun e => e.key.dbKey = dbKey) c.order),
        totalBytes_append]
      exact add_sub_cancel_left _ _
    bounded := c.bounded.imp (fun hnil => by simp [hnil]) fun hle => by
      have := totalBytes_nonneg (c.order.filter fun e => e.key.dbKey = dbKey)
      omega }

/-! ### What is cached -/

variable {c}

theorem find_eq_some : c.find k = some e ↔ e ∈ c.order ∧ e.key = k :=
  Program.find?_eq_some_iff_of_nodup c.nodup

theorem get_eq_some {data : List UInt8} : (c.get k).1 = some data ↔ ⟨k, data⟩ ∈ c.order := by
  unfold get
  split
  · next h =>
    refine iff_of_false nofun fun hmem => ?_
    rw [find_eq_some.mpr ⟨hmem, rfl⟩] at h
    cases h
  · next e h =>
    obtain ⟨he, rfl⟩ := find_eq_some.mp h
    constructor
    · intro hdata
      rwa [← Option.some.inj hdata]
    intro hmem
    have heq := (find_eq_some.mpr ⟨hmem, rfl⟩).symm.trans h
    exact congrArg (fun e => some e.data) (Option.some.inj heq).symm

theorem mem_get : e ∈ (c.get k).2.order ↔ e ∈ c.order := by
  unfold get
  split
  · rfl
  · next h => exact (perm_cons_eraseP h).symm.mem_iff

theorem mem_drop : e ∈ (c.drop k).order ↔ e ∈ c.order ∧ e.key ≠ k := by
  unfold drop
  split
  · next h =>
    refine (and_iff_left_of_imp fun he hkey => ?_).symm
    rw [find_eq_some.mpr ⟨he, hkey⟩] at h
    cases h
  · next e' h =>
    have hperm := perm_cons_eraseP h
    have hnodup := (hperm.map FileEntry.key).nodup_iff.mp c.nodup
    obtain ⟨he', rfl⟩ := find_eq_some.mp h
    have hnew := (List.nodup_cons.mp hnodup).1
    constructor
    · intro he
      refine ⟨hperm.mem_iff.mpr (mem_cons_of_mem _ he), fun hkey => hnew ?_⟩
      rw [← hkey]
      exact mem_map_of_mem (hkey ▸ he)
    · rintro ⟨he, hkey⟩
      rcases mem_cons.mp (hperm.mem_iff.mp he) with rfl | he
      · exact absurd rfl hkey
      · exact he

theorem mem_put {data : List UInt8} (h : e ∈ (c.put k data).order) :
    e ∈ c.order ∨ e = ⟨k, data⟩ := by
  unfold put at h
  split at h
  · exact .inl h
  split at h
  · exact .inl (mem_get.mp h)
  have hmem := (reverse_shrink_sublist c.limit (⟨k, data⟩ :: c.order) _).subset h
  rcases mem_cons.mp hmem with rfl | hmem
  · exact .inr rfl
  · exact .inl hmem

theorem mem_dropDB {dbKey : String} :
    e ∈ (c.dropDB dbKey).order ↔ e ∈ c.order ∧ e.key.dbKey ≠ dbKey := by
  simp [dropDB]

end FileCache

end Walrusd.Litestream
