import Walrusd.Litestream.FileCache

/-!
# The file cache as it is kept in memory

`fileCache` of `litestream/range_cache.go` with its map and its list, which every operation updates
one after the other, and its byte count. It refines `FileCache`, in which the entries are one list:
what holds of every `FileCache` holds of the map, the list and the count after any sequence of
operations.

A Go map is walked in no particular order. `dropDB` takes the order in which it meets the keys of
the map as an argument.

## Main definitions

* `LinkedFileCache`, with `get`, `put`, `drop` and `dropDB`.
* `LinkedFileCache.Refines`.
* `FileCacheOp`, `LinkedFileCache.run`.

## Main results

* `LinkedFileCache.Refines.step` — each operation refines that of `FileCache`.
* `LinkedFileCache.run_lawful`.
-/

namespace Walrusd.Litestream

open Program List

/-- The fields of `fileCache`. -/
structure LinkedFileCache where
  limit : ℤ
  cells : LinkedMap CacheKey (List UInt8)
  bytes : ℤ

namespace LinkedFileCache

/-- `newFileCache`: an empty cache. -/
def new (limit : ℤ) : LinkedFileCache := ⟨limit, .empty, 0⟩

variable (c : LinkedFileCache)

/-- `get`: the cached bytes of a key, whose element moves to the front. -/
def get (k : CacheKey) : Option (List UInt8) × LinkedFileCache :=
  match c.cells.find k with
  | none => (none, c)
  | some el => (some el.value, { c with cells := c.cells.moveToFront el.ptr })

/-- At most `n` rounds of the loop of `put`, which removes the last element. -/
def shrink : ℕ → LinkedFileCache → LinkedFileCache
  | 0, c => c
  | n + 1, c =>
    if c.bytes > c.limit then
      match c.cells.back with
      | none => c
      | some el =>
        shrink n { c with cells := c.cells.remove el.key el.ptr
                          bytes := c.bytes - el.value.length }
    else c

/-- `put`: cache the bytes of a key. The loop ends after as many rounds as there are elements. -/
def put (k : CacheKey) (data : List UInt8) : LinkedFileCache :=
  if c.limit ≤ 0 ∨ c.limit < data.length then c
  else
    match c.cells.find k with
    | some el => { c with cells := c.cells.moveToFront el.ptr }
    | none =>
      let c := { c with cells := c.cells.pushFront k data, bytes := c.bytes + data.length }
      c.shrink c.cells.order.length

/-- `drop`: remove the element of a key. -/
def drop (k : CacheKey) : LinkedFileCache :=
  match c.cells.find k with
  | none => c
  | some el =>
    { c with cells := c.cells.remove k el.ptr, bytes := c.bytes - el.value.length }

/-- `dropDB`: remove the elements of a database, meeting the keys of the map in the given order. -/
def dropDB (dbKey : String) (range : List CacheKey) : LinkedFileCache :=
  range.foldl (fun c k => if k.dbKey ≠ dbKey then c else c.drop k) c

end LinkedFileCache

/-- An operation of the cache; `dropDB` comes with the order in which it walks the map. -/
inductive FileCacheOp
  | get (k : CacheKey)
  | put (k : CacheKey) (data : List UInt8)
  | drop (k : CacheKey)
  | dropDB (dbKey : String) (range : List CacheKey)

/-! ### Refinement -/

namespace FileCache

variable {c : FileCache}
variable {e : FileEntry}

/-- The cache after an operation. -/
def step (c : FileCache) : FileCacheOp → FileCache
  | .get k => (c.get k).2
  | .put k data => c.put k data
  | .drop k => c.drop k
  | .dropDB dbKey _ => c.dropDB dbKey

theorem eraseP_eq_filter (c : FileCache) (k : CacheKey) :
    (c.order.eraseP fun e => e.key = k) = c.order.filter fun e => e.key ≠ k := by
  have h : ∀ order : List FileEntry, (order.map FileEntry.key).Nodup →
      (order.eraseP fun e => e.key = k) = order.filter fun e => e.key ≠ k := by
    intro order hnodup
    induction order with
    | nil => rfl
    | cons e order ih =>
      obtain ⟨hnew, hnodup⟩ := List.nodup_cons.mp hnodup
      by_cases hk : e.key = k
      · rw [eraseP_cons_of_pos (by simpa using hk), filter_cons_of_neg (by simpa using hk)]
        refine (filter_eq_self.mpr fun e' he' => decide_eq_true ?_).symm
        rintro rfl
        exact hnew (hk ▸ mem_map_of_mem he')
      · rw [eraseP_cons_of_neg (by simpa using hk), filter_cons_of_pos (by simpa using hk),
          ih hnodup]
  exact h c.order c.nodup

theorem order_get_of_find {k : CacheKey} (h : c.find k = some e) :
    (c.get k).1 = some e.data ∧ (c.get k).2.order = e :: c.order.filter fun e => e.key ≠ k := by
  rw [← eraseP_eq_filter]
  unfold get
  split
  · next hnone => exact absurd (hnone.symm.trans h) nofun
  · next e' he' =>
    cases he'.symm.trans h
    exact ⟨rfl, rfl⟩

theorem get_of_find_none {k : CacheKey} (h : c.find k = none) : c.get k = (none, c) := by
  unfold get
  split
  · rfl
  · next e he => exact absurd (he.symm.trans h) nofun

theorem order_drop (k : CacheKey) : (c.drop k).order = c.order.filter fun e => e.key ≠ k := by
  rw [← eraseP_eq_filter]
  unfold drop
  split
  · next h =>
    refine (eraseP_of_forall_not fun e he hk => ?_).symm
    exact find?_eq_none.mp h e he hk
  · rfl

theorem limit_get (k : CacheKey) : (c.get k).2.limit = c.limit := by
  unfold get
  split <;> rfl

theorem bytes_get (k : CacheKey) : (c.get k).2.bytes = c.bytes := by
  unfold get
  split <;> rfl

theorem limit_drop (k : CacheKey) : (c.drop k).limit = c.limit := by
  unfold drop
  split <;> rfl

theorem drop_of_find_none {k : CacheKey} (h : c.find k = none) : c.drop k = c := by
  unfold drop
  split
  · rfl
  · next e he => exact absurd (he.symm.trans h) nofun

theorem bytes_drop {k : CacheKey} (h : c.find k = some e) :
    (c.drop k).bytes = c.bytes - e.data.length := by
  unfold drop
  split
  · next hnone => exact absurd (hnone.symm.trans h) nofun
  · next e' he' =>
    cases he'.symm.trans h
    rfl

theorem put_of_find {k : CacheKey} {data : List UInt8}
    (hfits : ¬ (c.limit ≤ 0 ∨ c.limit < data.length)) (h : c.find k = some e) :
    c.put k data = (c.get k).2 := by
  unfold put
  rw [if_neg hfits]
  split
  · rfl
  · next hnone => exact absurd (hnone.symm.trans h) nofun

theorem put_of_find_none {k : CacheKey} {data : List UInt8}
    (hfits : ¬ (c.limit ≤ 0 ∨ c.limit < data.length)) (h : c.find k = none) :
    c.put k data = c.push k data h := by
  unfold put
  rw [if_neg hfits]
  split
  · next e he => cases he.symm.trans h
  · rfl

theorem limit_put (k : CacheKey) (data : List UInt8) : (c.put k data).limit = c.limit := by
  by_cases hfits : c.limit ≤ 0 ∨ c.limit < data.length
  · rw [put, if_pos hfits]
  cases h : c.find k with
  | some e => rw [put_of_find hfits h, limit_get]
  | none =>
    rw [put_of_find_none hfits h]
    rfl

theorem limit_step (op : FileCacheOp) : (c.step op).limit = c.limit := by
  cases op with
  | get k => exact limit_get k
  | put k data => exact limit_put k data
  | drop k => exact limit_drop k
  | dropDB => rfl

end FileCache

namespace LinkedFileCache

/-- An entry as the list has it. -/
abbrev cell (e : FileEntry) : CacheKey × List UInt8 := (e.key, e.data)

/-- The map and the list agree, and the entries and the counts are those of `a`. -/
structure Refines (c : LinkedFileCache) (a : FileCache) : Prop where
  cells : c.cells.Shows cell a.order
  bytes : c.bytes = a.bytes
  limit : c.limit = a.limit

theorem refines_new (limit : ℤ) : Refines (new limit) (FileCache.new limit) :=
  ⟨⟨LinkedMap.linked_empty, rfl⟩, rfl, rfl⟩

/-- The cache after an operation. -/
def step (c : LinkedFileCache) : FileCacheOp → LinkedFileCache
  | .get k => (c.get k).2
  | .put k data => c.put k data
  | .drop k => c.drop k
  | .dropDB dbKey range => c.dropDB dbKey range

namespace Refines

variable {c : LinkedFileCache} {a : FileCache} {k : CacheKey}

variable (h : c.Refines a)
include h

theorem map_fst : c.cells.toList.map Prod.fst = a.order.map FileEntry.key := by
  rw [h.cells.toList, map_map]
  rfl

theorem mem_entries_iff : k ∈ c.cells.entries ↔ k ∈ a.order.map FileEntry.key := by
  rw [h.cells.linked.mem_entries, h.map_fst]

theorem find_eq_some {el : LinkedMap.Element CacheKey (List UInt8)}
    (hk : c.cells.find k = some el) : a.find k = some ⟨k, el.value⟩ := by
  obtain ⟨e, he, heq⟩ := h.cells.exists_of_find hk
  obtain ⟨hkey, hdata⟩ := Prod.mk.inj heq
  refine FileCache.find_eq_some.mpr ⟨?_, rfl⟩
  rwa [← hkey, ← hdata]

theorem find_eq_none (hk : c.cells.find k = none) : a.find k = none :=
  find?_eq_none.mpr fun e he => by simpa using h.cells.ne_of_find hk e he

/-- Moving an element to the front is what `get` does to the entries. -/
theorem moveToFront {el : LinkedMap.Element CacheKey (List UInt8)} (hk : c.cells.find k = some el) :
    Refines { c with cells := c.cells.moveToFront el.ptr } (a.get k).2 := by
  refine ⟨?_, h.bytes.trans (FileCache.bytes_get k).symm,
    h.limit.trans (FileCache.limit_get k).symm⟩
  rw [(FileCache.order_get_of_find (h.find_eq_some hk)).2]
  exact h.cells.moveToFront hk rfl

theorem get (k : CacheKey) : (c.get k).1 = (a.get k).1 ∧ Refines (c.get k).2 (a.get k).2 := by
  unfold LinkedFileCache.get
  cases hk : c.cells.find k with
  | none =>
    rw [FileCache.get_of_find_none (h.find_eq_none hk)]
    exact ⟨rfl, h⟩
  | some el => exact ⟨(FileCache.order_get_of_find (h.find_eq_some hk)).1.symm, h.moveToFront hk⟩

theorem drop (k : CacheKey) : Refines (c.drop k) (a.drop k) := by
  unfold LinkedFileCache.drop
  cases hk : c.cells.find k with
  | none =>
    rw [FileCache.drop_of_find_none (h.find_eq_none hk)]
    exact h
  | some el =>
    refine ⟨?_, ?_, h.limit.trans (FileCache.limit_drop k).symm⟩
    · rw [FileCache.order_drop]
      exact h.cells.remove hk
    · rw [FileCache.bytes_drop (h.find_eq_some hk), h.bytes]

/-- A database is dropped as its keys are, one after the other. -/
theorem dropDB (dbKey : String) {range : List CacheKey} (hrange : range.Perm c.cells.entries.keys) :
    Refines (c.dropDB dbKey range) (a.dropDB dbKey) := by
  have hloop : ∀ (range : List CacheKey) (c : LinkedFileCache) (a : FileCache), c.Refines a →
      ∃ a', (c.dropDB dbKey range).Refines a' ∧ a'.limit = a.limit ∧
        a'.order = a.order.filter fun e => ¬ (e.key ∈ range ∧ e.key.dbKey = dbKey) := by
    intro range
    induction range with
    | nil =>
      intro c a h
      exact ⟨a, h, rfl, by simp⟩
    | cons k range ih =>
      intro c a h
      by_cases hk : k.dbKey = dbKey
      · obtain ⟨a', hrefines, hlimit, horder⟩ := ih (c.drop k) (a.drop k) (h.drop k)
        refine ⟨a', ?_, hlimit.trans (FileCache.limit_drop k), ?_⟩
        · simpa [LinkedFileCache.dropDB, hk] using hrefines
        rw [horder, FileCache.order_drop, filter_filter]
        refine filter_congr fun e _ => ?_
        by_cases he : e.key = k <;> simp [he, hk]
      · obtain ⟨a', hrefines, hlimit, horder⟩ := ih c a h
        refine ⟨a', ?_, hlimit, ?_⟩
        · simpa [LinkedFileCache.dropDB, hk] using hrefines
        rw [horder]
        refine filter_congr fun e _ => ?_
        by_cases he : e.key = k <;> simp [he, hk]
  obtain ⟨a', hrefines, hlimit, horder⟩ := hloop range c a h
  have hsame : a'.order = (a.dropDB dbKey).order := by
    rw [horder]
    refine filter_congr fun e he => ?_
    have hmem : e.key ∈ range := by
      rw [hrange.mem_iff, ← AList.mem_keys, h.mem_entries_iff]
      exact mem_map_of_mem he
    simp [hmem]
  refine ⟨hsame ▸ hrefines.cells, ?_, hrefines.limit.trans hlimit⟩
  rw [hrefines.bytes, a'.bytes_eq, (a.dropDB dbKey).bytes_eq, hsame]

end Refines

/-- The loop of `put` removes the same entries as that of `FileCache`. -/
theorem shrink_eq {n : ℕ} {c : LinkedFileCache} {order : List FileEntry}
    (hcells : c.cells.Shows cell order) (hn : order.length ≤ n) :
    (c.shrink n).cells.Shows cell (FileCache.shrink c.limit order.reverse c.bytes).1.reverse ∧
    (c.shrink n).bytes = (FileCache.shrink c.limit order.reverse c.bytes).2 ∧
    (c.shrink n).limit = c.limit := by
  induction n generalizing c order with
  | zero =>
    obtain rfl : order = [] := length_eq_zero_iff.mp (Nat.le_zero.mp hn)
    exact ⟨hcells, rfl, rfl⟩
  | succ n ih =>
    cases hback : c.cells.back with
    | none =>
      obtain rfl := hcells.eq_nil_of_back hback
      have hshrink : c.shrink (n + 1) = c := by
        unfold shrink
        rw [hback]
        split <;> rfl
      rw [hshrink]
      exact ⟨hcells, rfl, rfl⟩
    | some el =>
      obtain ⟨front, e, rfl, hlast, hrest⟩ := hcells.removeBack hback
      obtain ⟨-, hdata⟩ := Prod.mk.inj hlast
      rw [reverse_concat]
      unfold shrink FileCache.shrink
      split
      · simp only [hback, ← hdata]
        exact ih hrest (by simpa using hn)
      · exact ⟨by simpa using hcells, rfl, rfl⟩

namespace Refines

variable {c : LinkedFileCache} {a : FileCache}

theorem put (h : c.Refines a) (k : CacheKey) (data : List UInt8) :
    Refines (c.put k data) (a.put k data) := by
  unfold LinkedFileCache.put
  by_cases hfits : c.limit ≤ 0 ∨ c.limit < data.length
  · rw [if_pos hfits, FileCache.put, if_pos (h.limit ▸ hfits)]
    exact h
  rw [if_neg hfits]
  have hfits' : ¬ (a.limit ≤ 0 ∨ a.limit < data.length) := h.limit ▸ hfits
  cases hk : c.cells.find k with
  | some el =>
    rw [FileCache.put_of_find hfits' (h.find_eq_some hk)]
    exact h.moveToFront hk
  | none =>
    rw [FileCache.put_of_find_none hfits' (h.find_eq_none hk)]
    have hcells : (c.cells.pushFront k data).Shows cell (⟨k, data⟩ :: a.order) :=
      h.cells.pushFront hk rfl
    obtain ⟨hshows, hbytes, hlimit⟩ := shrink_eq
      (c := { c with cells := c.cells.pushFront k data, bytes := c.bytes + data.length })
      hcells hcells.length_order.ge
    have hsame : FileCache.shrink c.limit (⟨k, data⟩ :: a.order).reverse (c.bytes + data.length) =
        FileCache.shrink a.limit (⟨k, data⟩ :: a.order).reverse (a.bytes + data.length) := by
      rw [h.limit, h.bytes]
    simp only [hsame] at hshows hbytes
    exact ⟨hshows, hbytes, hlimit.trans h.limit⟩

theorem step (h : c.Refines a) {op : FileCacheOp}
    (hrange : ∀ dbKey range, op = .dropDB dbKey range → range.Perm c.cells.entries.keys) :
    Refines (c.step op) (a.step op) := by
  cases op with
  | get k => exact (h.get k).2
  | put k data => exact h.put k data
  | drop k => exact h.drop k
  | dropDB dbKey range => exact h.dropDB dbKey (hrange dbKey range rfl)

end Refines

end LinkedFileCache

/-! ### Runs -/

namespace FileCache

/-- The cache after a sequence of operations. -/
def run (limit : ℤ) (ops : List FileCacheOp) : FileCache := ops.foldl step (new limit)

theorem run_concat (limit : ℤ) (ops : List FileCacheOp) (op : FileCacheOp) :
    run limit (ops ++ [op]) = (run limit ops).step op := by
  simp [run]

theorem limit_run (limit : ℤ) (ops : List FileCacheOp) : (run limit ops).limit = limit := by
  induction ops using List.reverseRecOn with
  | nil => rfl
  | append_singleton ops op ih => rw [run_concat, limit_step, ih]

end FileCache

/-- The keys that an operation uses. A `put` that is refused uses none. -/
def FileCacheOp.uses (limit : ℤ) : FileCacheOp → List CacheKey
  | .get k => [k]
  | .put k data => if limit ≤ 0 ∨ limit < data.length then [] else [k]
  | .drop _ | .dropDB _ _ => []

/-- The keys that a sequence of operations uses, the last one first. -/
def FileCacheOp.usesOf (limit : ℤ) (ops : List FileCacheOp) : List CacheKey :=
  ops.foldl (fun used op => op.uses limit ++ used) []

namespace FileCache

variable {c : FileCache}
variable {data : List UInt8}

theorem not_mem_keys {k : CacheKey} :
    k ∉ (c.order.filter fun e => e.key ≠ k).map FileEntry.key := by
  intro hmem
  obtain ⟨e, he, hkey⟩ := mem_map.mp hmem
  exact (of_decide_eq_true (mem_filter.mp he).2) hkey

theorem not_mem_keys_of_find {k : CacheKey} (h : c.find k = none) :
    k ∉ c.order.map FileEntry.key := by
  intro hmem
  obtain ⟨e, he, hkey⟩ := mem_map.mp hmem
  exact find?_eq_none.mp h e he (decide_eq_true hkey)

/-- `get` uses a key: its entry comes first, and the order of the others stays. -/
theorem byRecency_get {used : List CacheKey} (h : ByRecency used (c.order.map FileEntry.key))
    (k : CacheKey) : ByRecency (k :: used) ((c.get k).2.order.map FileEntry.key) := by
  cases hk : c.find k with
  | none =>
    rw [get_of_find_none hk]
    exact h.use (not_mem_keys_of_find hk)
  | some e =>
    obtain ⟨-, rfl⟩ := find_eq_some.mp hk
    rw [(order_get_of_find hk).2, map_cons]
    exact (h.sublist (filter_sublist.map _)).cons not_mem_keys

/-- **The entries are in the order of their last use.** -/
theorem byRecency_run (limit : ℤ) (ops : List FileCacheOp) :
    ByRecency (FileCacheOp.usesOf limit ops) ((run limit ops).order.map FileEntry.key) := by
  induction ops using List.reverseRecOn with
  | nil => exact byRecency_nil
  | append_singleton ops op ih =>
    have huses : FileCacheOp.usesOf limit (ops ++ [op]) =
        op.uses limit ++ FileCacheOp.usesOf limit ops := by simp [FileCacheOp.usesOf]
    have hlimit := limit_run limit ops
    rw [run_concat, huses]
    generalize run limit ops = c at ih hlimit
    cases op with
    | get k => exact byRecency_get ih k
    | put k data =>
      simp only [step, FileCacheOp.uses]
      by_cases hfits : limit ≤ 0 ∨ limit < data.length
      · rw [if_pos hfits, put, if_pos (hlimit ▸ hfits)]
        exact ih
      rw [if_neg hfits]
      have hfits' : ¬ (c.limit ≤ 0 ∨ c.limit < data.length) := hlimit ▸ hfits
      cases hk : c.find k with
      | some e =>
        rw [put_of_find hfits' hk]
        exact byRecency_get ih k
      | none =>
        rw [put_of_find_none hfits' hk]
        have hpush : ByRecency (k :: FileCacheOp.usesOf limit ops)
            ((⟨k, data⟩ :: c.order : List FileEntry).map FileEntry.key) :=
          ih.cons (not_mem_keys_of_find hk)
        exact hpush.sublist ((reverse_shrink_sublist c.limit (⟨k, data⟩ :: c.order) _).map _)
    | drop k =>
      simp only [step, order_drop]
      exact ih.sublist (filter_sublist.map _)
    | dropDB dbKey range => exact ih.sublist (filter_sublist.map _)

/-- The entry of a key that an operation leaves in the cache was there before, or is put by the
operation under a key that was not there. -/
theorem mem_step {op : FileCacheOp} {k : CacheKey} (h : ⟨k, data⟩ ∈ (c.step op).order) :
    ⟨k, data⟩ ∈ c.order ∨ op = .put k data ∧ c.find k = none := by
  cases op with
  | get k' => exact .inl (mem_get.mp h)
  | put k' data' =>
    rcases mem_put h with hmem | heq
    · exact .inl hmem
    obtain ⟨rfl, rfl⟩ := FileEntry.mk.inj heq
    cases hk : c.find k with
    | none => exact .inr ⟨rfl, rfl⟩
    | some e =>
      refine .inl ?_
      simp only [step] at h
      by_cases hfits : c.limit ≤ 0 ∨ c.limit < data.length
      · rwa [put, if_pos hfits] at h
      · rw [put_of_find hfits hk] at h
        exact mem_get.mp h
  | drop k' => exact .inl (mem_drop.mp h).1
  | dropDB dbKey range => exact .inl (mem_dropDB.mp h).1

/-- **The entry of a key is that of the `put` that inserted it**: the key was not there before, and
has been there ever since. -/
theorem exists_put {limit : ℤ} {ops : List FileCacheOp} {k : CacheKey}
    (h : ⟨k, data⟩ ∈ (run limit ops).order) : ∃ before after,
      ops = before ++ .put k data :: after ∧ (run limit before).find k = none ∧
      ∀ mid, mid <+: after → ⟨k, data⟩ ∈ (run limit (before ++ .put k data :: mid)).order := by
  induction ops using List.reverseRecOn with
  | nil => cases h
  | append_singleton ops op ih =>
    have hnow := h
    rw [run_concat] at h
    rcases mem_step h with hmem | ⟨rfl, hnone⟩
    · obtain ⟨before, after, rfl, hnone, hsince⟩ := ih hmem
      refine ⟨before, after ++ [op], by simp, hnone, fun mid hmid => ?_⟩
      rcases prefix_concat_iff.mp hmid with rfl | hmid
      · simpa using hnow
      · exact hsince mid hmid
    · refine ⟨ops, [], by simp, hnone, fun mid hmid => ?_⟩
      rw [prefix_nil.mp hmid]
      exact hnow

theorem shrink_split (limit : ℤ) {order : List FileEntry} {bytes : ℤ}
    (h : bytes = totalBytes order) : ∃ removed, order = removed ++ (shrink limit order bytes).1 ∧
      ∀ e ∈ removed.getLast?, limit < totalBytes (e :: (shrink limit order bytes).1) := by
  induction order generalizing bytes with
  | nil => exact ⟨[], rfl, nofun⟩
  | cons e newer ih =>
    unfold shrink
    split
    · next hover =>
      have hrest : bytes - e.data.length = totalBytes newer := by
        rw [h, totalBytes_cons]
        exact add_sub_cancel_left _ _
      obtain ⟨removed, hsplit, hlast⟩ := ih hrest
      refine ⟨e :: removed, by rw [cons_append, ← hsplit], ?_⟩
      rcases eq_nil_or_concat' removed with rfl | ⟨init, e', rfl⟩
      · intro e' he'
        obtain rfl : e = e' := by simpa using he'
        rw [nil_append] at hsplit
        rwa [← hsplit, ← h]
      · simpa [getLast?_cons] using hlast
    · exact ⟨[], rfl, nofun⟩

/-- **What `put` evicts**: the least recently used entries, and no more than needed. -/
theorem order_push {k : CacheKey} (hk : c.find k = none) (hfits : (data.length : ℤ) ≤ c.limit) :
    ∃ kept evicted, c.order = kept ++ evicted ∧ (c.push k data hk).order = ⟨k, data⟩ :: kept ∧
      ∀ e ∈ evicted.head?, c.limit < totalBytes (⟨k, data⟩ :: kept ++ [e]) := by
  obtain ⟨removed, hsplit, hlast⟩ := shrink_split c.limit (c.bytes_add k data)
  have horder : (c.push k data hk).order =
      (shrink c.limit (⟨k, data⟩ :: c.order).reverse (c.bytes + data.length)).1.reverse := rfl
  rw [horder]
  generalize (shrink c.limit (⟨k, data⟩ :: c.order).reverse (c.bytes + data.length)).1 = rest at *
  have hwhole : ⟨k, data⟩ :: c.order = rest.reverse ++ removed.reverse := by
    rw [← reverse_append, ← hsplit, reverse_reverse]
  cases hrest : rest.reverse with
  | nil =>
    -- The new entry alone fits, so that the loop cannot have removed it.
    obtain rfl : rest = [] := reverse_eq_nil_iff.mp hrest
    rw [reverse_nil, nil_append] at hwhole
    have hlimit := hlast ⟨k, data⟩ (by
      rw [Option.mem_def, ← head?_reverse, ← hwhole, head?_cons])
    simp [totalBytes] at hlimit
    omega
  | cons e kept =>
    rw [hrest, cons_append] at hwhole
    obtain ⟨rfl, hkept⟩ := cons.inj hwhole
    refine ⟨kept, removed.reverse, hkept, rfl, fun e he => ?_⟩
    rw [head?_reverse] at he
    refine (hlast e he).trans_eq ?_
    rw [totalBytes_append, ← hrest, totalBytes_perm (reverse_perm rest), totalBytes_cons]
    simp [totalBytes, add_comm]

end FileCache

namespace LinkedFileCache

/-- The cache after a sequence of operations. -/
def run (limit : ℤ) (ops : List FileCacheOp) : LinkedFileCache := ops.foldl step (new limit)

/-- The walk of a `dropDB` meets each key of the map once. -/
def Walks (c : LinkedFileCache) : FileCacheOp → Prop
  | .dropDB _ range => range.Perm c.cells.entries.keys
  | _ => True

/-- A sequence of operations in which every walk meets the keys that are there. -/
def Runs (limit : ℤ) (ops : List FileCacheOp) : Prop :=
  ∀ before op after, ops = before ++ op :: after → (run limit before).Walks op

theorem run_refines {limit : ℤ} {ops : List FileCacheOp} (h : Runs limit ops) :
    (run limit ops).Refines (FileCache.run limit ops) := by
  induction ops using List.reverseRecOn with
  | nil => exact refines_new limit
  | append_singleton ops op ih =>
    have hbefore := ih fun before op' after hops => h before op' (after ++ [op]) (by simp [hops])
    have hwalks := h ops op [] rfl
    have hrun : run limit (ops ++ [op]) = (run limit ops).step op := by simp [run]
    rw [hrun, FileCache.run_concat]
    refine hbefore.step ?_
    rintro dbKey range rfl
    exact hwalks

/-- The number of bytes in a list of keys with their data. -/
def dataBytes (l : List (CacheKey × List UInt8)) : ℤ := (l.map fun x => (x.2.length : ℤ)).sum

theorem dataBytes_map (order : List FileEntry) : dataBytes (order.map cell) = totalBytes order := by
  simp only [dataBytes, totalBytes, map_map]
  rfl

/-- What is claimed of the cache `c` after the operations `ops`. -/
structure Lawful (limit : ℤ) (ops : List FileCacheOp) (c : LinkedFileCache) : Prop where
  /-- The list has each key once. -/
  nodup : (c.cells.toList.map Prod.fst).Nodup
  /-- The map has the keys of the list. -/
  mem_entries : ∀ k, k ∈ c.cells.entries ↔ k ∈ c.cells.toList.map Prod.fst
  /-- The count is the number of cached bytes. -/
  bytes_eq : c.bytes = dataBytes c.cells.toList
  /-- The count does not exceed the limit. -/
  bytes_le : c.bytes ≤ max limit 0
  /-- Data that fits is cached. -/
  mem_put : ∀ k data, 0 < limit → (data.length : ℤ) ≤ limit → k ∈ (c.put k data).cells.entries
  /-- What is in the map is found. -/
  isSome_get : ∀ k, (c.get k).1.isSome ↔ k ∈ c.cells.entries
  /-- The data is that of the `put` that inserted the key, which has been there since. -/
  inserted : ∀ k data, (c.get k).1 = some data → ∃ before after,
    ops = before ++ .put k data :: after ∧ k ∉ (run limit before).cells.entries ∧
    ∀ mid, mid <+: after → k ∈ (run limit (before ++ .put k data :: mid)).cells.entries
  /-- The list is in the order of the last use. -/
  byRecency : ByRecency (FileCacheOp.usesOf limit ops) (c.cells.toList.map Prod.fst)
  /-- The entries that are evicted come last in the list, and are no more than needed. -/
  evicts : ∀ k data, k ∉ c.cells.entries → 0 < limit → (data.length : ℤ) ≤ limit →
    ∃ kept evicted, c.cells.toList = kept ++ evicted ∧
      (c.put k data).cells.toList = (k, data) :: kept ∧
      ∀ e ∈ evicted.head?, limit < dataBytes ((k, data) :: kept ++ [e])
  /-- `dropDB` removes the keys of the database, whatever the order of its walk. -/
  dropDB : ∀ dbKey range, c.Walks (.dropDB dbKey range) →
    (c.dropDB dbKey range).cells.toList = c.cells.toList.filter fun e => e.1.dbKey ≠ dbKey

namespace Refines

variable {c : LinkedFileCache} {a : FileCache} (h : c.Refines a)
include h

theorem not_mem_entries_iff {k : CacheKey} : k ∉ c.cells.entries ↔ a.find k = none := by
  rw [h.mem_entries_iff]
  constructor
  · intro hk
    refine find?_eq_none.mpr fun e he hkey => hk ?_
    exact mem_map.mpr ⟨e, he, of_decide_eq_true hkey⟩
  · exact FileCache.not_mem_keys_of_find

end Refines

/-- **The file cache is lawful after every sequence of operations.** -/
theorem run_lawful {limit : ℤ} {ops : List FileCacheOp} (h : Runs limit ops) :
    Lawful limit ops (run limit ops) := by
  have href := run_refines h
  have hlimit := FileCache.limit_run limit ops
  have hpush : ∀ k data, k ∉ (run limit ops).cells.entries → 0 < limit →
      (data.length : ℤ) ≤ limit → ∃ kept evicted,
        (FileCache.run limit ops).order = kept ++ evicted ∧
        ((FileCache.run limit ops).put k data).order = ⟨k, data⟩ :: kept ∧
        ∀ e ∈ evicted.head?, limit < totalBytes (⟨k, data⟩ :: kept ++ [e]) := by
    intro k data hk hpos hfits
    have hnone := href.not_mem_entries_iff.mp hk
    rw [FileCache.put_of_find_none (by omega) hnone]
    obtain ⟨kept, evicted, hsplit, horder, hneeded⟩ :=
      FileCache.order_push hnone (hlimit.symm ▸ hfits)
    exact ⟨kept, evicted, hsplit, horder, hlimit ▸ hneeded⟩
  constructor
  · exact href.cells.linked.nodup_toList
  · exact fun k => href.cells.linked.mem_entries
  · rw [href.bytes, href.cells.toList, dataBytes_map, (FileCache.run limit ops).bytes_eq]
  · rw [href.bytes]
    rcases (FileCache.run limit ops).bounded with hnil | hle
    · rw [(FileCache.run limit ops).bytes_eq, hnil]
      exact le_max_right _ _
    · exact (hlimit ▸ hle).trans (le_max_left _ _)
  · intro k data hpos hfits
    rw [(href.put k data).mem_entries_iff]
    cases hk : (FileCache.run limit ops).find k with
    | some e =>
      obtain ⟨he, rfl⟩ := FileCache.find_eq_some.mp hk
      rw [FileCache.put_of_find (by omega) hk]
      exact mem_map_of_mem (FileCache.mem_get.mpr he)
    | none =>
      obtain ⟨kept, -, -, horder, -⟩ := hpush k data (href.not_mem_entries_iff.mpr hk) hpos hfits
      rw [horder]
      exact mem_cons_self
  · intro k
    rw [(href.get k).1, href.mem_entries_iff, Option.isSome_iff_exists]
    simp only [FileCache.get_eq_some, mem_map]
    constructor
    · rintro ⟨data, hmem⟩
      exact ⟨_, hmem, rfl⟩
    · rintro ⟨e, he, rfl⟩
      exact ⟨e.data, he⟩
  · intro k data hget
    rw [(href.get k).1] at hget
    obtain ⟨before, after, rfl, hnone, hsince⟩ :=
      FileCache.exists_put (FileCache.get_eq_some.mp hget)
    have hbefore : Runs limit before := fun b op a hb =>
      h b op (a ++ .put k data :: after) (by simp [hb])
    refine ⟨before, after, rfl, (run_refines hbefore).not_mem_entries_iff.mpr hnone, ?_⟩
    rintro mid ⟨rest, rfl⟩
    have hmid : Runs limit (before ++ .put k data :: mid) := fun b op a hb =>
      h b op (a ++ rest) (by
        rw [← cons_append, ← append_assoc, hb, append_assoc, cons_append])
    rw [(run_refines hmid).mem_entries_iff]
    exact mem_map_of_mem (hsince mid (prefix_append _ _))
  · rw [href.map_fst]
    exact FileCache.byRecency_run limit ops
  · intro k data hk hpos hfits
    obtain ⟨kept, evicted, hsplit, horder, hneeded⟩ := hpush k data hk hpos hfits
    refine ⟨kept.map cell, evicted.map cell, ?_, ?_, ?_⟩
    · rw [href.cells.toList, hsplit, map_append]
    · rw [(href.put k data).cells.toList, horder, map_cons]
    intro x hx
    rw [head?_map, Option.mem_map] at hx
    obtain ⟨e, he, rfl⟩ := hx
    have hlist : (k, data) :: kept.map cell ++ [cell e] = (⟨k, data⟩ :: kept ++ [e]).map cell := by
      simp
    rw [hlist, dataBytes_map]
    exact hneeded e he
  · intro dbKey range hrange
    rw [(href.dropDB dbKey hrange).cells.toList, href.cells.toList, filter_map]
    simp only [FileCache.dropDB]
    congr 1
    exact filter_congr fun e _ => by simp

theorem Runs.concat {limit : ℤ} {ops : List FileCacheOp} {op : FileCacheOp} (h : Runs limit ops)
    (hop : (run limit ops).Walks op) : Runs limit (ops ++ [op]) := by
  intro before op' after hops
  rcases eq_nil_or_concat' after with rfl | ⟨after, op'', rfl⟩
  · obtain ⟨rfl, hop'⟩ := append_inj' hops rfl
    cases hop'
    exact hop
  rw [← cons_append, ← append_assoc] at hops
  obtain ⟨rfl, -⟩ := append_inj' hops rfl
  exact h before op' after rfl

/-- Two files of three bytes do not fit into five bytes: the older one is evicted, and then the
other one is dropped with its database. -/
theorem run_lawful_evicted :
    (run 5 [.put ⟨"a", ⟨0, 1, 1⟩⟩ [1, 2, 3], .put ⟨"b", ⟨0, 1, 1⟩⟩ [4, 5, 6]]).cells.toList =
        [(⟨"b", ⟨0, 1, 1⟩⟩, [4, 5, 6])] ∧
      Lawful 5 [.put ⟨"a", ⟨0, 1, 1⟩⟩ [1, 2, 3], .put ⟨"b", ⟨0, 1, 1⟩⟩ [4, 5, 6],
        .dropDB "b" [⟨"b", ⟨0, 1, 1⟩⟩]]
        (run 5 [.put ⟨"a", ⟨0, 1, 1⟩⟩ [1, 2, 3], .put ⟨"b", ⟨0, 1, 1⟩⟩ [4, 5, 6],
          .dropDB "b" [⟨"b", ⟨0, 1, 1⟩⟩]]) := by
  have hputs : Runs 5 [.put ⟨"a", ⟨0, 1, 1⟩⟩ [1, 2, 3], .put ⟨"b", ⟨0, 1, 1⟩⟩ [4, 5, 6]] :=
    @Runs.concat 5 [.put ⟨"a", ⟨0, 1, 1⟩⟩ [1, 2, 3]] _
      (@Runs.concat 5 [] _ (fun before op after hops => by simp at hops) trivial) trivial
  exact ⟨by decide, run_lawful (hputs.concat (List.Perm.refl _))⟩

end LinkedFileCache

end Walrusd.Litestream
