import Walrusd.Basic
import Mathlib.Data.List.Nodup

/-!
# The read-instance cache

The bounded LRU cache of `cache/cache.go`, with eviction on capacity and on idle time. An operation
takes the time at which it runs and returns the instances that it closes. Each operation of the
source holds the cache's lock while it changes the entries; it is one step here. `Put` drops the
lock whenever it closes the oldest instance, so one round of its loop is a step of its own, and
`Put` as a whole is what the rounds amount to when nobody comes in between.

## Main definitions

* `Cache`, `Cache.get`, `Cache.put`, `Cache.evict`, `Cache.drain`.
* `Cache.putLocked`, `Cache.putRounds` — one round of `Put`, and its loop.

## Main results

* `Cache.mem_get`, `Cache.mem_put`, `Cache.mem_evict` — where the entries after an operation come
  from.
* `Cache.putRounds_eq` — undisturbed, the rounds of `Put` do what `put` says.
* `Cache.Keyed` — one entry for each key; `Cache.get_keeps`, `Cache.evict_keeps`,
  `Cache.putLocked_cases` — an instance leaves the cache only by being handed out for closing.
-/

namespace Walrusd

open List

/-- A cached instance. -/
structure Cache.Entry (α : Type) where
  key : String
  inst : α
  lastUsed : ℤ

/-- A cache; the most recently used entry comes first. -/
structure Cache (α : Type) where
  max : ℤ
  idleTTL : ℤ
  entries : List (Cache.Entry α)

namespace Cache

variable {α : Type}
variable {c : Cache α} {key : String} {e : Entry α} {now : ℤ} {inst : α}

/-- `New`: an empty cache. -/
def new (max idleTTL : ℤ) : Cache α := ⟨max, idleTTL, []⟩

/-- Caching is disabled when one of the bounds is not positive. -/
def disabled (c : Cache α) : Bool := c.max ≤ 0 || c.idleTTL ≤ 0

/-- The entry of a key. -/
def find (c : Cache α) (key : String) : Option (Entry α) := c.entries.find? fun e => e.key = key

/-- `removeLocked`: the entries of the other keys. -/
def others (c : Cache α) (key : String) : List (Entry α) := c.entries.filter fun e => e.key ≠ key

/-- `Get`: the cached instance of a key, which becomes the most recently used one; an instance that
was idle for longer than the bound is closed instead. -/
def get (c : Cache α) (key : String) (now : ℤ) : Option α × List α × Cache α :=
  if c.disabled then (none, [], c)
  else
    match c.find key with
    | none => (none, [], c)
    | some e =>
      if now - e.lastUsed > c.idleTTL then (none, [e.inst], { c with entries := c.others key })
      else (some e.inst, [], { c with entries := { e with lastUsed := now } :: c.others key })

/-- `Put`: cache an instance. It replaces one of the same key; otherwise the least recently used
entries are closed until it fits. -/
def put (c : Cache α) (key : String) (inst : α) (now : ℤ) : List α × Cache α :=
  if c.disabled then ([inst], c)
  else
    match c.find key with
    | some e => ([e.inst], { c with entries := ⟨key, inst, now⟩ :: c.others key })
    | none =>
      let room := (c.max - 1).toNat
      ((c.entries.drop room).map Entry.inst,
        { c with entries := ⟨key, inst, now⟩ :: c.entries.take room })

/-- `Evict`: remove and close the instance of a key. -/
def evict (c : Cache α) (key : String) : List α × Cache α :=
  match c.find key with
  | none => ([], c)
  | some e => ([e.inst], { c with entries := c.others key })

/-- The result of one round of `Put`: the instance was stored in the place of another one or of
none, the oldest instance was taken out to make room, or there is no room at all. -/
inductive PutRound (α : Type)
  | stored (replaced : Option α)
  | full (oldest : α)
  | refused

/-- One round of `Put`, under the lock. -/
def putLocked (c : Cache α) (key : String) (inst : α) (now : ℤ) : PutRound α × Cache α :=
  if c.disabled then (.refused, c)
  else
    match c.find key with
    | some e => (.stored (some e.inst), { c with entries := ⟨key, inst, now⟩ :: c.others key })
    | none =>
      if c.entries.length < c.max then
        (.stored none, { c with entries := ⟨key, inst, now⟩ :: c.entries })
      else
        match c.entries.getLast? with
        | none => (.refused, c)
        | some oldest => (.full oldest.inst, { c with entries := c.entries.dropLast })

/-- At most `n` rounds of `Put`, one after the other: the closed instances. -/
def putRounds (key : String) (inst : α) (now : ℤ) : ℕ → Cache α → List α × Cache α
  | 0, c => ([], c)
  | n + 1, c =>
    match c.putLocked key inst now with
    | (.stored replaced, c') => (replaced.toList, c')
    | (.refused, c') => ([inst], c')
    | (.full oldest, c') =>
      let rest := putRounds key inst now n c'
      (oldest :: rest.1, rest.2)

/-- `Close`: remove and close every instance, the least recently used one first. -/
def drain (c : Cache α) : List α × Cache α :=
  ((c.entries.map Entry.inst).reverse, { c with entries := [] })

theorem mem_others : e ∈ c.others key ↔ e ∈ c.entries ∧ e.key ≠ key := by
  simp [others]

theorem find_mem (h : c.find key = some e) : e ∈ c.entries ∧ e.key = key :=
  ⟨mem_of_find?_eq_some h, by simpa using find?_some h⟩

theorem get_eq_some (h : (c.get key now).1 = some inst) :
    ∃ e ∈ c.entries, e.key = key ∧ e.inst = inst ∧ now - e.lastUsed ≤ c.idleTTL := by
  unfold get at h
  split at h
  · cases h
  split at h
  · cases h
  · next e he =>
    split at h
    · cases h
    · next hidle =>
      obtain ⟨hmem, hkey⟩ := find_mem he
      exact ⟨e, hmem, hkey, Option.some.inj h, by omega⟩

theorem mem_get (h : e ∈ (c.get key now).2.2.entries) :
    ∃ e' ∈ c.entries, e'.key = e.key ∧ e'.inst = e.inst := by
  unfold get at h
  split at h
  · exact ⟨e, h, rfl, rfl⟩
  split at h
  · exact ⟨e, h, rfl, rfl⟩
  · next e' he =>
    split at h
    · exact ⟨e, (mem_others.mp h).1, rfl, rfl⟩
    rcases mem_cons.mp h with rfl | h
    · exact ⟨e', (find_mem he).1, rfl, rfl⟩
    · exact ⟨e, (mem_others.mp h).1, rfl, rfl⟩

theorem mem_put (h : e ∈ (c.put key inst now).2.entries) :
    e ∈ c.entries ∨ e = ⟨key, inst, now⟩ := by
  unfold put at h
  split at h
  · exact .inl h
  split at h
  · rcases mem_cons.mp h with rfl | h
    · exact .inr rfl
    · exact .inl (mem_others.mp h).1
  rcases mem_cons.mp h with rfl | h
  · exact .inr rfl
  · exact .inl (mem_of_mem_take h)

theorem mem_evict (h : e ∈ (c.evict key).2.entries) : e ∈ c.entries ∧ e.key ≠ key := by
  unfold evict at h
  split at h
  · next hnone =>
    refine ⟨h, fun hkey => ?_⟩
    have := find?_eq_none.mp hnone e h
    simp [hkey] at this
  · exact mem_others.mp h

theorem mem_drain (h : e ∈ c.drain.2.entries) : e ∈ c.entries :=
  nomatch h

theorem find_eq_none : c.find key = none ↔ ∀ e ∈ c.entries, e.key ≠ key := by
  simp [find]

theorem putRounds_eq {n : ℕ} (hn : c.entries.length < n) :
    putRounds key inst now n c = ((c.put key inst now).1.reverse, (c.put key inst now).2) := by
  induction n generalizing c with
  | zero => omega
  | succ n ih =>
    by_cases hdisabled : c.disabled = true
    · simp [putRounds, putLocked, put, hdisabled]
    have hmax : 0 < c.max := by
      simp only [disabled, Bool.or_eq_true, decide_eq_true_eq] at hdisabled
      omega
    cases hfind : c.find key with
    | some e => simp [putRounds, putLocked, put, hdisabled, hfind]
    | none =>
      by_cases hroom : (c.entries.length : ℤ) < c.max
      · have hle : c.entries.length ≤ (c.max - 1).toNat := by omega
        simp only [putRounds, putLocked, put, hdisabled, hfind, hroom]
        rw [drop_of_length_le hle, take_of_length_le hle]
        rfl
      cases hlast : c.entries.getLast? with
      | none =>
        rw [getLast?_eq_none_iff.mp hlast, length_nil] at hroom
        omega
      | some oldest =>
        obtain ⟨front, hfront⟩ := getLast?_eq_some_iff.mp hlast
        have hlength : c.entries.length = front.length + 1 := by simp [hfront]
        have hle : (c.max - 1).toNat ≤ front.length := by omega
        have hnone : ({ c with entries := front } : Cache α).find key = none := by
          rw [find_eq_none] at hfind ⊢
          intro e he
          refine hfind e ?_
          rw [hfront]
          exact mem_append_left _ he
        have hput : c.put key inst now = ((front.drop (c.max - 1).toNat ++ [oldest]).map Entry.inst,
            { c with entries := ⟨key, inst, now⟩ :: front.take (c.max - 1).toNat }) := by
          simp only [put, hdisabled, hfind, hfront]
          rw [drop_append_of_le_length hle, take_append_of_le_length hle]
          rfl
        have hround : c.putLocked key inst now =
            (.full oldest.inst, { c with entries := front }) := by
          simp only [putLocked, hdisabled, hfind, hroom, hlast]
          simp [hfront]
        have hshorter : ({ c with entries := front } : Cache α).entries.length < n := by
          simp only
          omega
        simp only [putRounds, hround, ih hshorter, hput]
        simp only [put, hnone, show ({ c with entries := front } : Cache α).disabled = c.disabled
          from rfl, hdisabled]
        simp

/-! ### Instances leave the cache only to be closed -/

/-- Each key has one entry. -/
def Keyed (c : Cache α) : Prop := (c.entries.map Entry.key).Nodup

theorem new_keyed (max idleTTL : ℤ) : (new max idleTTL : Cache α).Keyed := nodup_nil

theorem Keyed.others (h : c.Keyed) (key : String) : ((c.others key).map Entry.key).Nodup :=
  (filter_sublist.map _).nodup h

/-- With one entry for each key, the entries are the one that was found and the other ones. -/
theorem Keyed.mem_of_find (h : c.Keyed) {e' : Entry α} (hfind : c.find key = some e)
    (he' : e' ∈ c.entries) : e' = e ∨ e' ∈ c.others key := by
  by_cases hkey : e'.key = key
  · obtain ⟨hmem, hekey⟩ := find_mem hfind
    exact .inl (inj_on_of_nodup_map h he' hmem (hkey.trans hekey.symm))
  · exact .inr (mem_others.mpr ⟨he', hkey⟩)

theorem Keyed.cons_others (h : c.Keyed) (he : e.key = key) :
    ((e :: c.others key).map Entry.key).Nodup := by
  refine nodup_cons.mpr ⟨fun hmem => ?_, h.others key⟩
  obtain ⟨e', he', hkey⟩ := mem_map.mp hmem
  exact (mem_others.mp he').2 (hkey.trans he)

/-- `c'` is keyed, the instances `gone` were in `c`, and the other instances of `c` still are in
`c'`. -/
structure Keeps (c c' : Cache α) (gone : List α) : Prop where
  keyed : c'.Keyed
  cached : ∀ inst ∈ gone, ∃ e ∈ c.entries, e.inst = inst
  stay : ∀ e ∈ c.entries, e.inst ∈ gone ∨ ∃ e' ∈ c'.entries, e'.inst = e.inst

theorem Keyed.keeps_self (h : c.Keyed) : Keeps c c [] :=
  ⟨h, nofun, fun e he => .inr ⟨e, he, rfl⟩⟩

theorem Keyed.keeps_others (h : c.Keyed) {found : Entry α} (hfind : c.find key = some found) :
    Keeps c { c with entries := c.others key } [found.inst] := by
  refine ⟨h.others key, fun inst hinst => ?_, fun e he => ?_⟩
  · rw [mem_singleton.mp hinst]
    exact ⟨found, (find_mem hfind).1, rfl⟩
  rcases h.mem_of_find hfind he with rfl | he'
  · exact .inl (mem_singleton_self _)
  · exact .inr ⟨e, he', rfl⟩

theorem get_keeps (h : c.Keyed) (key : String) (now : ℤ) :
    Keeps c (c.get key now).2.2 (c.get key now).2.1 := by
  unfold get
  split
  · exact h.keeps_self
  cases hfind : c.find key with
  | none => exact h.keeps_self
  | some found =>
    simp only
    split
    · exact h.keeps_others hfind
    refine ⟨h.cons_others (find_mem hfind).2, nofun, fun e he => .inr ?_⟩
    rcases h.mem_of_find hfind he with rfl | he'
    · exact ⟨_, mem_cons_self, rfl⟩
    · exact ⟨e, mem_cons_of_mem _ he', rfl⟩

theorem evict_keeps (h : c.Keyed) (key : String) : Keeps c (c.evict key).2 (c.evict key).1 := by
  unfold evict
  cases hfind : c.find key with
  | none => exact h.keeps_self
  | some found => exact h.keeps_others hfind

theorem drain_keeps (c : Cache α) : Keeps c c.drain.2 c.drain.1 := by
  refine ⟨nodup_nil, fun inst hinst => ?_, fun e he => .inl ?_⟩
  · exact mem_map.mp (mem_reverse.mp hinst)
  · exact mem_reverse.mpr (mem_map_of_mem he)

/-- The instances that a round of `Put` takes out of the cache. -/
def PutRound.gone : PutRound α → List α
  | .stored replaced => replaced.toList
  | .full oldest => [oldest]
  | .refused => []

/-- The three ways in which a round of `Put` ends. -/
theorem putLocked_cases (h : c.Keyed) (key : String) (inst : α) (now : ℤ) :
    (∃ replaced rest, c.putLocked key inst now =
        (.stored replaced, { c with entries := ⟨key, inst, now⟩ :: rest }) ∧
      Keeps c { c with entries := rest } replaced.toList ∧
        ∀ e ∈ rest, e ∈ c.entries ∧ e.key ≠ key) ∨
    (∃ oldest front, c.putLocked key inst now = (.full oldest, { c with entries := front }) ∧
      Keeps c { c with entries := front } [oldest] ∧ ∀ e ∈ front, e ∈ c.entries) ∨
    c.putLocked key inst now = (.refused, c) := by
  unfold putLocked
  split
  · exact .inr (.inr rfl)
  cases hfind : c.find key with
  | some found =>
    exact .inl ⟨some found.inst, c.others key, rfl, h.keeps_others hfind, fun _ => mem_others.mp⟩
  | none =>
    simp only
    split
    · exact .inl ⟨none, c.entries, rfl, h.keeps_self, fun e he => ⟨he, find_eq_none.mp hfind e he⟩⟩
    cases hlast : c.entries.getLast? with
    | none => exact .inr (.inr rfl)
    | some oldest =>
      have hsub := dropLast_sublist c.entries
      obtain ⟨front, hfront⟩ := getLast?_eq_some_iff.mp hlast
      refine .inr (.inl ⟨oldest.inst, _, rfl, ⟨(hsub.map _).nodup h, fun inst hinst => ?_,
        fun e he => ?_⟩, fun _ he => hsub.subset he⟩)
      · rw [mem_singleton.mp hinst]
        exact ⟨oldest, mem_of_getLast? hlast, rfl⟩
      rw [hfront, mem_append, mem_singleton] at he
      rcases he with he | rfl
      · refine .inr ⟨e, ?_, rfl⟩
        simpa only [hfront, dropLast_concat] using he
      · exact .inl (mem_singleton_self _)

end Cache

end Walrusd
