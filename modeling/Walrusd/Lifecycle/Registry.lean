import Walrusd.Error
import Walrusd.Identity
import Mathlib.Data.List.AList

/-!
# The registry of open databases

`runtime/runtime.go` keeps the registered databases in the map `dbs` and in the list `dbOrder`, the
most recently used one first, and counts the callers that use each of them. What `database`,
`releaseDatabase` and `Close` do while they hold the runtime's lock is one function each here. They
return the entries that the caller has to tear down once it has dropped the lock.

## Main definitions

* `Registry`, `Registry.database`, `Registry.releaseDatabase`, `Registry.close`.
* `Registry.Sound` — the map and the list agree and keep to the limit.
* `Registry.Dead` — evicted and without references.
* `Registry.Selects` — the entries to tear down are those that became dead.

## Main results

* `Registry.database_spec`, `Registry.releaseDatabase_spec`, `Registry.close_spec`.
-/

namespace Walrusd.Lifecycle

open Function List

/-- `Profile`: where a replica is stored, without the credentials. -/
structure Profile where
  provider : String
  endpoint : String
  region : String
  bucket : String
  rootPrefix : String
  fileRoot : String
  deriving DecidableEq, Repr

/-- The key under which a database is registered: its identity and its storage profile. -/
def databaseKey (db : DatabaseID) (p : Profile) : String :=
  db.string ++ "|" ++ p.provider ++ "|" ++ p.endpoint ++ "|" ++ p.region ++ "|" ++ p.bucket ++
    "|" ++ p.rootPrefix ++ "|" ++ p.fileRoot

/-- The fields of a `databaseEntry` that never change: its key, and its VFS, given by the number
that the registration drew. The other fields are kept in the registry. -/
structure DatabaseEntry where
  key : String
  vfs : ℕ
  deriving DecidableEq, Repr

/-- The fields of `Runtime` that the runtime's lock protects, with the mutable fields of the
entries and the counter of VFS names. -/
structure Registry where
  dbs : AList fun _ : String => DatabaseEntry
  dbOrder : List DatabaseEntry
  dbLimit : ℤ
  closed : Bool
  refs : DatabaseEntry → ℕ
  evicted : DatabaseEntry → Bool
  vfsSeq : ℕ

namespace Registry

/-- The registry of a new runtime; `max` is the configured number of read instances. -/
def new (max : ℤ) : Registry where
  dbs := ∅
  dbOrder := []
  dbLimit := if max ≤ 0 then 64 else max
  closed := false
  refs _ := 0
  evicted _ := false
  vfsSeq := 0

/-- `MoveToFront` of `container/list`. -/
def moveToFront (e : DatabaseEntry) (order : List DatabaseEntry) : List DatabaseEntry :=
  if e ∈ order then e :: order.erase e else order

/-- Use an entry that is registered. -/
def reuse (r : Registry) (e : DatabaseEntry) : Registry :=
  { r with
    dbOrder := moveToFront e r.dbOrder
    refs := update r.refs e (r.refs e + 1) }

/-- The entry that the next registration makes. -/
def nextEntry (r : Registry) (key : String) : DatabaseEntry := ⟨key, r.vfsSeq + 1⟩

/-- Register a new entry, with one reference. -/
def register (r : Registry) (key : String) : Registry :=
  { r with
    dbs := r.dbs.insert key (r.nextEntry key)
    dbOrder := r.nextEntry key :: r.dbOrder
    refs := update r.refs (r.nextEntry key) 1
    evicted := update r.evicted (r.nextEntry key) false
    vfsSeq := r.vfsSeq + 1 }

/-- Take the least recently used entry, the last one of the order, out of the map and the list. -/
def evictOldest (r : Registry) (oldest : DatabaseEntry) : Registry :=
  { r with
    dbs := r.dbs.erase oldest.key
    dbOrder := r.dbOrder.dropLast
    evicted := update r.evicted oldest true }

/-- The loop of `database` that evicts entries while there are too many, for at most `n` rounds:
the evicted entries without references. -/
def evictOver : ℕ → Registry → List DatabaseEntry × Registry
  | 0, r => ([], r)
  | n + 1, r =>
    if (r.dbs.keys.length : ℤ) > r.dbLimit then
      match r.dbOrder.getLast? with
      | none => ([], r)
      | some oldest =>
        let rest := evictOver n (r.evictOldest oldest)
        (if r.refs oldest = 0 then oldest :: rest.1 else rest.1, rest.2)
    else ([], r)

/-- `database` under the lock; `registration` is the error of `RegisterDatabase`. -/
def database (r : Registry) (key : String) (registration : Option Err) :
    Except Err (DatabaseEntry × List DatabaseEntry) × Registry :=
  if r.closed then (.error (.new .remoteUnavailable "runtime is closed" 0 ""), r)
  else
    match r.dbs.lookup key with
    | some e => (.ok (e, []), r.reuse e)
    | none =>
      match registration with
      | some err => (.error (.wrap .configurationInvalid "register vfs" "" err), r)
      | none =>
        let evicted := (r.register key).evictOver (r.register key).dbOrder.length
        (.ok (r.nextEntry key, evicted.1), evicted.2)

/-- `releaseDatabase` under the lock: whether the entry has to be torn down. There is no result
where the source panics. -/
def releaseDatabase (r : Registry) (e : DatabaseEntry) : Option (Bool × Registry) :=
  if r.refs e ≤ 0 then none
  else some (r.evicted e && r.refs e - 1 == 0, { r with refs := update r.refs e (r.refs e - 1) })

/-- `Close` under the lock: the entries without references, or nothing when the runtime is closed
already. -/
def close (r : Registry) : Option (List DatabaseEntry) × Registry :=
  if r.closed then (none, r)
  else (some (r.dbOrder.filter fun e => r.refs e = 0),
    { r with
      closed := true
      evicted := fun e => if e ∈ r.dbOrder then true else r.evicted e
      dbs := ∅
      dbOrder := [] })

/-! ### Invariants -/

/-- The map and the list hold the same entries once each, none of them evicted, and the counter is
ahead of every entry. -/
structure Consistent (r : Registry) : Prop where
  agree : ∀ key e, r.dbs.lookup key = some e ↔ e ∈ r.dbOrder ∧ e.key = key
  nodup : r.dbOrder.Nodup
  listed : ∀ e ∈ r.dbOrder, r.evicted e = false
  fresh : ∀ e, r.vfsSeq < e.vfs → e ∉ r.dbOrder ∧ r.refs e = 0 ∧ r.evicted e = false
  limit : 0 < r.dbLimit

/-- A consistent registry that keeps to its limit. -/
structure Sound (r : Registry) : Prop extends Consistent r where
  bounded : (r.dbOrder.length : ℤ) ≤ r.dbLimit

/-- Evicted and without references: the entry has to be torn down. -/
def Dead (r : Registry) (e : DatabaseEntry) : Prop := r.evicted e = true ∧ r.refs e = 0

/-- The step from `r` to `r'` hands out the entries of `es`, which are those that it made dead. -/
structure Selects (r r' : Registry) (es : List DatabaseEntry) : Prop where
  nodup : es.Nodup
  alive : ∀ e ∈ es, ¬ r.Dead e
  dead : ∀ e, r'.Dead e ↔ r.Dead e ∨ e ∈ es

variable {r r' : Registry} {es : List DatabaseEntry} {e : DatabaseEntry} {key : String}
  {registration : Option Err}

theorem Selects.of_dead_iff (h : ∀ e, r'.Dead e ↔ r.Dead e) :
    Selects r r' [] where
  nodup := nodup_nil
  alive e he := nomatch he
  dead e := by simp [h e]

theorem Selects.trans {r'' : Registry} {es' : List DatabaseEntry} (h : Selects r r' es)
    (h' : Selects r' r'' es') : Selects r r'' (es ++ es') where
  nodup := by
    refine nodup_append.mpr ⟨h.nodup, h'.nodup, fun e he e' he' hee => ?_⟩
    subst hee
    exact h'.alive e he' ((h.dead e).mpr (.inr he))
  alive e he := by
    rcases mem_append.mp he with he | he
    · exact h.alive e he
    · exact fun hdead => h'.alive e he ((h.dead e).mpr (.inl hdead))
  dead e := by rw [h'.dead, h.dead, mem_append, or_assoc]

theorem Consistent.size (h : r.Consistent) : r.dbs.keys.length = r.dbOrder.length := by
  have hkeys : (r.dbOrder.map DatabaseEntry.key).Nodup := by
    refine (nodup_map_iff_inj_on h.nodup).mpr fun e he e' he' hkey => ?_
    have h₁ := (h.agree e'.key e).mpr ⟨he, hkey⟩
    have h₂ := (h.agree e'.key e').mpr ⟨he', rfl⟩
    exact Option.some.inj (h₁.symm.trans h₂)
  have hperm : r.dbs.keys.Perm (r.dbOrder.map DatabaseEntry.key) := by
    refine (perm_ext_iff_of_nodup r.dbs.keys_nodup hkeys).mpr fun key => ?_
    rw [← AList.mem_keys, ← AList.lookup_isSome, Option.isSome_iff_exists, mem_map]
    exact exists_congr fun e => h.agree key e
  rw [hperm.length_eq, length_map]

theorem new_sound (max : ℤ) : (new max).Sound where
  agree key e := by simp [new]
  nodup := nodup_nil
  listed e he := nomatch he
  fresh e _ := ⟨not_mem_nil, rfl, rfl⟩
  limit := by
    simp only [new]
    split <;> omega
  bounded := by
    simp only [new, length_nil]
    split <;> omega

theorem not_dead_new (max : ℤ) (e : DatabaseEntry) : ¬ (new max).Dead e := fun h => nomatch h.1

/-! ### Reusing and registering -/

theorem mem_moveToFront {e' : DatabaseEntry} {order : List DatabaseEntry} :
    e' ∈ moveToFront e order ↔ e' ∈ order := by
  unfold moveToFront
  split
  · next he =>
    rw [mem_cons]
    constructor
    · rintro (rfl | h)
      · exact he
      · exact mem_of_mem_erase h
    intro h
    by_cases hee : e' = e
    · exact .inl hee
    · exact .inr ((mem_erase_of_ne hee).mpr h)
  · rfl

theorem moveToFront_nodup {order : List DatabaseEntry} (h : order.Nodup) :
    (moveToFront e order).Nodup := by
  unfold moveToFront
  split
  · exact nodup_cons.mpr ⟨h.not_mem_erase, h.erase e⟩
  · exact h

theorem length_moveToFront (e : DatabaseEntry) (order : List DatabaseEntry) :
    (moveToFront e order).length = order.length := by
  unfold moveToFront
  split
  · next he => rw [length_cons, length_erase_of_mem he, Nat.sub_add_cancel (length_pos_of_mem he)]
  · rfl

theorem Sound.reuse (h : r.Sound) (he : e ∈ r.dbOrder) :
    (r.reuse e).Sound where
  agree key e' := by
    rw [show (r.reuse e).dbs = r.dbs from rfl, h.agree key e']
    exact and_congr_left' mem_moveToFront.symm
  nodup := moveToFront_nodup h.nodup
  listed e' he' := h.listed e' (mem_moveToFront.mp he')
  fresh e' hseq := by
    obtain ⟨hmem, hrefs, hevicted⟩ := h.fresh e' hseq
    have hne : e' ≠ e := by
      rintro rfl
      exact hmem he
    refine ⟨fun hmem' => hmem (mem_moveToFront.mp hmem'), ?_, hevicted⟩
    simpa only [Registry.reuse, update_of_ne hne] using hrefs
  limit := h.limit
  bounded := by
    simp only [Registry.reuse, length_moveToFront]
    exact h.bounded

theorem reuse_selects (h : r.Consistent) (he : e ∈ r.dbOrder) : Selects r (r.reuse e) [] := by
  refine .of_dead_iff fun e' => ?_
  by_cases hee : e' = e
  · subst hee
    simp [Dead, reuse, h.listed e' he]
  · simp [Dead, reuse, update_of_ne hee]

theorem Consistent.nextEntry (h : r.Consistent) (key : String) :
    r.nextEntry key ∉ r.dbOrder ∧ r.refs (r.nextEntry key) = 0 ∧
      r.evicted (r.nextEntry key) = false :=
  h.fresh _ (Nat.lt_succ_self r.vfsSeq)

theorem Consistent.register (h : r.Consistent) (hkey : r.dbs.lookup key = none) :
    (r.register key).Consistent where
  agree key' e := by
    simp only [Registry.register, mem_cons]
    by_cases hkk : key' = key
    · subst hkk
      rw [AList.lookup_insert, Option.some.injEq]
      constructor
      · rintro rfl
        exact ⟨.inl rfl, rfl⟩
      rintro ⟨rfl | he, hekey⟩
      · rfl
      · rw [(h.agree key' e).mpr ⟨he, hekey⟩] at hkey
        cases hkey
    · rw [AList.lookup_insert_ne hkk, h.agree key' e]
      refine ⟨fun he => ⟨.inr he.1, he.2⟩, ?_⟩
      rintro ⟨rfl | he, hekey⟩
      · exact absurd hekey.symm hkk
      · exact ⟨he, hekey⟩
  nodup := nodup_cons.mpr ⟨(h.nextEntry key).1, h.nodup⟩
  listed e he := by
    simp only [Registry.register] at he ⊢
    by_cases hee : e = r.nextEntry key
    · rw [hee, update_self]
    · rw [update_of_ne hee]
      exact h.listed e ((mem_cons.mp he).resolve_left hee)
  fresh e hseq := by
    simp only [Registry.register] at hseq ⊢
    have hne : e ≠ r.nextEntry key := by
      rintro rfl
      exact Nat.lt_irrefl _ hseq
    obtain ⟨hmem, hrefs, hevicted⟩ := h.fresh e (by omega)
    rw [update_of_ne hne, update_of_ne hne]
    exact ⟨fun he => (mem_cons.mp he).elim hne hmem, hrefs, hevicted⟩
  limit := h.limit

theorem register_selects (h : r.Consistent) (key : String) : Selects r (r.register key) [] := by
  refine .of_dead_iff fun e => ?_
  by_cases hee : e = r.nextEntry key
  · subst hee
    simp [Dead, register, (h.nextEntry key).2.2]
  · simp [Dead, register, update_of_ne hee]

/-! ### Evicting -/

theorem Consistent.evictOldest (h : r.Consistent) {oldest : DatabaseEntry}
    (hlast : r.dbOrder.getLast? = some oldest) : (r.evictOldest oldest).Consistent := by
  obtain ⟨order, horder⟩ := getLast?_eq_some_iff.mp hlast
  have hdrop : r.dbOrder.dropLast = order := by rw [horder, dropLast_concat]
  have hnodup := h.nodup
  rw [horder, nodup_append] at hnodup
  have hne {e : DatabaseEntry} (he : e ∈ order) : e ≠ oldest :=
    hnodup.2.2 e he oldest (mem_singleton_self oldest)
  have hmem {e : DatabaseEntry} : e ∈ r.dbOrder ↔ e ∈ order ∨ e = oldest := by
    rw [horder, mem_append, mem_singleton]
  refine ⟨fun key e => ?_, ?_, fun e he => ?_, fun e hseq => ?_, h.limit⟩
  · simp only [Registry.evictOldest, hdrop]
    by_cases hkey : key = oldest.key
    · subst hkey
      rw [AList.lookup_erase]
      refine ⟨nofun, fun ⟨he, hekey⟩ => ?_⟩
      have h₁ := (h.agree _ e).mpr ⟨hmem.mpr (.inl he), hekey⟩
      have h₂ := (h.agree _ oldest).mpr ⟨hmem.mpr (.inr rfl), rfl⟩
      exact absurd (Option.some.inj (h₁.symm.trans h₂)) (hne he)
    · rw [AList.lookup_erase_ne hkey, h.agree key e, hmem]
      refine ⟨?_, fun he => ⟨.inl he.1, he.2⟩⟩
      rintro ⟨he | rfl, hekey⟩
      · exact ⟨he, hekey⟩
      · exact absurd hekey.symm hkey
  · simpa only [Registry.evictOldest, hdrop] using hnodup.1
  · simp only [Registry.evictOldest, hdrop] at he ⊢
    rw [update_of_ne (hne he)]
    exact h.listed e (hmem.mpr (.inl he))
  · simp only [Registry.evictOldest, hdrop]
    obtain ⟨hnot, hrefs, hevicted⟩ := h.fresh e hseq
    have heo : e ≠ oldest := by
      rintro rfl
      exact hnot (hmem.mpr (.inr rfl))
    rw [update_of_ne heo]
    exact ⟨fun he => hnot (hmem.mpr (.inl he)), hrefs, hevicted⟩

theorem evictOldest_selects (h : r.Consistent) {oldest : DatabaseEntry}
    (hlast : r.dbOrder.getLast? = some oldest) :
    Selects r (r.evictOldest oldest) (if r.refs oldest = 0 then [oldest] else []) where
  nodup := by split <;> simp
  alive e he := by
    have hlisted := h.listed oldest (mem_of_getLast? hlast)
    split at he
    · rw [mem_singleton.mp he]
      exact fun hdead => nomatch hlisted.symm.trans hdead.1
    · cases he
  dead e := by
    by_cases hee : e = oldest
    · subst hee
      simp only [Dead, Registry.evictOldest, update_self, h.listed e (mem_of_getLast? hlast)]
      split <;> simp_all
    · simp only [Dead, Registry.evictOldest, update_of_ne hee]
      split <;> simp [hee]

/-- What the eviction loop keeps: it works through the list, one entry in a round. -/
theorem evictOver_spec {n : ℕ} (h : r.Consistent) (hn : r.dbOrder.length ≤ n) :
    (evictOver n r).2.Sound ∧ Selects r (evictOver n r).2 (evictOver n r).1 ∧
      (evictOver n r).2.refs = r.refs := by
  have hstay (hsize : (r.dbOrder.length : ℤ) ≤ r.dbLimit) :
      r.Sound ∧ Selects r r [] ∧ r.refs = r.refs :=
    ⟨⟨h, hsize⟩, .of_dead_iff fun _ => Iff.rfl, rfl⟩
  induction n generalizing r with
  | zero =>
    refine hstay ?_
    have hlimit := h.limit
    omega
  | succ n ih =>
    simp only [evictOver]
    split
    · split
      · next hlast =>
        refine hstay ?_
        rw [getLast?_eq_none_iff.mp hlast]
        exact Int.le_of_lt h.limit
      · next hsize oldest hlast =>
        have h' := h.evictOldest hlast
        have hn' : (r.evictOldest oldest).dbOrder.length ≤ n := by
          simp only [Registry.evictOldest, length_dropLast]
          omega
        obtain ⟨hsound, hselects, hrefs⟩ := ih h' hn' fun hsize' =>
          ⟨⟨h', hsize'⟩, .of_dead_iff fun _ => Iff.rfl, rfl⟩
        refine ⟨hsound, ?_, hrefs⟩
        have hboth := (evictOldest_selects h hlast).trans hselects
        simp only
        split at hboth <;> simp_all
    · next hsize =>
      refine hstay ?_
      rw [← h.size]
      omega

theorem mem_evictOver {n : ℕ} (he : e ∈ (evictOver n r).2.dbOrder) : e ∈ r.dbOrder := by
  induction n generalizing r with
  | zero => exact he
  | succ n ih =>
    simp only [evictOver] at he
    split at he
    · split at he
      · exact he
      · exact mem_of_mem_dropLast (ih he)
    · exact he

/-! ### The three critical sections -/

/-- `database` counts the caller as a holder of the entry that it returns, and hands out the
entries that it made dead. -/
theorem database_spec (h : r.Sound) (hdb : r.database key registration = (.ok (e, es), r')) :
    r'.Sound ∧ Selects r r' es ∧ r'.refs = update r.refs e (r.refs e + 1) := by
  unfold database at hdb
  split at hdb
  · cases hdb
  split at hdb
  · next e' hlookup =>
    obtain ⟨hok, rfl⟩ := Prod.mk.inj hdb
    obtain ⟨rfl, rfl⟩ := Prod.mk.inj (Except.ok.inj hok)
    have hmem := ((h.agree key e').mp hlookup).1
    exact ⟨h.reuse hmem, reuse_selects h.toConsistent hmem, rfl⟩
  · next hlookup =>
    split at hdb
    · cases hdb
    obtain ⟨hok, rfl⟩ := Prod.mk.inj hdb
    obtain ⟨rfl, rfl⟩ := Prod.mk.inj (Except.ok.inj hok)
    obtain ⟨hsound, hselects, hrefs⟩ :=
      evictOver_spec (h.toConsistent.register hlookup) (Nat.le_refl _)
    refine ⟨hsound, (register_selects h.toConsistent key).trans hselects, ?_⟩
    rw [hrefs, (h.toConsistent.nextEntry key).2.1]
    rfl

/-- The entry that `database` returns is the one of its key, or a new one, and no other one is
new. -/
theorem database_entry (h : r.Consistent) (hdb : r.database key registration = (.ok (e, es), r')) :
    e.key = key ∧ (∀ e' ∈ r'.dbOrder, e' = e ∨ e' ∈ r.dbOrder) ∧
      (r.dbs.lookup key = none ∨ r.dbs.lookup key = some e ∧ e ∈ r.dbOrder) := by
  unfold database at hdb
  split at hdb
  · cases hdb
  split at hdb
  · next e' hlookup =>
    obtain ⟨hok, rfl⟩ := Prod.mk.inj hdb
    obtain ⟨rfl, -⟩ := Prod.mk.inj (Except.ok.inj hok)
    obtain ⟨hmem, hkey⟩ := (h.agree key e').mp hlookup
    exact ⟨hkey, fun e he => .inr (mem_moveToFront.mp he), .inr ⟨hlookup, hmem⟩⟩
  · next hlookup =>
    split at hdb
    · cases hdb
    obtain ⟨hok, rfl⟩ := Prod.mk.inj hdb
    obtain ⟨rfl, -⟩ := Prod.mk.inj (Except.ok.inj hok)
    exact ⟨rfl, fun e he => mem_cons.mp (mem_evictOver he), .inl hlookup⟩

theorem database_error {err : Err} (hdb : r.database key registration = (.error err, r')) :
    r' = r := by
  unfold database at hdb
  split at hdb
  · exact (Prod.mk.inj hdb).2.symm
  split at hdb
  · cases hdb
  split at hdb
  · exact (Prod.mk.inj hdb).2.symm
  · cases hdb

/-- `releaseDatabase` drops one reference, and asks for a teardown when that made the entry
dead. -/
theorem releaseDatabase_spec (h : r.Sound) {b : Bool} (hrel : r.releaseDatabase e = some (b, r')) :
    r'.Sound ∧ Selects r r' (if b then [e] else []) ∧
      0 < r.refs e ∧ r'.refs = update r.refs e (r.refs e - 1) := by
  unfold releaseDatabase at hrel
  split at hrel
  · cases hrel
  next hpos =>
  cases hrel
  refine ⟨⟨⟨h.agree, h.nodup, h.listed, fun e' hseq => ?_, h.limit⟩, h.bounded⟩, ?_, by omega, rfl⟩
  · obtain ⟨hmem, hrefs, hevicted⟩ := h.fresh e' hseq
    have hne : e' ≠ e := by
      rintro rfl
      omega
    refine ⟨hmem, ?_, hevicted⟩
    simp only
    rw [update_of_ne hne, hrefs]
  · constructor
    · split <;> simp
    · intro e' he'
      split at he'
      · rw [mem_singleton.mp he']
        exact fun hdead => hpos hdead.2.le
      · cases he'
    · intro e'
      by_cases hee : e' = e
      · subst hee
        have hrefs : r.refs e' ≠ 0 := by omega
        simp only [Dead, update_self, hrefs, and_false, false_or]
        cases r.evicted e' <;> cases hone : (r.refs e' - 1 == 0) <;> simp_all
      · simp only [Dead, update_of_ne hee]
        split <;> simp [hee]

/-- `Close` evicts every entry and hands out those without references. -/
theorem close_spec (h : r.Sound) (hclose : r.close = (some es, r')) :
    r'.Sound ∧ Selects r r' es ∧ r'.refs = r.refs := by
  unfold close at hclose
  split at hclose
  · cases hclose
  obtain ⟨hes, rfl⟩ := Prod.mk.inj hclose
  cases hes
  refine ⟨⟨⟨fun key e => by simp, nodup_nil, nofun, fun e hseq => ?_, h.limit⟩, ?_⟩, ?_, rfl⟩
  · obtain ⟨hmem, hrefs, hevicted⟩ := h.fresh e hseq
    exact ⟨not_mem_nil, hrefs, by simp [hmem, hevicted]⟩
  · exact Int.le_of_lt h.limit
  constructor
  · exact h.nodup.filter _
  · intro e he hdead
    exact nomatch (h.listed e (mem_filter.mp he).1).symm.trans hdead.1
  intro e
  by_cases he : e ∈ r.dbOrder
  · simp [Dead, he, h.listed e he]
  · simp [Dead, he]

theorem close_none (hclose : r.close = (none, r')) : r' = r := by
  unfold close at hclose
  split at hclose
  · exact (Prod.mk.inj hclose).2.symm
  · cases hclose

end Registry

end Walrusd.Lifecycle
