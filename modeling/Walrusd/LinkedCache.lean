import Walrusd.Cache
import Walrusd.Program.LinkedMap

/-!
# The read-instance cache as it is kept in memory

The cache of `cache/cache.go` with its map and its list, which every operation updates one after the
other. It refines `Cache`, in which the entries are one list. A sequence of operations is recorded
together with the instances that were closed and the uses of the instances, so that it can be said
which instance was put last, used last, and why it left the cache. The clock may show anything.

## Main definitions

* `LinkedCache`, with `get`, `put`, `evict` and `close`.
* `LinkedCache.Refines`.
* `CacheOp`, `CacheLog` — a sequence of operations, and what it did.

## Main results

* `LinkedCache.Refines.apply` — each operation refines that of `Cache`.
* `LinkedCache.readCache_lawful`.
-/

namespace Walrusd

open Program List

/-- The fields of `Cache`: an element holds an instance and the time of its last use. -/
structure LinkedCache (α : Type) where
  max : ℤ
  idleTTL : ℤ
  cells : LinkedMap String (α × ℤ)

namespace LinkedCache

variable {α : Type}

/-- `New`: an empty cache. -/
def new (max idleTTL : ℤ) : LinkedCache α := ⟨max, idleTTL, .empty⟩

/-- Caching is disabled when one of the bounds is not positive. -/
def disabled (c : LinkedCache α) : Bool := c.max ≤ 0 || c.idleTTL ≤ 0

/-- `Get`, which reads the clock once for the idle time and once more for the time of use: the
instance, what is closed, and the cache. -/
def get (c : LinkedCache α) (key : String) (now used : ℤ) :
    Option α × List α × LinkedCache α :=
  if c.disabled then (none, [], c)
  else
    match c.cells.find key with
    | none => (none, [], c)
    | some el =>
      if now - el.value.2 > c.idleTTL then
        (none, [el.value.1], { c with cells := c.cells.remove key el.ptr })
      else
        (some el.value.1, [],
          { c with cells := (c.cells.set el.ptr (el.value.1, used)).moveToFront el.ptr })

/-- One round of `Put`, under the lock. -/
def putLocked (c : LinkedCache α) (key : String) (inst : α) (now : ℤ) :
    Cache.PutRound α × LinkedCache α :=
  if c.disabled then (.refused, c)
  else
    match c.cells.find key with
    | some el =>
      (.stored (some el.value.1),
        { c with cells := (c.cells.remove key el.ptr).pushFront key (inst, now) })
    | none =>
      if c.cells.entries.keys.length < c.max then
        (.stored none, { c with cells := c.cells.pushFront key (inst, now) })
      else
        match c.cells.back with
        | none => (.refused, c)
        | some el => (.full el.value.1, { c with cells := c.cells.remove el.key el.ptr })

/-- At most `n` rounds of `Put`: what is closed, and the cache. -/
def putRounds (key : String) (inst : α) (now : ℤ) : ℕ → LinkedCache α → List α × LinkedCache α
  | 0, c => ([], c)
  | n + 1, c =>
    match c.putLocked key inst now with
    | (.stored replaced, c') => (replaced.toList, c')
    | (.refused, c') => ([inst], c')
    | (.full oldest, c') =>
      let rest := putRounds key inst now n c'
      (oldest :: rest.1, rest.2)

/-- `Put`: a round that does not store the instance removes an element, so that there is one round
more than elements at most. -/
def put (c : LinkedCache α) (key : String) (inst : α) (now : ℤ) : List α × LinkedCache α :=
  putRounds key inst now (c.cells.order.length + 1) c

/-- `Evict`: remove and close the instance of a key. -/
def evict (c : LinkedCache α) (key : String) : List α × LinkedCache α :=
  match c.cells.find key with
  | none => ([], c)
  | some el => ([el.value.1], { c with cells := c.cells.remove key el.ptr })

/-- At most `n` rounds of the loop of `Close`. -/
def drainRounds : ℕ → LinkedCache α → List α × LinkedCache α
  | 0, c => ([], c)
  | n + 1, c =>
    match c.cells.back with
    | none => ([], c)
    | some el =>
      let rest := drainRounds n { c with cells := c.cells.remove el.key el.ptr }
      (el.value.1 :: rest.1, rest.2)

/-- `Close`: remove and close every instance. -/
def close (c : LinkedCache α) : List α × LinkedCache α := drainRounds c.cells.order.length c

end LinkedCache

/-! ### Refinement -/

namespace Cache

variable {α : Type}

/-- `Get` with a second reading of the clock. -/
def getAt (c : Cache α) (key : String) (now used : ℤ) : Option α × List α × Cache α :=
  if c.disabled then (none, [], c)
  else
    match c.find key with
    | none => (none, [], c)
    | some e =>
      if now - e.lastUsed > c.idleTTL then (none, [e.inst], { c with entries := c.others key })
      else (some e.inst, [], { c with entries := { e with lastUsed := used } :: c.others key })

theorem getAt_eq_some {c : Cache α} {key : String} {now used : ℤ} {inst : α}
    (h : (c.getAt key now used).1 = some inst) :
    ∃ e, c.find key = some e ∧ e.inst = inst ∧ now - e.lastUsed ≤ c.idleTTL := by
  unfold getAt at h
  split at h
  · cases h
  split at h
  · cases h
  · next e he =>
    split at h
    · cases h
    · next hidle => exact ⟨e, he, Option.some.inj h, not_lt.mp hidle⟩

end Cache

namespace LinkedCache

variable {α : Type}

/-- An entry as the list has it. -/
abbrev cell (e : Cache.Entry α) : String × α × ℤ := (e.key, e.inst, e.lastUsed)

/-- The map and the list agree, and the entries are those of `a`. -/
structure Refines (c : LinkedCache α) (a : Cache α) : Prop where
  cells : c.cells.Shows cell a.entries
  max : c.max = a.max
  idleTTL : c.idleTTL = a.idleTTL

theorem refines_new (max idleTTL : ℤ) :
    Refines (new max idleTTL : LinkedCache α) (.new max idleTTL) :=
  ⟨⟨LinkedMap.linked_empty, rfl⟩, rfl, rfl⟩

namespace Refines

variable {c : LinkedCache α} {a : Cache α} (h : c.Refines a) {k : String}
  {el : LinkedMap.Element String (α × ℤ)}
include h

theorem keyed : a.Keyed := h.cells.nodup

theorem disabled_eq : c.disabled = a.disabled := by
  rw [disabled, Cache.disabled, h.max, h.idleTTL]

theorem find_eq_some (hk : c.cells.find k = some el) :
    a.find k = some ⟨k, el.value.1, el.value.2⟩ := by
  obtain ⟨e, he, heq⟩ := h.cells.exists_of_find hk
  obtain ⟨hkey, hvalue⟩ := Prod.mk.inj heq
  refine (find?_eq_some_iff_of_nodup h.keyed).mpr ⟨?_, rfl⟩
  rwa [← hkey, ← hvalue]

theorem find_eq_none (hk : c.cells.find k = none) : a.find k = none :=
  Cache.find_eq_none.mpr (h.cells.ne_of_find hk)

theorem remove (hk : c.cells.find k = some el) :
    Refines { c with cells := c.cells.remove k el.ptr } { a with entries := a.others k } :=
  ⟨h.cells.remove hk, h.max, h.idleTTL⟩

theorem getAt (k : String) (now used : ℤ) :
    (c.get k now used).1 = (a.getAt k now used).1 ∧
    (c.get k now used).2.1 = (a.getAt k now used).2.1 ∧
    Refines (c.get k now used).2.2 (a.getAt k now used).2.2 := by
  unfold LinkedCache.get Cache.getAt
  rw [h.disabled_eq]
  split
  · exact ⟨rfl, rfl, h⟩
  cases hk : c.cells.find k with
  | none =>
    rw [h.find_eq_none hk]
    exact ⟨rfl, rfl, h⟩
  | some el =>
    rw [h.find_eq_some hk]
    by_cases hidle : now - el.value.2 > c.idleTTL
    · simp only [if_pos hidle, if_pos (h.idleTTL ▸ hidle)]
      exact ⟨trivial, trivial, h.remove hk⟩
    · simp only [if_neg hidle, if_neg (h.idleTTL ▸ hidle)]
      exact ⟨trivial, trivial, h.cells.set_moveToFront hk rfl, h.max, h.idleTTL⟩

theorem evict (k : String) :
    (c.evict k).1 = (a.evict k).1 ∧ Refines (c.evict k).2 (a.evict k).2 := by
  unfold LinkedCache.evict Cache.evict
  cases hk : c.cells.find k with
  | none =>
    rw [h.find_eq_none hk]
    exact ⟨rfl, h⟩
  | some el =>
    rw [h.find_eq_some hk]
    exact ⟨rfl, h.remove hk⟩

theorem putLocked (k : String) (inst : α) (now : ℤ) :
    (c.putLocked k inst now).1 = (a.putLocked k inst now).1 ∧
      Refines (c.putLocked k inst now).2 (a.putLocked k inst now).2 := by
  unfold LinkedCache.putLocked Cache.putLocked
  rw [h.disabled_eq]
  split
  · exact ⟨rfl, h⟩
  cases hk : c.cells.find k with
  | some el =>
    rw [h.find_eq_some hk]
    have hnone := h.cells.linked.find_remove hk
    exact ⟨rfl, (h.cells.remove hk).pushFront hnone rfl, h.max, h.idleTTL⟩
  | none =>
    rw [h.find_eq_none hk]
    have hlength : (c.cells.entries.keys.length : ℤ) = a.entries.length := by
      rw [h.cells.linked.length_keys, h.cells.toList, length_map]
    by_cases hroom : (c.cells.entries.keys.length : ℤ) < c.max
    · have hroom' : (a.entries.length : ℤ) < a.max := by rwa [← hlength, ← h.max]
      simp only [if_pos hroom, if_pos hroom']
      exact ⟨trivial, h.cells.pushFront hk rfl, h.max, h.idleTTL⟩
    have hroom' : ¬ (a.entries.length : ℤ) < a.max := by rwa [← hlength, ← h.max]
    simp only [if_neg hroom, if_neg hroom']
    cases hback : c.cells.back with
    | none =>
      rw [h.cells.eq_nil_of_back hback]
      exact ⟨rfl, h⟩
    | some el =>
      obtain ⟨front, last, hfront, hlast, hshows⟩ := h.cells.removeBack hback
      obtain ⟨-, hvalue⟩ := Prod.mk.inj hlast
      simp only [hfront, getLast?_concat, dropLast_concat, ← hvalue]
      exact ⟨trivial, hshows, h.max, h.idleTTL⟩

omit h in
theorem putRounds (k : String) (inst : α) (now : ℤ) (n : ℕ) {c : LinkedCache α} {a : Cache α}
    (h : c.Refines a) :
    (LinkedCache.putRounds k inst now n c).1 = (Cache.putRounds k inst now n a).1 ∧
      Refines (LinkedCache.putRounds k inst now n c).2 (Cache.putRounds k inst now n a).2 := by
  induction n generalizing c a with
  | zero => exact ⟨rfl, h⟩
  | succ n ih =>
    obtain ⟨hround, hrefines⟩ := h.putLocked k inst now
    unfold LinkedCache.putRounds Cache.putRounds
    generalize c.putLocked k inst now = p at hround hrefines
    generalize a.putLocked k inst now = q at hround hrefines
    obtain ⟨round, c'⟩ := p
    obtain ⟨round', a'⟩ := q
    obtain rfl : round = round' := hround
    cases round with
    | stored replaced => exact ⟨rfl, hrefines⟩
    | refused => exact ⟨rfl, hrefines⟩
    | full oldest =>
      obtain ⟨hgone, hrest⟩ := ih hrefines
      exact ⟨congrArg (oldest :: ·) hgone, hrest⟩

/-- `Put` closes what `Cache.put` closes, the least recently used instance first. -/
theorem put (k : String) (inst : α) (now : ℤ) :
    (c.put k inst now).1 = (a.put k inst now).1.reverse ∧
      Refines (c.put k inst now).2 (a.put k inst now).2 := by
  have hrounds := putRounds k inst now (c.cells.order.length + 1) h
  rw [Cache.putRounds_eq (by rw [h.cells.length_order]; exact Nat.lt_succ_self _)] at hrounds
  exact hrounds

theorem close : (c.close).1 = a.drain.1 ∧ Refines c.close.2 a.drain.2 := by
  have hloop : ∀ (n : ℕ) (c : LinkedCache α) (a : Cache α), c.Refines a → a.entries.length = n →
      (drainRounds n c).1 = a.drain.1 ∧ Refines (drainRounds n c).2 a.drain.2 := by
    intro n
    induction n with
    | zero =>
      intro c a h hn
      have hnil : a.entries = [] := length_eq_zero_iff.mp hn
      have hcells := h.cells
      rw [hnil] at hcells
      exact ⟨by rw [Cache.drain, hnil]; rfl, hcells, h.max, h.idleTTL⟩
    | succ n ih =>
      intro c a h hn
      cases hback : c.cells.back with
      | none =>
        rw [h.cells.eq_nil_of_back hback] at hn
        cases hn
      | some el =>
        obtain ⟨front, last, hfront, hlast, hshows⟩ := h.cells.removeBack hback
        obtain ⟨-, hvalue⟩ := Prod.mk.inj hlast
        have hrefines : Refines { c with cells := c.cells.remove el.key el.ptr }
            { a with entries := front } := ⟨hshows, h.max, h.idleTTL⟩
        obtain ⟨hgone, hrest⟩ := ih _ _ hrefines (by simpa [hfront] using hn)
        unfold drainRounds
        rw [hback]
        refine ⟨?_, hrest⟩
        simp only [hgone, ← hvalue, Cache.drain, hfront, map_append, map_cons,
          map_nil, reverse_append, reverse_singleton, singleton_append]
  rw [LinkedCache.close, h.cells.length_order]
  exact hloop _ c a h rfl

end Refines

end LinkedCache

/-! ### Sequences of operations -/

/-- An operation, with what the clock shows when it reads it. -/
inductive CacheOp (α : Type)
  | put (inst : α) (now : ℤ)
  | get (key : String) (now used : ℤ)
  | evict (key : String)
  | close

/-- What an operation returns and closes, and the cache after it. -/
structure CacheEffect (σ α : Type) where
  result : Option α
  closed : List α
  cache : σ

/-- The cache after some operations, the instances that they have closed and those that they have
used, with the times; the newest come first. -/
structure CacheLog (σ α : Type) where
  cache : σ
  closed : List α
  uses : List (α × ℤ)

/-- The use of an instance by an operation with the given result. -/
def CacheOp.uses {α : Type} : CacheOp α → Option α → List (α × ℤ)
  | .put inst now, _ => [(inst, now)]
  | .get _ _ used, result => result.toList.map fun inst => (inst, used)
  | .evict _, _ | .close, _ => []

/-- The instances that are put, the last one first. -/
def CacheOp.puts {α : Type} (ops : List (CacheOp α)) : List α :=
  (ops.filterMap fun
    | .put inst _ => some inst
    | _ => none).reverse

namespace CacheLog

variable {σ α : Type}

/-- One more operation. -/
def after (h : CacheLog σ α) (op : CacheOp α) (e : CacheEffect σ α) : CacheLog σ α :=
  ⟨e.cache, e.closed ++ h.closed, op.uses e.result ++ h.uses⟩

/-- The log of a sequence of operations on a cache. -/
def run (apply : σ → CacheOp α → CacheEffect σ α) (s : σ) (ops : List (CacheOp α)) : CacheLog σ α :=
  ops.foldl (fun h op => h.after op (apply h.cache op)) ⟨s, [], []⟩

theorem run_concat (apply : σ → CacheOp α → CacheEffect σ α) (s : σ) (ops : List (CacheOp α))
    (op : CacheOp α) :
    run apply s (ops ++ [op]) = (run apply s ops).after op (apply (run apply s ops).cache op) := by
  simp [run]

variable [DecidableEq α]

/-- The time of the last use of an instance. -/
def lastUse (h : CacheLog σ α) (inst : α) : Option ℤ :=
  (h.uses.find? fun u => u.1 = inst).map Prod.snd

end CacheLog

/-- The operation evicts or displaces an instance, given the time of its last use, or finds it idle
for too long. -/
def CacheOp.Removes {α : Type} (key : α → String) (idleTTL : ℤ) (inst : α) (lastUse : Option ℤ) :
    CacheOp α → Prop
  | .put inst' _ => key inst' ≠ key inst
  | .get k now _ => k = key inst ∧ ∃ t, lastUse = some t ∧ idleTTL < now - t
  | .evict k => k = key inst
  | .close => True

/-- One of the operations has evicted or displaced an instance, or has found it idle for too long,
and closed it. -/
def CacheLog.Lost {σ α : Type} [DecidableEq α] (apply : σ → CacheOp α → CacheEffect σ α) (s : σ)
    (key : α → String) (idleTTL : ℤ) (ops : List (CacheOp α)) (inst : α) : Prop :=
  ∃ before op after, ops = before ++ op :: after ∧
    inst ∈ (apply (run apply s before).cache op).closed ∧
    op.Removes key idleTTL inst ((run apply s before).lastUse inst)

theorem CacheLog.Lost.concat {σ α : Type} [DecidableEq α] {apply : σ → CacheOp α → CacheEffect σ α}
    {s : σ} {key : α → String} {idleTTL : ℤ} {ops : List (CacheOp α)} {inst : α}
    (h : Lost apply s key idleTTL ops inst) (op : CacheOp α) :
    Lost apply s key idleTTL (ops ++ [op]) inst := by
  obtain ⟨before, op', after, rfl, hlost⟩ := h
  exact ⟨before, op', after ++ [op], by simp, hlost⟩

/-- What is lost is closed. -/
theorem CacheLog.Lost.mem_closed {σ α : Type} [DecidableEq α]
    {apply : σ → CacheOp α → CacheEffect σ α} {s : σ} {key : α → String} {idleTTL : ℤ}
    {ops : List (CacheOp α)} {inst : α} (h : Lost apply s key idleTTL ops inst) :
    inst ∈ (run apply s ops).closed := by
  obtain ⟨before, op, after, rfl, hclosed, -⟩ := h
  induction after using List.reverseRecOn with
  | nil =>
    rw [run_concat]
    exact mem_append_left _ hclosed
  | append_singleton after op' ih =>
    rw [← cons_append, ← append_assoc, run_concat]
    exact mem_append_right _ ih

/-- The effect of an operation on the map and the list. -/
def LinkedCache.apply {α : Type} (key : α → String) (c : LinkedCache α) :
    CacheOp α → CacheEffect (LinkedCache α) α
  | .put inst now => ⟨none, (c.put (key inst) inst now).1, (c.put (key inst) inst now).2⟩
  | .get k now used => ⟨(c.get k now used).1, (c.get k now used).2.1, (c.get k now used).2.2⟩
  | .evict k => ⟨none, (c.evict k).1, (c.evict k).2⟩
  | .close => ⟨none, c.close.1, c.close.2⟩

/-- The effect of an operation on the entries. -/
def Cache.apply {α : Type} (key : α → String) (c : Cache α) : CacheOp α → CacheEffect (Cache α) α
  | .put inst now => ⟨none, (c.put (key inst) inst now).1.reverse, (c.put (key inst) inst now).2⟩
  | .get k now used => ⟨(c.getAt k now used).1, (c.getAt k now used).2.1, (c.getAt k now used).2.2⟩
  | .evict k => ⟨none, (c.evict k).1, (c.evict k).2⟩
  | .close => ⟨none, c.drain.1, c.drain.2⟩

/-- The log of a sequence of operations on a new cache. -/
def Cache.run {α : Type} (key : α → String) (max idleTTL : ℤ) (ops : List (CacheOp α)) :
    CacheLog (Cache α) α := CacheLog.run (Cache.apply key) (.new max idleTTL) ops

/-- The log of a sequence of operations on the map and the list. -/
def LinkedCache.run {α : Type} (key : α → String) (max idleTTL : ℤ) (ops : List (CacheOp α)) :
    CacheLog (LinkedCache α) α := CacheLog.run (LinkedCache.apply key) (.new max idleTTL) ops

/-- Each operation refines that of `Cache`. -/
theorem LinkedCache.Refines.apply {α : Type} {c : LinkedCache α} {a : Cache α} (h : c.Refines a)
    (key : α → String) (op : CacheOp α) :
    (c.apply key op).result = (a.apply key op).result ∧
    (c.apply key op).closed = (a.apply key op).closed ∧
    Refines (c.apply key op).cache (a.apply key op).cache := by
  cases op with
  | put inst now =>
    obtain ⟨hclosed, hcache⟩ := h.put (key inst) inst now
    exact ⟨rfl, hclosed, hcache⟩
  | get k now used => exact h.getAt k now used
  | evict k =>
    obtain ⟨hclosed, hcache⟩ := h.evict k
    exact ⟨rfl, hclosed, hcache⟩
  | close =>
    obtain ⟨hclosed, hcache⟩ := h.close
    exact ⟨rfl, hclosed, hcache⟩

/-- A run refines that of `Cache`: the logs are the same. -/
theorem LinkedCache.run_refines {α : Type} (key : α → String) (max idleTTL : ℤ)
    (ops : List (CacheOp α)) :
    (run key max idleTTL ops).cache.Refines (Cache.run key max idleTTL ops).cache ∧
    (run key max idleTTL ops).closed = (Cache.run key max idleTTL ops).closed ∧
    (run key max idleTTL ops).uses = (Cache.run key max idleTTL ops).uses := by
  induction ops using List.reverseRecOn with
  | nil => exact ⟨refines_new max idleTTL, rfl, rfl⟩
  | append_singleton ops op ih =>
    obtain ⟨hcache, hclosed, huses⟩ := ih
    obtain ⟨hresult, hgone, hnext⟩ := hcache.apply key op
    rw [run, Cache.run, CacheLog.run_concat, CacheLog.run_concat, ← run, ← Cache.run]
    refine ⟨hnext, ?_, ?_⟩
    · simp only [CacheLog.after, hgone, hclosed]
    · simp only [CacheLog.after, hresult, huses]

/-! ### The entries along a sequence -/

namespace Cache

variable {α : Type} [DecidableEq α] {key : α → String} {max idleTTL : ℤ} {ops : List (CacheOp α)}

/-- What holds of the entries after the operations `ops`. -/
structure Sound (key : α → String) (max idleTTL : ℤ) (ops : List (CacheOp α))
    (h : CacheLog (Cache α) α) : Prop where
  max_eq : h.cache.max = max
  idleTTL_eq : h.cache.idleTTL = idleTTL
  keyed : h.cache.Keyed
  key_eq : ∀ e ∈ h.cache.entries, e.key = key e.inst
  length_le : (h.cache.entries.length : ℤ) ≤ max
  perm : (h.cache.entries.map Entry.inst ++ h.closed).Perm (CacheOp.puts ops)
  lastPut : ∀ e ∈ h.cache.entries,
    (CacheOp.puts ops).find? (fun inst => key inst = e.key) = some e.inst
  byRecency : ByRecency (h.uses.map Prod.fst) (h.cache.entries.map Entry.inst)
  lastUse : ∀ e ∈ h.cache.entries, h.lastUse e.inst = some e.lastUsed

theorem sound_nil (hmax : 0 < max) : Sound key max idleTTL [] ⟨.new max idleTTL, [], []⟩ where
  max_eq := rfl
  idleTTL_eq := rfl
  keyed := nodup_nil
  key_eq := by simp [new]
  length_le := hmax.le
  perm := List.Perm.refl _
  lastPut := by simp [new]
  byRecency := byRecency_nil
  lastUse := by simp [new]

variable {h : CacheLog (Cache α) α} {entries : List (Entry α)} {gone : List α} {op : CacheOp α}

omit [DecidableEq α] in
theorem perm_append_gone {insts kept closed : List α} (h : insts.Perm (gone ++ kept)) :
    (kept ++ (gone ++ closed)).Perm (insts ++ closed) := by
  rw [← append_assoc]
  exact (perm_append_comm.trans h.symm).append_right _

omit [DecidableEq α] in
theorem puts_concat (ops : List (CacheOp α)) (op : CacheOp α) :
    CacheOp.puts (ops ++ [op]) = CacheOp.puts [op] ++ CacheOp.puts ops := by
  simp [CacheOp.puts, filterMap_append]

theorem Sound.remove (hs : Sound key max idleTTL ops h) (hsub : entries.Sublist h.cache.entries)
    (hperm : (h.cache.entries.map Entry.inst).Perm (gone ++ entries.map Entry.inst))
    (hop : CacheOp.puts [op] = []) :
    Sound key max idleTTL (ops ++ [op]) ⟨{ h.cache with entries }, gone ++ h.closed, h.uses⟩ where
  max_eq := hs.max_eq
  idleTTL_eq := hs.idleTTL_eq
  keyed := (hsub.map _).nodup hs.keyed
  key_eq e he := hs.key_eq e (hsub.subset he)
  length_le := by
    have := hsub.length_le
    have := hs.length_le
    simp only
    omega
  perm := by
    rw [puts_concat, hop]
    exact (perm_append_gone hperm).trans hs.perm
  lastPut e he := by
    rw [puts_concat, hop]
    exact hs.lastPut e (hsub.subset he)
  byRecency := hs.byRecency.sublist (hsub.map _)
  lastUse e he := hs.lastUse e (hsub.subset he)

/-- The entry of a key and the entries of the others. -/
theorem Sound.perm_others (hs : Sound key max idleTTL ops h) {k : String} {e : Entry α}
    (hfind : h.cache.find k = some e) :
    (h.cache.entries.map Entry.inst).Perm ([e.inst] ++ (h.cache.others k).map Entry.inst) := by
  obtain ⟨he, rfl⟩ := find_mem hfind
  exact (perm_cons_filter_ne hs.keyed he).map Entry.inst

theorem lastUse_use {uses : List (α × ℤ)} {inst inst' : α} {t : ℤ} (hne : inst' ≠ inst) :
    (((inst, t) :: uses).find? fun u => u.1 = inst') = uses.find? fun u => u.1 = inst' :=
  find?_cons_of_neg (by simpa using Ne.symm hne)

section

variable (hs : Sound key max idleTTL ops h)
include hs

theorem Sound.length_others_lt {k : String} {e : Entry α} (hfind : h.cache.find k = some e) :
    ((h.cache.others k).length : ℤ) < max := by
  have hlength := (hs.perm_others hfind).length_eq
  have hle := hs.length_le
  simp only [length_map, length_append, length_cons, length_nil] at hlength
  omega

/-- An entry is put in front of others. -/
theorem Sound.front {e : Entry α} {closed : List α} {ops' : List (CacheOp α)}
    (hkey : e.key = key e.inst) (hsub : entries.Sublist h.cache.entries)
    (hkeys : ∀ e' ∈ entries, e'.key ≠ e.key) (hlength : (entries.length : ℤ) < max)
    (hperm : (e.inst :: entries.map Entry.inst ++ closed).Perm (CacheOp.puts ops'))
    (hlast : (CacheOp.puts ops').find? (fun inst => key inst = e.key) = some e.inst)
    (hothers : ∀ k, k ≠ e.key → (CacheOp.puts ops').find? (fun inst => key inst = k) =
      (CacheOp.puts ops).find? fun inst => key inst = k) :
    Sound key max idleTTL ops' ⟨{ h.cache with entries := e :: entries }, closed,
      (e.inst, e.lastUsed) :: h.uses⟩ := by
  have hnew : e.inst ∉ entries.map Entry.inst := by
    intro hmem
    obtain ⟨e', he', heq⟩ := mem_map.mp hmem
    refine hkeys e' he' ?_
    rw [hs.key_eq e' (hsub.subset he'), heq, hkey]
  refine ⟨hs.max_eq, hs.idleTTL_eq, ?_, ?_, ?_, hperm, ?_,
    (hs.byRecency.sublist (hsub.map _)).cons hnew, ?_⟩
  · refine nodup_cons.mpr ⟨fun hmem => ?_, (hsub.map _).nodup hs.keyed⟩
    obtain ⟨e', he', heq⟩ := mem_map.mp hmem
    exact hkeys e' he' heq
  · exact forall_mem_cons.mpr ⟨hkey, fun e' he' => hs.key_eq e' (hsub.subset he')⟩
  · simp only [length_cons]
    omega
  · refine forall_mem_cons.mpr ⟨hlast, fun e' he' => ?_⟩
    rw [hothers _ (hkeys e' he')]
    exact hs.lastPut e' (hsub.subset he')
  · refine forall_mem_cons.mpr ⟨by simp [CacheLog.lastUse], fun e' he' => ?_⟩
    have hne : e'.inst ≠ e.inst := fun heq => hnew (heq ▸ mem_map_of_mem he')
    rw [CacheLog.lastUse, lastUse_use hne]
    exact hs.lastUse e' (hsub.subset he')

theorem Sound.hit {k : String} {e : Entry α} {used : ℤ} (hfind : h.cache.find k = some e)
    (hop : CacheOp.puts [op] = []) :
    Sound key max idleTTL (ops ++ [op])
      ⟨{ h.cache with entries := { e with lastUsed := used } :: h.cache.others k }, h.closed,
        (e.inst, used) :: h.uses⟩ := by
  have hlength := hs.length_others_lt hfind
  have hperm := hs.perm_others hfind
  obtain ⟨he, rfl⟩ := find_mem hfind
  have hputs : CacheOp.puts (ops ++ [op]) = CacheOp.puts ops := by rw [puts_concat, hop]; rfl
  refine hs.front (hs.key_eq e he) filter_sublist (fun e' he' => (mem_others.mp he').2) hlength
    ?_ ?_ fun k _ => by rw [hputs]
  · rw [hputs]
    exact (hperm.symm.append_right _).trans hs.perm
  · rw [hputs]
    exact hs.lastPut e he

theorem Sound.store {inst : α} {now : ℤ} (hsub : entries.Sublist h.cache.entries)
    (hkeys : ∀ e ∈ entries, e.key ≠ key inst) (hlength : (entries.length : ℤ) < max)
    (hperm : (h.cache.entries.map Entry.inst).Perm (gone ++ entries.map Entry.inst)) :
    Sound key max idleTTL (ops ++ [.put inst now])
      ⟨{ h.cache with entries := ⟨key inst, inst, now⟩ :: entries }, gone ++ h.closed,
        (inst, now) :: h.uses⟩ := by
  have hputs : CacheOp.puts (ops ++ [.put inst now]) = inst :: CacheOp.puts ops := puts_concat ops _
  refine hs.front rfl hsub hkeys hlength ?_ ?_ fun k hk => ?_
  · rw [hputs]
    exact List.Perm.cons inst ((perm_append_gone hperm).trans hs.perm)
  · simp [hputs]
  · rw [hputs]
    exact find?_cons_of_neg (by simpa using Ne.symm hk)

variable (hmax : 0 < max) (hidle : 0 < idleTTL)
include hmax hidle

theorem Sound.enabled : h.cache.disabled = false := by
  rw [disabled, hs.max_eq, hs.idleTTL_eq]
  simp [hmax, hidle]

theorem Sound.apply : Sound key max idleTTL (ops ++ [op]) (h.after op (h.cache.apply key op)) := by
  have henabled := hs.enabled hmax hidle
  have hstays (op : CacheOp α) (hop : CacheOp.puts [op] = []) :
      Sound key max idleTTL (ops ++ [op]) h :=
    @Sound.remove _ _ _ _ _ _ _ _ [] op hs (List.Sublist.refl _) (List.Perm.refl _) hop
  cases op with
  | put inst now =>
    simp only [Cache.apply, Cache.put, henabled, Bool.false_eq_true, if_false]
    cases hfind : h.cache.find (key inst) with
    | some e =>
      exact hs.store filter_sublist (fun e' he' => (mem_others.mp he').2)
        (hs.length_others_lt hfind) (hs.perm_others hfind)
    | none =>
      refine hs.store (take_sublist _ _) (fun e' he' => ?_) ?_ ?_
      · exact find_eq_none.mp hfind e' (mem_of_mem_take he')
      · rw [length_take, hs.max_eq]
        omega
      have hsplit := take_append_drop (h.cache.max - 1).toNat h.cache.entries
      have hmap := congrArg (List.map Entry.inst) hsplit
      rw [map_append] at hmap
      rw [← hmap]
      exact perm_append_comm.trans ((reverse_perm _).symm.append_right _)
  | get k now used =>
    simp only [Cache.apply, getAt, henabled, Bool.false_eq_true, if_false]
    cases hfind : h.cache.find k with
    | none => exact hstays _ rfl
    | some e =>
      simp only
      split
      · exact hs.remove filter_sublist (hs.perm_others hfind) rfl
      · exact hs.hit hfind rfl
  | evict k =>
    simp only [Cache.apply, evict]
    cases hfind : h.cache.find k with
    | none => exact hstays _ rfl
    | some e => exact hs.remove filter_sublist (hs.perm_others hfind) rfl
  | close =>
    refine hs.remove (nil_sublist _) ?_ rfl
    rw [map_nil, append_nil]
    exact (reverse_perm _).symm

end

/-- **The entries are sound after every sequence of operations.** -/
theorem sound_run (key : α → String) (hmax : 0 < max) (hidle : 0 < idleTTL)
    (ops : List (CacheOp α)) : Sound key max idleTTL ops (run key max idleTTL ops) := by
  induction ops using List.reverseRecOn with
  | nil => exact sound_nil hmax
  | append_singleton ops op ih =>
    rw [run, CacheLog.run_concat]
    exact ih.apply hmax hidle

section Laws

variable (hs : Sound key max idleTTL ops h)
include hs

/-- The instance of a key that is found is the one that is cached under it. -/
theorem Sound.eq_found {k : String} {e : Entry α} (hfind : h.cache.find k = some e) {inst : α} :
    inst = e.inst ↔ inst ∈ h.cache.entries.map Entry.inst ∧ k = key inst := by
  obtain ⟨he, rfl⟩ := find_mem hfind
  constructor
  · rintro rfl
    exact ⟨mem_map_of_mem he, hs.key_eq e he⟩
  rintro ⟨hmem, hkey⟩
  obtain ⟨e', he', rfl⟩ := mem_map.mp hmem
  rw [inj_on_of_nodup_map hs.keyed he he' (hkey.trans (hs.key_eq e' he').symm)]

/-- Under a key that is not found nothing is cached. -/
theorem Sound.not_cached {k : String} (hfind : h.cache.find k = none) {inst : α} :
    ¬ (inst ∈ h.cache.entries.map Entry.inst ∧ k = key inst) := by
  rintro ⟨hmem, rfl⟩
  obtain ⟨e, he, rfl⟩ := mem_map.mp hmem
  exact find_eq_none.mp hfind e he (hs.key_eq e he)

variable (hmax : 0 < max) (hidle : 0 < idleTTL)
include hmax hidle

/-- **What `Get`, `Evict` and `Close` close**: the cached instances that they remove. -/
theorem Sound.mem_closed {inst : α} (hop : ∀ inst' now, op ≠ .put inst' now) :
    inst ∈ (h.cache.apply key op).closed ↔ inst ∈ h.cache.entries.map Entry.inst ∧
      op.Removes key idleTTL inst (h.lastUse inst) := by
  cases op with
  | put inst' now => exact absurd rfl (hop inst' now)
  | get k now used =>
    simp only [Cache.apply, getAt, hs.enabled hmax hidle, Bool.false_eq_true, if_false,
      CacheOp.Removes, ← and_assoc]
    cases hfind : h.cache.find k with
    | none => exact iff_of_false not_mem_nil fun hmem => hs.not_cached hfind hmem.1
    | some e =>
      rw [← hs.eq_found hfind, hs.idleTTL_eq]
      have hlast := hs.lastUse e (find_mem hfind).1
      by_cases hlong : now - e.lastUsed > idleTTL
      · simp only [if_pos hlong, mem_singleton]
        exact ⟨fun heq => ⟨heq, e.lastUsed, heq ▸ hlast, hlong⟩, And.left⟩
      simp only [if_neg hlong, not_mem_nil, false_iff]
      rintro ⟨rfl, t, ht, hidle⟩
      exact hlong (Option.some.inj (hlast.symm.trans ht) ▸ hidle)
  | evict k =>
    simp only [Cache.apply, evict, CacheOp.Removes]
    cases hfind : h.cache.find k with
    | none => exact iff_of_false not_mem_nil (hs.not_cached hfind)
    | some e => rw [← hs.eq_found hfind, mem_singleton]
  | close => simp [Cache.apply, drain, CacheOp.Removes]

/-- **What `Put` replaces** is closed. -/
theorem Sound.mem_replaced {inst inst' : α} {now : ℤ} (hkey : key inst' = key inst) :
    inst' ∈ (h.cache.apply key (.put inst now)).closed ↔
      inst' ∈ h.cache.entries.map Entry.inst := by
  simp only [Cache.apply, Cache.put, hs.enabled hmax hidle, Bool.false_eq_true, if_false]
  cases hfind : h.cache.find (key inst) with
  | none =>
    have hnot : inst' ∉ h.cache.entries.map Entry.inst :=
      fun hmem => hs.not_cached hfind ⟨hmem, hkey.symm⟩
    refine iff_of_false (fun hmem => hnot ?_) hnot
    exact ((drop_sublist _ _).map _).subset (mem_reverse.mp hmem)
  | some e =>
    rw [reverse_singleton, mem_singleton, hs.eq_found hfind]
    exact and_iff_left hkey.symm

theorem Sound.removes {inst : α} (hinst : inst ∈ (h.cache.apply key op).closed)
    (hput : ∀ inst' now, op = .put inst' now → key inst' ≠ key inst) :
    op.Removes key idleTTL inst (h.lastUse inst) := by
  cases op with
  | put inst' now => exact hput inst' now rfl
  | get | evict | close =>
    exact ((hs.mem_closed hmax hidle fun _ _ heq => by cases heq).mp hinst).2

theorem Sound.mem_put (inst : α) (now : ℤ) :
    inst ∈ (h.cache.apply key (.put inst now)).cache.entries.map Entry.inst := by
  simp only [Cache.apply, Cache.put, hs.enabled hmax hidle, Bool.false_eq_true, if_false]
  split <;> exact mem_cons_self

/-- **What `Put` displaces** is the least recently used instance of a full cache. -/
theorem Sound.displaced {inst d : α} {now : ℤ} (hd : d ∈ (h.cache.apply key (.put inst now)).closed)
    (hne : key d ≠ key inst) : (h.cache.entries.length : ℤ) = max ∧
      ∀ d' ∈ h.cache.entries.map Entry.inst, d' ≠ d →
        (h.uses.map Prod.fst).idxOf d' < (h.uses.map Prod.fst).idxOf d := by
  simp only [Cache.apply, Cache.put, hs.enabled hmax hidle, Bool.false_eq_true, if_false] at hd
  cases hfind : h.cache.find (key inst) with
  | some e =>
    obtain ⟨he, hkey⟩ := find_mem hfind
    simp only [hfind, reverse_singleton, mem_singleton] at hd
    exact absurd ((congrArg key hd).trans ((hs.key_eq e he).symm.trans hkey)) hne
  | none =>
    simp only [hfind, mem_reverse, hs.max_eq] at hd
    have hsplit := take_append_drop (max - 1).toNat h.cache.entries
    have hle := hs.length_le
    have hlength : (h.cache.entries.drop (max - 1).toNat).length = 1 := by
      have hpos := length_pos_of_mem hd
      rw [length_map, length_drop] at hpos
      rw [length_drop]
      omega
    obtain ⟨e, hdrop⟩ := length_eq_one_iff.mp hlength
    rw [hdrop, map_singleton, mem_singleton] at hd
    subst hd
    refine ⟨?_, fun d' hd' hne' => ?_⟩
    · rw [length_drop] at hlength
      omega
    have hrecent := hs.byRecency
    rw [← hsplit, hdrop, map_append] at hrecent hd'
    rcases mem_append.mp hd' with hd' | hd'
    · exact (pairwise_append.mp hrecent).2.2 d' hd' e.inst mem_cons_self
    · exact absurd (mem_singleton.mp hd') hne'

end Laws

omit [DecidableEq α] in
theorem lastPut_concat {k : String} {inst : α}
    (hlast : (CacheOp.puts (ops ++ [op])).find? (fun inst => key inst = k) = some inst) :
    (∃ now, op = .put inst now) ∨ (CacheOp.puts ops).find? (fun inst => key inst = k) = some inst ∧
        ∀ inst' now, op = .put inst' now → key inst' ≠ key inst := by
  have hkey : key inst = k := by simpa using find?_some hlast
  rw [puts_concat] at hlast
  cases op with
  | put inst' now =>
    by_cases hsame : key inst' = k
    · left
      refine ⟨now, ?_⟩
      simp only [CacheOp.puts, filterMap_cons, filterMap_nil, reverse_singleton,
        singleton_append, hsame, decide_true, find?_cons_of_pos] at hlast
      rw [Option.some.inj hlast]
    · right
      refine ⟨?_, ?_⟩
      · simpa [CacheOp.puts, hsame] using hlast
      · rintro _ _ ⟨⟩
        rwa [hkey]
  | get | evict | close => exact .inr ⟨hlast, nofun⟩

/-- **The last instance put under a key is cached, or was evicted, displaced or idle.** -/
theorem cached_or_lost (hmax : 0 < max) (hidle : 0 < idleTTL) (hnodup : (CacheOp.puts ops).Nodup)
    {k : String} {inst : α}
    (hlast : (CacheOp.puts ops).find? (fun inst => key inst = k) = some inst) :
    inst ∈ (run key max idleTTL ops).cache.entries.map Entry.inst ∨
      CacheLog.Lost (Cache.apply key) (.new max idleTTL) key idleTTL ops inst := by
  induction ops using List.reverseRecOn with
  | nil => cases hlast
  | append_singleton ops op ih =>
    have hbefore : (CacheOp.puts ops).Nodup := (puts_concat ops op ▸ hnodup).of_append_right
    have hs := sound_run key hmax hidle ops
    rcases lastPut_concat hlast with ⟨now, rfl⟩ | ⟨hprev, hput⟩
    · rw [run, CacheLog.run_concat]
      exact .inl (hs.mem_put hmax hidle inst now)
    rcases ih hbefore hprev with hcached | hlost
    · -- every instance that was put is cached or closed, and this one was not closed before
      have hnow := (sound_run key hmax hidle (ops ++ [op])).perm.mem_iff.mpr
        (mem_of_find?_eq_some hlast)
      have hopen := (nodup_append.mp ((hs.perm.nodup_iff).mpr hbefore)).2.2 inst hcached
      rw [run, CacheLog.run_concat] at hnow ⊢
      rcases mem_append.mp hnow with hstays | hclosed
      · exact .inl hstays
      rcases mem_append.mp hclosed with hgone | hclosed
      · exact .inr ⟨ops, op, [], rfl, hgone, hs.removes hmax hidle hgone hput⟩
      · exact absurd rfl (hopen inst hclosed)
    · exact .inr (hlost.concat op)

/-- **What `Get` returns**: the last instance put under the key, unless it was evicted, displaced or
idle. -/
theorem get_lastPut (hmax : 0 < max) (hidle : 0 < idleTTL) (hnodup : (CacheOp.puts ops).Nodup)
    {k : String} (now used : ℤ) :
    match (CacheOp.puts ops).find? (fun inst => key inst = k) with
    | none =>
      ((run key max idleTTL ops).cache.getAt k now used).1 = none
    | some inst =>
      ((run key max idleTTL ops).cache.getAt k now used).1 = some inst ∨
      ((run key max idleTTL ops).cache.getAt k now used).1 = none ∧
        (CacheLog.Lost (Cache.apply key) (.new max idleTTL) key idleTTL ops inst ∨
          ∃ t, (run key max idleTTL ops).lastUse inst = some t ∧
            idleTTL < now - t) := by
  have hs := sound_run key hmax hidle ops
  have hlost := fun inst => @cached_or_lost _ _ key _ _ ops hmax hidle hnodup k inst
  generalize run key max idleTTL ops = h at hs hlost
  simp only [getAt, hs.enabled hmax hidle, Bool.false_eq_true, if_false]
  cases hfind : h.cache.find k with
  | none =>
    split
    · rfl
    · next inst hlast =>
      refine .inr ⟨rfl, .inl ((hlost inst hlast).resolve_left fun hcached => ?_)⟩
      obtain ⟨e, he, rfl⟩ := mem_map.mp hcached
      have hkey : key e.inst = k := by simpa using find?_some hlast
      exact find_eq_none.mp hfind e he ((hs.key_eq e he).trans hkey)
  | some e =>
    obtain ⟨he, rfl⟩ := find_mem hfind
    rw [hs.lastPut e he]
    simp only
    split
    · next hlong => exact .inr ⟨rfl, .inr ⟨e.lastUsed, hs.lastUse e he, hs.idleTTL_eq ▸ hlong⟩⟩
    · exact .inl rfl

/-- An instance that `Get` returns is not lost and not idle. -/
theorem Sound.not_lost (hnodup : (CacheOp.puts ops).Nodup)
    (hs : Sound key max idleTTL ops (run key max idleTTL ops)) {k : String} {now used : ℤ}
    {inst : α} (hget : ((run key max idleTTL ops).cache.getAt k now used).1 = some inst) :
    ¬ (CacheLog.Lost (Cache.apply key) (.new max idleTTL) key idleTTL ops inst ∨
      ∃ t, (run key max idleTTL ops).lastUse inst = some t ∧
        idleTTL < now - t) := by
  obtain ⟨e, hfind, rfl, hrecent⟩ := getAt_eq_some hget
  have he := (find_mem hfind).1
  rintro (hlost | ⟨t, ht, hlong⟩)
  · have hopen := (nodup_append.mp ((hs.perm.nodup_iff).mpr hnodup)).2.2
    exact hopen e.inst (mem_map_of_mem he) e.inst hlost.mem_closed rfl
  obtain rfl : e.lastUsed = t := Option.some.inj ((hs.lastUse e he).symm.trans ht)
  rw [hs.idleTTL_eq] at hrecent
  omega

end Cache

/-! ### The cache in memory -/

namespace LinkedCache

variable {α : Type} [DecidableEq α]

/-- The cached instances, from the front of the list to its back. -/
def instances (c : LinkedCache α) : List α := c.cells.toList.map fun x => x.2.1

/-- What is claimed of the log of the operations `ops`. -/
structure Lawful (key : α → String) (max idleTTL : ℤ) (ops : List (CacheOp α))
    (h : CacheLog (LinkedCache α) α) : Prop where
  /-- The list has each key once. -/
  nodup : (h.cache.cells.toList.map Prod.fst).Nodup
  /-- The map has the keys of the list. -/
  mem_entries : ∀ k, k ∈ h.cache.cells.entries ↔ k ∈ h.cache.cells.toList.map Prod.fst
  /-- There are at most `max` of them. -/
  length_le : (h.cache.cells.entries.keys.length : ℤ) ≤ max
  /-- An instance that was put is cached and not closed, or closed once. -/
  once : ∀ inst ∈ CacheOp.puts ops,
    inst ∈ h.cache.instances ∧ inst ∉ h.closed ∨ inst ∉ h.cache.instances ∧ h.closed.count inst = 1
  /-- `Get` returns nothing for a key under which nothing was put. -/
  get_none : ∀ k now used, (∀ inst ∈ CacheOp.puts ops, key inst ≠ k) →
    (h.cache.get k now used).1 = none
  /-- `Get` returns the last instance put if and only if it was not evicted, displaced or idle. -/
  get_last : ∀ k now used inst, (CacheOp.puts ops).find? (fun inst => key inst = k) = some inst →
    ((h.cache.get k now used).1 = none ∨ (h.cache.get k now used).1 = some inst) ∧
      ((h.cache.get k now used).1 = some inst ↔
        ¬ (CacheLog.Lost (LinkedCache.apply key) (.new max idleTTL) key idleTTL ops inst ∨
          ∃ t, h.lastUse inst = some t ∧ idleTTL < now - t))
  /-- `Get`, `Evict` and `Close` close the cached instances that they remove. -/
  closes : ∀ op inst, (∀ inst' now, op ≠ .put inst' now) →
    (inst ∈ (h.cache.apply key op).closed ↔
      inst ∈ h.cache.instances ∧ op.Removes key idleTTL inst (h.lastUse inst))
  /-- `Put` closes the cached instance of its key. -/
  replaces : ∀ inst now inst', key inst' = key inst →
    (inst' ∈ (h.cache.apply key (.put inst now)).closed ↔ inst' ∈ h.cache.instances)
  /-- An instance that makes room for another one is the least recently used one. -/
  displaced : ∀ inst now d, d ∈ (h.cache.apply key (.put inst now)).closed → key d ≠ key inst →
    (h.cache.cells.entries.keys.length : ℤ) = max ∧
      ∀ d' ∈ h.cache.instances, d' ≠ d →
        (h.uses.map Prod.fst).idxOf d' < (h.uses.map Prod.fst).idxOf d

variable {key : α → String} {max idleTTL : ℤ} {ops : List (CacheOp α)}

omit [DecidableEq α] in
theorem Refines.instances_eq {c : LinkedCache α} {a : Cache α} (h : c.Refines a) :
    c.instances = a.entries.map Cache.Entry.inst := by
  rw [instances, h.cells.toList, map_map]
  rfl

omit [DecidableEq α] in
theorem Refines.length_keys {c : LinkedCache α} {a : Cache α} (h : c.Refines a) :
    c.cells.entries.keys.length = a.entries.length := by
  rw [h.cells.linked.length_keys, h.cells.toList, length_map]

/-- The same instances are lost. -/
theorem lost_iff {inst : α} :
    CacheLog.Lost (LinkedCache.apply key) (.new max idleTTL) key idleTTL ops inst ↔
      CacheLog.Lost (Cache.apply key) (.new max idleTTL) key idleTTL ops inst := by
  unfold CacheLog.Lost
  refine exists_congr fun before => exists_congr fun op => exists_congr fun after => ?_
  obtain ⟨hrefines, -, huses⟩ := run_refines key max idleTTL before
  simp only [run, Cache.run] at hrefines huses
  rw [(hrefines.apply key op).2.1, CacheLog.lastUse, CacheLog.lastUse, huses]

/-- **The read-instance cache is lawful after every sequence of operations.** -/
theorem readCache_lawful (hmax : 0 < max) (hidle : 0 < idleTTL)
    (hnodup : (CacheOp.puts ops).Nodup) : Lawful key max idleTTL ops (run key max idleTTL ops) := by
  have hs := Cache.sound_run key hmax hidle ops
  have hget := fun k => @Cache.get_lastPut _ _ key _ _ ops hmax hidle hnodup k
  obtain ⟨href, hclosed, huses⟩ := run_refines key max idleTTL ops
  have hlast (inst : α) : (run key max idleTTL ops).lastUse inst =
      (Cache.run key max idleTTL ops).lastUse inst := by
    rw [CacheLog.lastUse, CacheLog.lastUse, huses]
  constructor
  · exact href.cells.linked.nodup_toList
  · exact fun k => href.cells.linked.mem_entries
  · rw [href.length_keys]
    exact hs.length_le
  · intro inst hinst
    have hcount := hs.perm.count_eq inst
    rw [count_append, count_eq_one_of_mem hnodup hinst, ← href.instances_eq, ← hclosed] at hcount
    by_cases hcached : inst ∈ (run key max idleTTL ops).cache.instances
    · refine .inl ⟨hcached, fun hmem => ?_⟩
      have := count_pos_iff.mpr hcached
      have := count_pos_iff.mpr hmem
      omega
    · rw [count_eq_zero_of_not_mem hcached, Nat.zero_add] at hcount
      exact .inr ⟨hcached, hcount⟩
  · intro k now used hnone
    have hnever : (CacheOp.puts ops).find? (fun inst => key inst = k) = none := by
      simpa using hnone
    have := hget k now used
    rw [hnever] at this
    rw [(href.getAt k now used).1]
    exact this
  · intro k now used inst hinst
    have := hget k now used
    rw [hinst] at this
    have hopen := @Cache.Sound.not_lost _ _ key _ _ ops hnodup hs k now used inst
    rw [(href.getAt k now used).1, hlast, lost_iff]
    rcases this with hsome | ⟨hnone, hlost⟩
    · exact ⟨.inr hsome, fun _ => hopen hsome, fun _ => hsome⟩
    · exact ⟨.inl hnone, hopen, fun hnot => absurd hlost hnot⟩
  · intro op inst hop
    rw [(href.apply key _).2.1, href.instances_eq, hlast]
    exact hs.mem_closed hmax hidle hop
  · intro inst now inst' hkey
    rw [(href.apply key _).2.1, href.instances_eq]
    exact hs.mem_replaced hmax hidle hkey
  · intro inst now d hd hne
    rw [(href.apply key _).2.1] at hd
    rw [href.length_keys, href.instances_eq, huses]
    exact hs.displaced hmax hidle hd hne

/-- A cache with room for one instance: the second one displaces the first one. -/
theorem readCache_lawful_displaced :
    (run (fun inst : ℕ => toString inst) 1 10 [.put 1 0, .get "1" 5 5, .put 2 6]).closed = [1] ∧
      Lawful (fun inst : ℕ => toString inst) 1 10 [.put 1 0, .get "1" 5 5, .put 2 6]
        (run (fun inst : ℕ => toString inst) 1 10 [.put 1 0, .get "1" 5 5, .put 2 6]) :=
  ⟨by decide +kernel, readCache_lawful (by decide) (by decide) (by decide)⟩

end LinkedCache

end Walrusd
