import Walrusd.Error
import Walrusd.LinkedCache
import Walrusd.Observability
import Walrusd.Program.Ledger
import Walrusd.Program.Script

/-!
# The gauge of active read instances

The observers that the runtime installs in its read cache count the cached instances
(`runtime/runtime.go`, `cache/cache.go`). The cache calls them after it has released its lock, so
another call may remove an instance and report the removal before its addition is reported.

A locked section of the cache, the closing of an instance and a report to an observer are calls of
the programs here, and any number of goroutines runs them. Each goroutine owes the reports of what
it has added and removed. What is owed together is the difference between the metrics and the cache,
up to the removals that were reported while the gauge of their database was zero.

## Main definitions

* `CachedReadSession`, `ReadCache`, `cacheSystem`.
* `Owed`, `Balanced`.

## Main results

* `readGauge_at_rest` — at rest the gauge is right iff no removal was reported while it was zero.
* `readGauge_overcounts` — a run after which the gauge is wrong.
-/

/-! ### Lengths -/

namespace Walrusd.Cache

open List

variable {α : Type} {c : Cache α}

theorem Keyed.length_others (h : c.Keyed) {key : String} {e : Entry α}
    (hfind : c.find key = some e) : (c.others key).length + 1 = c.entries.length := by
  obtain ⟨hmem, rfl⟩ := find_mem hfind
  exact (Program.perm_cons_filter_ne h hmem).length_eq.symm

theorem getAt_length (h : c.Keyed) (key : String) (now used : ℤ) :
    (c.getAt key now used).2.2.Keyed ∧
      (c.getAt key now used).2.2.entries.length + (c.getAt key now used).2.1.length =
        c.entries.length := by
  unfold getAt
  split
  · exact ⟨h, rfl⟩
  cases hfind : c.find key with
  | none => exact ⟨h, rfl⟩
  | some e =>
    simp only
    split
    · exact ⟨h.others key, h.length_others hfind⟩
    · exact ⟨h.cons_others (find_mem hfind).2, h.length_others hfind⟩

theorem evict_length (h : c.Keyed) (key : String) :
    (c.evict key).2.entries.length + (c.evict key).1.length = c.entries.length := by
  unfold evict
  cases hfind : c.find key with
  | none => rfl
  | some e => exact h.length_others hfind

theorem drain_length (c : Cache α) :
    c.drain.2.entries.length + c.drain.1.length = c.entries.length := by
  simp [drain]

/-- The instances that a round of `Put` adds. -/
def PutRound.added : PutRound α → ℕ
  | .stored _ => 1
  | .full _ => 0
  | .refused => 0

theorem putLocked_length (h : c.Keyed) (key : String) (inst : α) (now : ℤ) :
    (c.putLocked key inst now).2.Keyed ∧
      (c.putLocked key inst now).2.entries.length + (c.putLocked key inst now).1.gone.length =
        c.entries.length + (c.putLocked key inst now).1.added := by
  unfold putLocked
  split
  · exact ⟨h, rfl⟩
  cases hfind : c.find key with
  | some e =>
    refine ⟨h.cons_others rfl, ?_⟩
    simpa [PutRound.gone, PutRound.added] using h.length_others hfind
  | none =>
    simp only
    split
    · have hnew : c.others key = c.entries :=
        filter_eq_self.mpr fun e he => by simpa using find_eq_none.mp hfind e he
      refine ⟨?_, rfl⟩
      simpa only [Keyed, hnew] using h.cons_others (e := ⟨key, inst, now⟩) rfl
    cases hlast : c.entries.getLast? with
    | none => exact ⟨h, rfl⟩
    | some oldest =>
      obtain ⟨front, hfront⟩ := getLast?_eq_some_iff.mp hlast
      refine ⟨((dropLast_sublist _).map _).nodup h, ?_⟩
      simp [PutRound.gone, PutRound.added, hfront]

end Walrusd.Cache

namespace Walrusd.Runtime

open Program Observability Function

/-! ### The calls of the cache -/

/-- `cachedReadSession`: a session, the key it is cached under, and the identifier that its metrics
are kept under. -/
structure CachedReadSession where
  session : ℕ
  key : String
  metricsID : String
  deriving DecidableEq, Repr

/-- The locked sections of the cache, the closing of an instance and the observers. -/
inductive CacheCall
  | get (key : String)
  | putRound (inst : CachedReadSession)
  | evict (key : String)
  | drain
  | close (inst : CachedReadSession)
  | readInstanceAdded (inst : CachedReadSession)
  | readInstanceRemoved (inst : CachedReadSession)

/-- What a call returns; a locked section also returns the instances that it has removed. -/
def CacheCall.Resp : CacheCall → Type
  | .get _ => Option CachedReadSession × List CachedReadSession
  | .putRound _ => Cache.PutRound CachedReadSession
  | .evict _ => List CachedReadSession
  | .drain => List CachedReadSession
  | .close _ => Option Err
  | .readInstanceAdded _ => Unit
  | .readInstanceRemoved _ => Unit

/-- Programs over the cache. -/
abbrev CacheM := Prog CacheCall CacheCall.Resp

namespace ReadCache

/-- `ReadInstance.Close`. -/
def closeInstance (inst : CachedReadSession) : CacheM (Option Err) := perform (CacheCall.close inst)

/-- `notifyAdd`, with the observer of the runtime. -/
def notifyAdd (inst : CachedReadSession) : CacheM Unit := perform (CacheCall.readInstanceAdded inst)

/-- `notifyRemove`, with the observer of the runtime. -/
def notifyRemove (inst : CachedReadSession) : CacheM Unit :=
  perform (CacheCall.readInstanceRemoved inst)

/-- Close removed instances and report each of them: the first error. -/
def discard : List CachedReadSession → CacheM (Option Err)
  | [] => return none
  | inst :: rest => do
    let err ← closeInstance inst
    notifyRemove inst
    let later ← discard rest
    return err <|> later

/-- `Cache.Get`. -/
def get (key : String) : CacheM (Option CachedReadSession) := do
  let r : Option CachedReadSession × List CachedReadSession ← perform (CacheCall.get key)
  let _ ← discard r.2
  return r.1

/-- `Cache.Put` of an instance or of nil, with at most the given number of rounds; a `Put` that
makes more rounds is one with a larger number. -/
def put : ℕ → Option CachedReadSession → CacheM Unit
  | _, none => return ()
  | 0, some _ => return ()
  | n + 1, some inst => do
    let round : Cache.PutRound CachedReadSession ← perform (CacheCall.putRound inst)
    match round with
    | .stored replaced =>
      let _ ← discard replaced.toList
      notifyAdd inst
    | .full oldest =>
      let _ ← discard [oldest]
      put n (some inst)
    | .refused =>
      let _ ← closeInstance inst
      return ()

/-- `Cache.Evict`. -/
def evict (key : String) : CacheM Unit := do
  let gone : List CachedReadSession ← perform (CacheCall.evict key)
  let _ ← discard gone
  return ()

/-- `Cache.Close`. -/
def close : CacheM (Option Err) := do
  let gone : List CachedReadSession ← perform CacheCall.drain
  discard gone

end ReadCache

/-! ### The cache and the metrics -/

/-- The update of the metrics by `readInstanceAdded`. -/
def countAdded (m : Metrics) : Metrics :=
  { m with activeReadInstances := m.activeReadInstances + 1 }

/-- The update of the metrics by `readInstanceRemoved`: the gauge stays at zero. -/
def countRemoved (m : Metrics) : Metrics where
  activeReadInstances :=
    if m.activeReadInstances > 0 then m.activeReadInstances - 1 else m.activeReadInstances
  readCacheEvictions := m.readCacheEvictions + 1

/-- `readInstanceAdded`. -/
def readInstanceAdded (metrics : Registry) (inst : CachedReadSession) : Registry :=
  metrics.record inst.metricsID countAdded

/-- `readInstanceRemoved`. -/
def readInstanceRemoved (metrics : Registry) (inst : CachedReadSession) : Registry :=
  metrics.record inst.metricsID countRemoved

/-- The gauge of the database of an instance. -/
def gaugeOf (metrics : Registry) (inst : CachedReadSession) : ℕ :=
  (metrics.bucket (Observability.hash inst.metricsID)).activeReadInstances

/-- The cache and the metrics of a runtime. Of what happened so far, `removed` is the number of
instances that were removed from the cache, and `early` the number of removals that were reported
while the gauge of their database was zero. -/
structure ReadCache where
  cache : Cache CachedReadSession
  metrics : Registry
  removed : ℕ
  early : ℕ

/-- What is left open by a call: two readings of the clock, and the error of a `Close`. -/
structure CacheChoice where
  now : ℤ
  used : ℤ
  err : Option Err

namespace ReadCache

/-- A new runtime. -/
def new (max idleTTL : ℤ) : ReadCache := ⟨.new max idleTTL, .new, 0, 0⟩

/-- The cache after a locked section that has removed the given instances. -/
def remove (w : ReadCache) (gone : List CachedReadSession) (cache : Cache CachedReadSession) :
    ReadCache :=
  { w with cache, removed := w.removed + gone.length }

/-- The answer to a call. -/
def reply (w : ReadCache) (x : CacheChoice) : (c : CacheCall) → c.Resp × ReadCache
  | .get key =>
    let (found, gone, cache) := w.cache.getAt key x.now x.used
    ((found, gone), w.remove gone cache)
  | .putRound inst =>
    let (round, cache) := w.cache.putLocked inst.key inst x.now
    (round, w.remove round.gone cache)
  | .evict key =>
    let (gone, cache) := w.cache.evict key
    (gone, w.remove gone cache)
  | .drain =>
    let (gone, cache) := w.cache.drain
    (gone, w.remove gone cache)
  | .close _ => (x.err, w)
  | .readInstanceAdded inst => ((), { w with metrics := Runtime.readInstanceAdded w.metrics inst })
  | .readInstanceRemoved inst =>
    ((), { w with metrics := Runtime.readInstanceRemoved w.metrics inst
                  early := if gaugeOf w.metrics inst > 0 then w.early else w.early + 1 })

end ReadCache

/-- A call of the cache. -/
inductive CacheTask
  | get (key : String)
  | put (rounds : ℕ) (inst : Option CachedReadSession)
  | evict (key : String)
  | close

/-- The program of a call. -/
def CacheTask.prog : CacheTask → CacheM Unit
  | .get key => do
    let _ ← ReadCache.get key
    return ()
  | .put rounds inst => ReadCache.put rounds inst
  | .evict key => ReadCache.evict key
  | .close => do
    let _ ← ReadCache.close
    return ()

/-- The concurrent calls of the cache of one runtime. -/
def cacheSystem (ι : Type) : System ReadCache ι CacheCall CacheCall.Resp Unit where
  start w _ p w' := ∃ task : CacheTask, p = task.prog ∧ w' = w
  call w _ c r w' := ∃ x, w.reply x c = (r, w')
  env _ _ := False

/-! ### Reports that are owed -/

/-- The additions and removals that a goroutine has made and not reported. -/
structure Owed where
  adds : ℕ
  removes : ℕ

namespace Owed

/-- What the reports will add to the gauge. -/
def net (s : Owed) : ℤ := s.adds - s.removes

/-- What the reports will add to the evictions. -/
def evictions (s : Owed) : ℤ := s.removes

/-- What is owed after an answered call. -/
def after (s : Owed) : (c : CacheCall) → c.Resp → Owed
  | .get _, r => ⟨s.adds, s.removes + r.2.length⟩
  | .putRound _, r => ⟨s.adds + Cache.PutRound.added r, s.removes + (Cache.PutRound.gone r).length⟩
  | .evict _, gone => ⟨s.adds, s.removes + List.length gone⟩
  | .drain, gone => ⟨s.adds, s.removes + List.length gone⟩
  | .close _, _ => s
  | .readInstanceAdded _, _ => ⟨s.adds - 1, s.removes⟩
  | .readInstanceRemoved _, _ => ⟨s.adds, s.removes - 1⟩

/-- Only what is owed is reported. -/
def Allows (s : Owed) : CacheCall → Prop
  | .readInstanceAdded _ => 0 < s.adds
  | .readInstanceRemoved _ => 0 < s.removes
  | _ => True

end Owed

/-- The protocol of the calls of the cache. -/
def owing : Protocol CacheCall CacheCall.Resp Owed where
  allow := Owed.Allows
  next s c r s' := s' = s.after c r

/-- Everything is reported. -/
def Reported (s : Owed) (_ : Unit) : Prop := s = ⟨0, 0⟩

theorem discard_obeys (gone : List CachedReadSession) (adds removes : ℕ) :
    (ReadCache.discard gone).Obeys owing (fun s _ => s = ⟨adds, removes⟩)
      ⟨adds, removes + gone.length⟩ := by
  induction gone with
  | nil => rfl
  | cons inst rest ih =>
    refine .perform trivial ?_
    rintro err _ rfl
    refine .perform (Nat.succ_pos _) ?_
    rintro _ _ rfl
    exact ih.bind fun s later hs => hs

theorem discard_bind_obeys {β : Type} (gone : List CachedReadSession) {adds : ℕ}
    {f : Option Err → CacheM β} {Q : Owed → β → Prop}
    (hf : ∀ err, (f err).Obeys owing Q ⟨adds, 0⟩) :
    (ReadCache.discard gone >>= f).Obeys owing Q ⟨adds, 0 + gone.length⟩ := by
  refine (discard_obeys gone adds 0).bind ?_
  rintro _ err rfl
  exact hf err

theorem put_obeys (rounds : ℕ) (inst : Option CachedReadSession) :
    (ReadCache.put rounds inst).Obeys owing Reported ⟨0, 0⟩ := by
  cases inst with
  | none =>
    unfold ReadCache.put
    rfl
  | some inst =>
    induction rounds with
    | zero => rfl
    | succ n ih =>
      refine .perform trivial ?_
      rintro (replaced | oldest | -) _ rfl
      · refine discard_bind_obeys _ fun _ => Prog.obeys_perform.mpr ⟨Nat.one_pos, ?_⟩
        rintro _ _ rfl
        rfl
      · exact discard_bind_obeys [oldest] fun _ => ih
      refine .perform trivial ?_
      rintro _ _ rfl
      rfl

theorem get_obeys (key : String) :
    (ReadCache.get key).Obeys owing (fun s _ => s = ⟨0, 0⟩) ⟨0, 0⟩ := by
  refine .perform trivial ?_
  rintro r _ rfl
  exact discard_bind_obeys _ fun _ => rfl

/-- Each call of the cache reports what it has done before it returns. -/
theorem task_obeys (task : CacheTask) : task.prog.Obeys owing Reported ⟨0, 0⟩ := by
  cases task with
  | get key => exact (get_obeys key).bind fun s _ hs => hs
  | put rounds inst => exact put_obeys rounds inst
  | evict key | close =>
    refine .perform trivial ?_
    rintro gone _ rfl
    exact discard_bind_obeys _ fun _ => rfl

/-! ### The balance -/

section Balance

variable {ι : Type} {w : ReadCache} {g : ι → Owed}

/-- What is owed together: the additions less the removals are what the cache is ahead of the gauge,
and the removals are what the cache is ahead of the evictions. -/
structure Balanced (w : ReadCache) (g : ι → Owed) : Prop where
  keyed : w.cache.Keyed
  gauge : SumsTo (fun i => (g i).net)
    (w.cache.entries.length + w.early - w.metrics.total.activeReadInstances)
  evictions : SumsTo (fun i => (g i).evictions) (w.removed - w.metrics.total.readCacheEvictions)

theorem balanced_new (max idleTTL : ℤ) :
    Balanced (ReadCache.new max idleTTL) fun _ : ι => ⟨0, 0⟩ where
  keyed := Cache.new_keyed max idleTTL
  gauge := sumsTo_zero fun _ => rfl
  evictions := sumsTo_zero fun _ => rfl

variable [DecidableEq ι]

theorem Balanced.locked (h : Balanced w g) (i : ι) (added : ℕ) {cache : Cache CachedReadSession}
    {gone : List CachedReadSession} (hkeyed : cache.Keyed)
    (hlength : cache.entries.length + gone.length = w.cache.entries.length + added) :
    Balanced (w.remove gone cache)
      (update g i ⟨(g i).adds + added, (g i).removes + gone.length⟩) where
  keyed := hkeyed
  gauge := by
    refine h.gauge.update i _ ?_
    simp only [ReadCache.remove, Owed.net]
    push_cast
    omega
  evictions := by
    refine h.evictions.update i _ ?_
    simp only [ReadCache.remove, Owed.evictions]
    push_cast
    omega

/-- The sum of the gauges goes up with an addition that is reported. -/
theorem total_readInstanceAdded (metrics : Registry) (inst : CachedReadSession) :
    (readInstanceAdded metrics inst).total.activeReadInstances =
        metrics.total.activeReadInstances + 1 ∧
      (readInstanceAdded metrics inst).total.readCacheEvictions =
        metrics.total.readCacheEvictions := by
  have hactive :=
    Registry.sum_record Metrics.activeReadInstances rfl metrics inst.metricsID countAdded
  have hevictions :=
    Registry.sum_record Metrics.readCacheEvictions rfl metrics inst.metricsID countAdded
  simp only [countAdded] at hactive hevictions
  simp only [readInstanceAdded, Registry.total]
  omega

/-- The sum of the gauges goes down with a removal that is reported, unless the gauge of its
database is zero. -/
theorem total_readInstanceRemoved (metrics : Registry) (inst : CachedReadSession) :
    ((readInstanceRemoved metrics inst).total.activeReadInstances +
        (if gaugeOf metrics inst > 0 then 1 else 0) = metrics.total.activeReadInstances) ∧
      (readInstanceRemoved metrics inst).total.readCacheEvictions =
        metrics.total.readCacheEvictions + 1 := by
  have hactive :=
    Registry.sum_record Metrics.activeReadInstances rfl metrics inst.metricsID countRemoved
  have hevictions :=
    Registry.sum_record Metrics.readCacheEvictions rfl metrics inst.metricsID countRemoved
  simp only [countRemoved] at hactive hevictions
  have hgauge : (metrics.bucket (Observability.hash inst.metricsID)).activeReadInstances =
      gaugeOf metrics inst := rfl
  rw [hgauge] at hactive
  simp only [readInstanceRemoved, Registry.total]
  refine ⟨?_, by omega⟩
  split at hactive
  · next hpos =>
    rw [if_pos hpos]
    omega
  · next hzero =>
    rw [if_neg hzero]
    omega

theorem Balanced.call (h : Balanced w g) (i : ι) (c : CacheCall) (x : CacheChoice)
    (hallow : (g i).Allows c) :
    Balanced (w.reply x c).2 (update g i ((g i).after c (w.reply x c).1)) := by
  cases c with
  | get key =>
    obtain ⟨hkeyed, hlength⟩ := Cache.getAt_length h.keyed key x.now x.used
    exact h.locked i 0 hkeyed hlength
  | putRound inst =>
    obtain ⟨hkeyed, hlength⟩ := Cache.putLocked_length h.keyed inst.key inst x.now
    exact h.locked i _ hkeyed hlength
  | evict key =>
    exact h.locked i 0 (Cache.evict_keeps h.keyed key).keyed (Cache.evict_length h.keyed key)
  | drain =>
    exact h.locked i 0 (Cache.drain_keeps w.cache).keyed (Cache.drain_length w.cache)
  | close inst =>
    rw [Owed.after, update_eq_self]
    exact h
  | readInstanceAdded inst =>
    obtain ⟨hactive, hevictions⟩ := total_readInstanceAdded w.metrics inst
    have hpos : 0 < (g i).adds := hallow
    refine ⟨h.keyed, h.gauge.update i _ ?_, h.evictions.update i _ ?_⟩
    · simp only [ReadCache.reply, Owed.after, Owed.net, hactive]
      push_cast
      omega
    · simp only [ReadCache.reply, Owed.after, Owed.evictions, hevictions]
  | readInstanceRemoved inst =>
    obtain ⟨hactive, hevictions⟩ := total_readInstanceRemoved w.metrics inst
    have hpos : 0 < (g i).removes := hallow
    refine ⟨h.keyed, h.gauge.update i _ ?_, h.evictions.update i _ ?_⟩
    · simp only [ReadCache.reply, Owed.after, Owed.net]
      split at hactive
      · next hgauge =>
        rw [if_pos hgauge]
        omega
      · next hgauge =>
        rw [if_neg hgauge]
        omega
    · simp only [ReadCache.reply, Owed.after, Owed.evictions, hevictions]
      omega

theorem balanced_invariant {max idleTTL : ℤ} {a : Pool ReadCache ι CacheCall CacheCall.Resp Unit}
    (h : (cacheSystem ι).Reachable (ReadCache.new max idleTTL) a) :
    ∃ g, Balanced a.world g ∧ (∀ i p, a.procs i = some p → p.Obeys owing Reported (g i)) ∧
      ∀ i, a.procs i = none → g i = ⟨0, 0⟩ := by
  refine h.invariant_knowing (K := fun _ => True) owing (fun _ => Reported) Balanced
    (fun _ => ⟨0, 0⟩) (fun _ _ => trivial) (balanced_new max idleTTL) ?_ ?_ ?_
  · rintro w g i _ _ - hbalanced hidle ⟨task, rfl, rfl⟩
    refine ⟨⟨0, 0⟩, task_obeys task, ?_⟩
    rw [← hidle, update_eq_self]
    exact hbalanced
  · rintro w g i c r w' - hbalanced hallow ⟨x, hreply⟩
    refine ⟨_, rfl, ?_⟩
    have hcall := hbalanced.call i c x hallow
    rw [hreply] at hcall
    exact hcall
  · exact fun _ _ _ _ _ henv => henv.elim

end Balance

/-- **Whenever no call of the cache is in progress, the evictions are the removed instances, and the
sum of the gauges is the number of cached instances if and only if no removal was reported while the
gauge of its database was zero.** -/
theorem readGauge_at_rest {ι : Type} [DecidableEq ι] {max idleTTL : ℤ}
    {a : Pool ReadCache ι CacheCall CacheCall.Resp Unit}
    (h : (cacheSystem ι).Reachable (ReadCache.new max idleTTL) a) (hrest : a.AtRest) :
    a.world.metrics.total.readCacheEvictions = a.world.removed ∧
      (a.world.metrics.total.activeReadInstances = a.world.cache.entries.length ↔
        a.world.early = 0) := by
  obtain ⟨g, hbalanced, hobeys, hidle⟩ := balanced_invariant h
  have hsettled : ∀ i, g i = ⟨0, 0⟩ := by
    intro i
    rcases hrest.cases i with hp | ⟨x, hp⟩
    · exact hidle i hp
    · exact hobeys i _ hp
  have hgauge := hbalanced.gauge.eq_zero fun i => by rw [hsettled i]; rfl
  have hevictions := hbalanced.evictions.eq_zero fun i => by rw [hsettled i]; rfl
  omega

/-! ### A removal that is reported before its addition -/

/-- The answers are computed from the choices. -/
def cacheInterpreter (ι : Type) : Interpreter (cacheSystem ι) CacheTask CacheChoice Empty where
  start w _ task := some (task.prog, w)
  call w _ c x := some (w.reply x c)
  env _ x := nomatch x
  start_sound h := by
    cases h
    exact ⟨_, rfl, rfl⟩
  call_sound h := ⟨_, Option.some.inj h⟩
  env_sound {_ x} := nomatch x

namespace Gauge

/-- Runs of two goroutines. -/
abbrev Moves := List (Move (Fin 2) CacheTask CacheChoice Empty)

/-- A pool of two goroutines. -/
abbrev State := Pool ReadCache (Fin 2) CacheCall CacheCall.Resp Unit

/-- A read session. -/
def session : CachedReadSession := ⟨0, "k", "db"⟩

/-- Answer the next `n` calls of a goroutine at time zero, without errors. -/
def steps (i : Fin 2) (n : ℕ) : Moves := List.replicate n (.call i ⟨0, 0, none⟩)

/-- A `Put` and then an `Evict`. -/
def oneByOne : Moves :=
  .start 0 (.put 1 (some session)) :: steps 0 2 ++ .start 1 (.evict "k") :: steps 1 3

/-- The `Evict` comes between the locked section of the `Put` and its report. -/
def overtaken : Moves :=
  .start 0 (.put 1 (some session)) :: steps 0 1 ++ .start 1 (.evict "k") :: steps 1 3 ++ steps 0 1

/-- Who has returned, the number of cached instances, and the metrics. -/
structure View where
  outcomes : Option Unit × Option Unit
  cached : ℕ
  total : Metrics
  deriving DecidableEq

/-- The view of a pool. -/
def view (a : State) : View where
  outcomes := (a.outcome 0, a.outcome 1)
  cached := a.world.cache.entries.length
  total := a.world.metrics.total

theorem atRest_of_view {a : State} {o : View} (h : view a = o)
    (ho : o.outcomes = (some (), some ())) : a.AtRest := by
  have hboth := (congrArg View.outcomes h).trans ho
  have h0 : a.outcome 0 = some () := congrArg Prod.fst hboth
  have h1 : a.outcome 1 = some () := congrArg Prod.snd hboth
  exact Fin.forall_fin_two.mpr ⟨Pool.pending_of_outcome h0, Pool.pending_of_outcome h1⟩

/-- One call after the other: the gauge is zero again, and one eviction is counted. -/
theorem readGauge_at_rest_oneByOne : ∃ a : State,
    (cacheSystem (Fin 2)).Reachable (ReadCache.new 1 1) a ∧ a.AtRest ∧
      a.world.removed = 1 ∧ a.world.early = 0 := by
  have hview : ((cacheInterpreter (Fin 2)).exec (ReadCache.new 1 1) oneByOne).map view =
      some ⟨(some (), some ()), 0, ⟨1, 0⟩⟩ := by decide +kernel
  obtain ⟨a, ha, heq⟩ := Option.map_eq_some_iff.mp hview
  have hreach := Interpreter.exec_reachable _ ha
  have hrest := atRest_of_view heq rfl
  obtain ⟨hevictions, hgauge⟩ := readGauge_at_rest hreach hrest
  have htotal : a.world.metrics.total = ⟨1, 0⟩ := congrArg View.total heq
  have hcached : a.world.cache.entries.length = 0 := congrArg View.cached heq
  rw [htotal] at hevictions hgauge
  exact ⟨a, hreach, hrest, hevictions.symm, hgauge.mp hcached.symm⟩

end Gauge

open Gauge in
/-- All calls have returned and nothing is cached, but the gauge stays at one. -/
theorem readGauge_overcounts : ∃ a : State,
    (cacheSystem (Fin 2)).Reachable (ReadCache.new 1 1) a ∧ a.AtRest ∧
      a.world.cache.entries.length = 0 ∧ a.world.metrics.total.activeReadInstances = 1 := by
  have hview : ((cacheInterpreter (Fin 2)).exec (ReadCache.new 1 1) overtaken).map view =
      some ⟨(some (), some ()), 0, ⟨1, 1⟩⟩ := by decide +kernel
  obtain ⟨a, ha, heq⟩ := Option.map_eq_some_iff.mp hview
  have htotal : a.world.metrics.total = ⟨1, 1⟩ := congrArg View.total heq
  exact ⟨a, Interpreter.exec_reachable _ ha, atRest_of_view heq rfl, congrArg View.cached heq,
    congrArg Metrics.activeReadInstances htotal⟩

end Walrusd.Runtime
