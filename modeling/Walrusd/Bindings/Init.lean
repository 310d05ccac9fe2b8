import Walrusd.Runtime.Deadlines

/-!
# The configuration of an init request

`buildRuntimeConfig` of `bindings/c/handle.go` turns the milliseconds of an init request into
durations, in 64-bit arithmetic, and `New` compares the lease duration with the 64-bit sum of the
skew allowance and the request timeout. If the exact sum does not fit into 64 bits, then the check
of `New` is about another number, and a request is accepted whose attempts may outlive their lease.

Only the fields whose targets are modelled are kept.

## Main definitions

* `RuntimeConfig`, `buildRuntimeConfig`.
* `RuntimeConfig.requestTimeout`, `RuntimeConfig.clockSkew`, `RuntimeConfig.leaseDuration` — the
  requested durations, exactly.

## Main results

* `attempt_within_lease_iff`.
-/

namespace Walrusd.Bindings

open Program Walrusd.Runtime

/-- `runtimeConfig`: the settings of an init request. -/
structure RuntimeConfig where
  requestTimeoutMs : Int64 := 0
  leaseDurationMs : Int64 := 0
  clockSkewMs : Int64 := 0
  acquireRetryBudgetMs : Int64 := 0
  retryBackoffMinMs : Int64 := 0
  retryBackoffMaxMs : Int64 := 0
  maxReadInstances : Option Int64 := none
  readInstanceIdleTTLMs : Option Int64 := none
  compactionEnabled : Option Bool := none
  compactionThreshold : Option Int64 := none
  compactionRetentionMs : Option Int64 := none
  compactionTimeoutMs : Option Int64 := none
  deriving DecidableEq

/-- `time.Duration(v) * time.Millisecond`. -/
def milliseconds (v : Int64) : ℤ := (v * 1000000).toInt

/-- A setting that counts only if it is positive. -/
def positiveMs (v : Int64) (default : ℤ) : ℤ := if 0 < v then milliseconds v else default

/-- `buildRuntimeConfig`. -/
def buildRuntimeConfig (r : RuntimeConfig) : Config where
  lease :=
    { duration := positiveMs r.leaseDurationMs defaultConfig.lease.duration
      clockSkewAllowance := positiveMs r.clockSkewMs defaultConfig.lease.clockSkewAllowance
      acquireRetryBudget := positiveMs r.acquireRetryBudgetMs defaultConfig.lease.acquireRetryBudget
      retryBackoffMin := positiveMs r.retryBackoffMinMs defaultConfig.lease.retryBackoffMin
      retryBackoffMax := positiveMs r.retryBackoffMaxMs defaultConfig.lease.retryBackoffMax }
  requestTimeout := positiveMs r.requestTimeoutMs defaultConfig.requestTimeout
  readInstanceIdleTTL := r.readInstanceIdleTTLMs.elim defaultConfig.readInstanceIdleTTL milliseconds
  maxReadInstances := r.maxReadInstances.elim defaultConfig.maxReadInstances Int64.toInt
  compaction :=
    { enabled := r.compactionEnabled.getD defaultConfig.compaction.enabled
      threshold := r.compactionThreshold.elim defaultConfig.compaction.threshold Int64.toInt
      retention := r.compactionRetentionMs.elim defaultConfig.compaction.retention milliseconds
      timeout := r.compactionTimeoutMs.elim defaultConfig.compaction.timeout milliseconds }

/-! ### The requested durations -/

/-- A setting in exact nanoseconds. -/
def exactMs (v : Int64) (default : ℤ) : ℤ := if 0 < v then v.toInt * millisecond else default

theorem positiveMs_eq (v : Int64) {default : ℤ} (h : int64 default = default) :
    positiveMs v default = int64 (exactMs v default) := by
  unfold positiveMs exactMs
  split
  · rw [milliseconds, Int64.toInt_mul]
    rfl
  · exact h.symm

theorem exactMs_pos (v : Int64) {default : ℤ} (h : 0 < default) : 0 < exactMs v default := by
  unfold exactMs
  split
  · next hv =>
    have hpos : (0 : Int64).toInt < v.toInt := Int64.lt_iff_toInt_lt.mp hv
    exact mul_pos hpos (by decide)
  · exact h

namespace RuntimeConfig

variable (r : RuntimeConfig)

/-- The requested time limit of an attempt. -/
def requestTimeout : ℤ := exactMs r.requestTimeoutMs defaultConfig.requestTimeout

/-- The requested skew allowance. -/
def clockSkew : ℤ := exactMs r.clockSkewMs defaultConfig.lease.clockSkewAllowance

/-- The requested lease duration. -/
def leaseDuration : ℤ := exactMs r.leaseDurationMs defaultConfig.lease.duration

theorem requestTimeout_eq : (buildRuntimeConfig r).requestTimeout = int64 r.requestTimeout :=
  positiveMs_eq _ (by decide)

theorem clockSkew_eq : (buildRuntimeConfig r).lease.clockSkewAllowance = int64 r.clockSkew :=
  positiveMs_eq _ (by decide)

theorem leaseDuration_eq : (buildRuntimeConfig r).lease.duration = int64 r.leaseDuration :=
  positiveMs_eq _ (by decide)

theorem requestTimeout_pos : 0 < r.requestTimeout := exactMs_pos _ (by decide)

theorem clockSkew_pos : 0 < r.clockSkew := exactMs_pos _ (by decide)

theorem leaseDuration_pos : 0 < r.leaseDuration := exactMs_pos _ (by decide)

end RuntimeConfig

/-! ### Attempts and their leases -/

section Attempt

variable {r : RuntimeConfig} {owner : String} {leases compactionLeases : Lease.Manager}

/-- `New` accepts only if the configured lease duration exceeds the 64-bit sum. -/
theorem lt_duration_of_new
    (hnew : new owner (buildRuntimeConfig r) = .ok (leases, compactionLeases)) :
    int64 (int64 r.clockSkew + int64 r.requestTimeout) < int64 r.leaseDuration ∧
      leases = Lease.newManager owner (buildRuntimeConfig r).lease none := by
  unfold new at hnew
  split at hnew
  · cases hnew
  · next hlong =>
    rw [r.clockSkew_eq, r.requestTimeout_eq, r.leaseDuration_eq, not_le] at hlong
    exact ⟨hlong, (Prod.mk.inj (Except.ok.inj hnew)).1.symm⟩

/-- The requested durations, as exact integers, leave an attempt less time than its lease has. -/
def RuntimeConfig.Consistent (r : RuntimeConfig) : Prop :=
  0 < r.requestTimeout ∧ r.clockSkew + r.requestTimeout < r.leaseDuration

instance (r : RuntimeConfig) : Decidable r.Consistent :=
  inferInstanceAs (Decidable (0 < r.requestTimeout ∧ _ < r.leaseDuration))

/-- Every attempt has a deadline, and the lease that it acquires expires later than that by more
than the skew allowance. -/
def EndsInTime (cfg : Config) (leases : Lease.Manager) : Prop :=
  ∀ json rounds db key tr res budget start,
    Returns (Lease.acquireSingleFlight json leases rounds db key) tr res →
    (∀ t, ⟨.now, t⟩ ∈ tr → start ≤ t) →
    ∀ m key' st maxExpiry held, ⟨.newHeld m key' st maxExpiry, held⟩ ∈ tr →
      ∃ deadline, attemptDeadline cfg budget start = some deadline ∧
        deadline < st.record.expiresAt - cfg.lease.clockSkewAllowance

theorem attemptDeadline_le {cfg : Config} (h : 0 < cfg.requestTimeout) (budget : Option ℤ)
    (start : ℤ) : ∃ deadline, attemptDeadline cfg budget start = some deadline ∧
      deadline ≤ start + cfg.requestTimeout := by
  rw [attemptDeadline, if_pos h]
  refine ⟨_, rfl, ?_⟩
  cases budget with
  | none => exact le_rfl
  | some total => exact min_le_left _ _

/-- At any time a manager acquires the lease of a free key, for one duration. -/
theorem exists_acquired (m : Lease.Manager) (db : DatabaseID) (key : String) (start : ℤ) :
    ∃ tr res, Returns (Lease.acquireSingleFlight .plain m 0 db key) tr res ∧
      (∀ t, ⟨.now, t⟩ ∈ tr → start ≤ t) ∧
      ∃ st maxExpiry held, ⟨.newHeld m key st maxExpiry, held⟩ ∈ tr ∧
        st.record.expiresAt = start + m.cfg.duration := by
  let rec' := Lease.issued m db start "" 1
  refine ⟨[⟨.enterFlight key, 0⟩, ⟨.lockFlight 0, ()⟩, ⟨.waitChannel 0, 0⟩,
    ⟨.get key, .error .notFound⟩, ⟨.now, start⟩, ⟨.newID, ""⟩,
    ⟨.createIfAbsent key (Lease.Plain.encode (Lease.Plain.write rec')), .ok ""⟩,
    ⟨.newHeld m key ⟨rec', "", false, false, false⟩ (rec'.expiresAt + 2 * m.cfg.duration),
      ⟨0, "", 0⟩⟩, ⟨.unlockFlight 0, ()⟩, ⟨.leaveFlight key 0, ()⟩], .ok ⟨0, "", 0⟩, ?_, ?_,
    ⟨rec', "", false, false, false⟩, rec'.expiresAt + 2 * m.cfg.duration, ⟨0, "", 0⟩, by simp, rfl⟩
  · refine .call (.call ?_)
    rw [Lease.acquireLocked_eq]
    exact .call (.call (.call (.call (.call (.call (.call (.call (.done _))))))))
  · simp

/-- Attempts end in time if and only if they have a deadline and the configured durations leave
less time for them than for their leases. -/
theorem endsInTime_iff {cfg : Config} {m : Lease.Manager} :
    EndsInTime cfg m ↔ 0 < cfg.requestTimeout ∧
      cfg.lease.clockSkewAllowance + cfg.requestTimeout < m.cfg.duration := by
  constructor
  · intro hends
    obtain ⟨tr, res, hreturns, hclock, st, maxExpiry, held, hheld, hexpiry⟩ :=
      exists_acquired m ⟨""⟩ "" 0
    obtain ⟨deadline, hdeadline, hlt⟩ :=
      hends _ _ _ _ tr res none 0 hreturns hclock _ _ st maxExpiry held hheld
    unfold attemptDeadline at hdeadline
    split at hdeadline
    · next hpos =>
      cases hdeadline
      exact ⟨hpos, by simp only [Option.elim_none] at hlt; omega⟩
    · cases hdeadline
  · rintro ⟨hpos, hlong⟩ json rounds db key tr res budget start hreturns hclock m' key' st maxExpiry
      held hheld
    obtain ⟨deadline, hdeadline, hle⟩ := attemptDeadline_le hpos budget start
    have hexpiry := Lease.acquireSingleFlight_expiry hreturns hclock hheld
    exact ⟨deadline, hdeadline, by omega⟩

/-- The requested lease duration is longer than the requested skew allowance and request timeout
together, in 64 bits the timeout is positive, and the check of `New` adds without an overflow. -/
def RuntimeConfig.WrapsInTime (r : RuntimeConfig) : Prop :=
  r.clockSkew + r.requestTimeout < r.leaseDuration ∧ 0 < int64 r.requestTimeout ∧
    int64 r.clockSkew + int64 r.requestTimeout < 2 ^ 63

/-- Without an overflow the check of `New` is about the requested durations. -/
theorem wrapsInTime_of_lt (hnew : new owner (buildRuntimeConfig r) = .ok (leases, compactionLeases))
    (hsum : r.clockSkew + r.requestTimeout < 2 ^ 63) : r.WrapsInTime := by
  obtain ⟨hlong, -⟩ := lt_duration_of_new hnew
  have hreq := r.requestTimeout_pos
  have hskew := r.clockSkew_pos
  have ereq : int64 r.requestTimeout = r.requestTimeout := int64_of_range (by omega) (by omega)
  have eskew : int64 r.clockSkew = r.clockSkew := int64_of_range (by omega) (by omega)
  rw [ereq, eskew, int64_of_range (by omega) hsum] at hlong
  refine ⟨?_, by rwa [ereq], by rwa [ereq, eskew]⟩
  -- a lease duration that overflows is longer than a sum that does not
  rcases lt_or_ge r.leaseDuration (2 ^ 63) with hlease | hlease
  · rwa [int64_of_range (by have := r.leaseDuration_pos; omega) hlease] at hlong
  · exact hsum.trans_le hlease

/-- **Attempts end before their leases can go stale if and only if the requested skew allowance
and request timeout sum to less than `2 ^ 63` nanoseconds**, or the requested lease duration, which
then overflows as well, is longer than the sum and what 64 bits keep of the request is in order. -/
theorem attempt_within_lease_iff
    (hnew : new owner (buildRuntimeConfig r) = .ok (leases, compactionLeases)) :
    r.Consistent ∧ EndsInTime (buildRuntimeConfig r) leases ↔
      r.clockSkew + r.requestTimeout < 2 ^ 63 ∨ r.WrapsInTime := by
  obtain ⟨hlong, hleases⟩ := lt_duration_of_new hnew
  have hduration : leases.cfg.duration =
      if int64 r.leaseDuration = 0 then 30 * second else int64 r.leaseDuration := by
    rw [hleases, ← r.leaseDuration_eq]
    exact apply_ite _ _ _ _
  rw [endsInTime_iff, hduration, r.requestTimeout_eq, r.clockSkew_eq]
  constructor
  · rintro ⟨⟨-, hexact⟩, hpos, hends⟩
    have hlease := (int64_range r.leaseDuration).2
    refine .inr ⟨hexact, hpos, hends.trans ?_⟩
    split
    · decide
    · exact hlease
  · intro h
    obtain ⟨hexact, hpos, hfits⟩ := h.elim (wrapsInTime_of_lt hnew) id
    refine ⟨⟨r.requestTimeout_pos, hexact⟩, hpos, ?_⟩
    have hskew := (int64_range r.clockSkew).1
    rw [int64_of_range (by omega) hfits] at hlong
    split
    · next hzero => exact (hzero ▸ hlong).trans (by decide)
    · exact hlong

end Attempt

/-- A request for attempts of five seconds, with leases of twenty seconds and a skew allowance of a
second and a half. -/
def brief : RuntimeConfig :=
  { requestTimeoutMs := 5000, leaseDurationMs := 20000, clockSkewMs := 1500 }

theorem attempt_within_lease_brief : ∃ leases compactionLeases,
    new "a" (buildRuntimeConfig brief) = .ok (leases, compactionLeases) ∧
      leases.cfg.duration = 20 * second ∧ brief.Consistent ∧
      EndsInTime (buildRuntimeConfig brief) leases :=
  ⟨_, _, rfl, by decide, (attempt_within_lease_iff rfl).mpr (.inl (by decide))⟩

/-- A request for attempts of some 292 years, the nanoseconds of which overflow. -/
def overlong : RuntimeConfig := { requestTimeoutMs := 9223372036855 }

/-- The request is accepted, with leases of thirty seconds, and its attempts have no deadline. -/
theorem overlong_accepted : ∃ leases compactionLeases,
    new "a" (buildRuntimeConfig overlong) = .ok (leases, compactionLeases) ∧ ¬overlong.Consistent ∧
      ∀ start, attemptDeadline (buildRuntimeConfig overlong) none start = none :=
  ⟨_, _, rfl, by decide, fun _ => rfl⟩

end Walrusd.Bindings
