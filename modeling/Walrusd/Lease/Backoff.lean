import Mathlib
import Walrusd.Lease.Manager

/-!
# The backoff of waiting acquirers

`retryDelay` doubles its step in 64-bit arithmetic and stops before the step can pass half the
maximum. Here the computation is done in 64-bit arithmetic as in the source, and compared with the
exact one: no doubling overflows, and the step is the smaller of the maximum and the exponential.

## Main definitions

* `backoffMin`, `backoffMax` — the bounds after the defaulting rules.
* `growDelay64`, `retryBounds64` — the step in 64-bit arithmetic.

## Main results

* `growDelay_eq` — the exact step.
* `retryDelay_bounded`.
-/

namespace Walrusd.Lease

open Program

/-! ### 64-bit arithmetic -/

/-- The effective `RetryBackoffMin`. -/
def backoffMin (min : Int64) : Int64 := if min ≤ 0 then 25000000 else min

/-- The effective `RetryBackoffMax`. -/
def backoffMax (min max : Int64) : Int64 :=
  let max := if max ≤ 0 then 500000000 else max
  if max < backoffMin min then backoffMin min else max

/-- The doubling loop of `retryDelay` in 64-bit arithmetic. -/
def growDelay64 (max : Int64) : ℕ → Int64 → Int64
  | 0, delay => delay
  | rounds + 1, delay =>
    if delay < max then
      if delay > max / 2 then max else growDelay64 max rounds (delay * 2)
    else delay

/-- The delays that the loop doubles. -/
def doubled (max : Int64) : ℕ → Int64 → List Int64
  | 0, _ => []
  | rounds + 1, delay =>
    if delay < max then
      if delay > max / 2 then [] else delay :: doubled max rounds (delay * 2)
    else []

/-- The bounds between which `retryDelay` draws, in 64-bit arithmetic. -/
def retryBounds64 (min max : Int64) (attempt : ℕ) : Int64 × Int64 :=
  let delay := growDelay64 (backoffMax min max) attempt (backoffMin min)
  let delay := if delay > backoffMax min max then backoffMax min max else delay
  let low := delay / 2
  (if low < backoffMin min then backoffMin min else low, delay)

theorem toInt_div_two (a : Int64) : (a / 2).toInt = a.toInt.tdiv 2 :=
  Int64.toInt_div_of_ne_right a 2 (by decide)

/-- A positive number is at most half of another one if its double is at most that one. -/
theorem le_tdiv_two_iff {a max : ℤ} (hpos : 0 < a) : a ≤ max.tdiv 2 ↔ a * 2 ≤ max := by
  rcases le_or_gt 0 max with hmax | hmax
  · rw [Int.tdiv_eq_ediv_of_nonneg hmax]
    omega
  have hneg : max.tdiv 2 = -((-max).tdiv 2) := by rw [Int.neg_tdiv, neg_neg]
  rw [hneg, Int.tdiv_eq_ediv_of_nonneg (by omega)]
  omega

theorem toInt_mul_two {a max : Int64} (hpos : 0 < a.toInt) (hle : ¬ a > max / 2) :
    (a * 2).toInt = a.toInt * 2 := by
  have hhalf : a.toInt * 2 ≤ max.toInt := by
    rwa [gt_iff_lt, Int64.lt_iff_toInt_lt, not_lt, toInt_div_two, le_tdiv_two_iff hpos] at hle
  have hmax := max.toInt_lt
  rw [Int64.toInt_mul, show (2 : Int64).toInt = 2 from rfl]
  exact Int.bmod_eq_of_le (by omega) (by omega)

theorem toInt_backoffMin (min : Int64) : (backoffMin min).toInt =
    if min.toInt ≤ 0 then 25 * millisecond else min.toInt := by
  unfold backoffMin
  rw [apply_ite Int64.toInt]
  simp only [Int64.le_iff_toInt_le]
  rfl

theorem toInt_backoffMin_pos (min : Int64) : 0 < (backoffMin min).toInt := by
  rw [toInt_backoffMin]
  split
  · decide
  · omega

theorem toInt_backoffMin_le (min max : Int64) :
    (backoffMin min).toInt ≤ (backoffMax min max).toInt := by
  unfold backoffMax
  simp only
  generalize (if max ≤ 0 then 500000000 else max) = top
  split
  · exact le_rfl
  · next hle => rwa [Int64.lt_iff_toInt_lt, not_lt] at hle

/-- The loop computes the same in 64-bit arithmetic as over the integers. -/
theorem toInt_growDelay64 (max : Int64) {delay : Int64} (hpos : 0 < delay.toInt) (rounds : ℕ) :
    (growDelay64 max rounds delay).toInt = growDelay max.toInt rounds delay.toInt := by
  induction rounds generalizing delay with
  | zero => rfl
  | succ rounds ih =>
    unfold growDelay64 growDelay
    simp only [gt_iff_lt, Int64.lt_iff_toInt_lt, toInt_div_two]
    split
    · split
      · rfl
      · next hle =>
        have hhalf : ¬ delay > max / 2 := by
          rwa [gt_iff_lt, Int64.lt_iff_toInt_lt, toInt_div_two]
        have hmul := toInt_mul_two hpos hhalf
        rw [ih (by omega), hmul]
    · rfl

/-- No doubling of the loop overflows. -/
theorem toInt_mul_two_of_mem_doubled {max delay d : Int64} {rounds : ℕ} (hpos : 0 < delay.toInt)
    (hd : d ∈ doubled max rounds delay) : (d * 2).toInt = d.toInt * 2 := by
  induction rounds generalizing delay with
  | zero => cases hd
  | succ rounds ih =>
    unfold doubled at hd
    split at hd
    · split at hd
      · cases hd
      · next hle =>
        have hmul := toInt_mul_two hpos hle
        rcases List.mem_cons.mp hd with rfl | hd
        · exact hmul
        · exact ih (by omega) hd
    · cases hd

/-! ### The exact step -/

/-- **The loop computes the exponential, up to the maximum.** -/
theorem growDelay_eq {max delay : ℤ} (hpos : 0 < delay) (hle : delay ≤ max) (rounds : ℕ) :
    growDelay max rounds delay = min max (delay * 2 ^ rounds) := by
  induction rounds generalizing delay with
  | zero => simp [growDelay, hle]
  | succ rounds ih =>
    have hpow : (1 : ℤ) ≤ 2 ^ rounds := one_le_pow₀ (by decide)
    have hdouble : delay * 2 ^ (rounds + 1) = delay * 2 * 2 ^ rounds := by ring
    rw [growDelay, hdouble]
    split
    · split
      · next hhalf =>
        have hlt : max < delay * 2 := by
          rwa [gt_iff_lt, ← not_le, le_tdiv_two_iff hpos, not_le] at hhalf
        have hlarge : max ≤ delay * 2 * 2 ^ rounds :=
          hlt.le.trans (le_mul_of_one_le_right (by omega) hpow)
        rw [min_eq_left hlarge]
      · next hhalf =>
        rw [gt_iff_lt, not_lt, le_tdiv_two_iff hpos] at hhalf
        exact ih (by omega) hhalf
    · obtain rfl : delay = max := by omega
      have hlarge : delay ≤ delay * 2 * 2 ^ rounds := by
        rw [mul_assoc]
        exact le_mul_of_one_le_right hpos.le (by omega)
      rw [min_eq_left hlarge]

variable {m : Manager} {min max : Int64}

section

variable (hmin : m.cfg.retryBackoffMin = min.toInt) (hmax : m.cfg.retryBackoffMax = max.toInt)
include hmin hmax

theorem retryBounds_eq (attempt : ℕ) :
    retryBounds m attempt =
      ((retryBounds64 min max attempt).1.toInt, (retryBounds64 min max attempt).2.toInt) := by
  have htop : (backoffMax min max).toInt =
      if (if max.toInt ≤ 0 then 500 * millisecond else max.toInt) < (backoffMin min).toInt then
        (backoffMin min).toInt
      else if max.toInt ≤ 0 then 500 * millisecond else max.toInt := by
    unfold backoffMax
    simp only [apply_ite Int64.toInt, Int64.lt_iff_toInt_lt, Int64.le_iff_toInt_le]
    rfl
  have hgrow := toInt_growDelay64 (backoffMax min max) (toInt_backoffMin_pos min) attempt
  unfold retryBounds retryBounds64
  simp only [hmin, hmax, ← toInt_backoffMin, ← htop, gt_iff_lt, Int64.lt_iff_toInt_lt,
    apply_ite Int64.toInt, hgrow, toInt_div_two]

theorem retryBounds_snd (attempt : ℕ) :
    (retryBounds m attempt).2 =
      Min.min (backoffMax min max).toInt ((backoffMin min).toInt * 2 ^ attempt) := by
  have hstep := growDelay_eq (toInt_backoffMin_pos min) (toInt_backoffMin_le min max) attempt
  have hgrow := toInt_growDelay64 (backoffMax min max) (toInt_backoffMin_pos min) attempt
  rw [retryBounds_eq hmin hmax]
  simp only [retryBounds64, gt_iff_lt, Int64.lt_iff_toInt_lt, apply_ite Int64.toInt, hgrow, hstep]
  exact if_neg (not_lt.mpr (min_le_left _ _))

end

/-- `jitter` draws between its bounds, whatever the entropy source yields. -/
theorem jitter_bounded {low high delay : ℤ} (hle : low ≤ high) {tr : List (Σ c, Resp c)}
    (h : Returns (jitter low high) tr delay)
    (hrand : ∀ span n, ⟨.randInt span, some n⟩ ∈ tr → 0 ≤ n ∧ n < span) :
    low ≤ delay ∧ delay ≤ high := by
  unfold jitter at h
  split at h
  · cases h
    exact ⟨le_rfl, hle⟩
  obtain ⟨r, tr', rfl, hrest⟩ := h.of_perform_bind
  rcases r with _ | n
  · cases hrest
    exact ⟨le_rfl, hle⟩
  cases hrest
  obtain ⟨hn, hspan⟩ := hrand _ n List.mem_cons_self
  omega

/-- **The delay of an attempt.** For all 64-bit bounds, the step before jitter is the smaller of the
maximum and the exponential, no doubling overflows, and the delay lies in the upper half of the
step, but not below the minimum. -/
theorem retryDelay_bounded (hmin : m.cfg.retryBackoffMin = min.toInt)
    (hmax : m.cfg.retryBackoffMax = max.toInt) (n : ℕ) :
    (backoffMin min).toInt ≤ (backoffMax min max).toInt ∧
    (retryBounds64 min max n).2.toInt =
      Min.min (backoffMax min max).toInt ((backoffMin min).toInt * 2 ^ n) ∧
    (∀ d ∈ doubled (backoffMax min max) n (backoffMin min), (d * 2).toInt = d.toInt * 2) ∧
    retryBounds m n = ((retryBounds64 min max n).1.toInt, (retryBounds64 min max n).2.toInt) ∧
    ∀ tr delay, Returns (retryDelay m n) tr delay →
      (∀ span k, ⟨.randInt span, some k⟩ ∈ tr → 0 ≤ k ∧ k < span) →
      Max.max (backoffMin min).toInt ((retryBounds64 min max n).2.toInt / 2) ≤ delay ∧
        delay ≤ (retryBounds64 min max n).2.toInt := by
  have hle := toInt_backoffMin_le min max
  have hpos := toInt_backoffMin_pos min
  have hbounds := retryBounds_eq hmin hmax n
  have hstep := retryBounds_snd hmin hmax n
  simp only [hbounds] at hstep
  have hlow : (backoffMin min).toInt ≤ (retryBounds64 min max n).2.toInt := by
    rw [hstep]
    exact le_min hle (le_mul_of_one_le_right hpos.le (one_le_pow₀ (by decide)))
  have hfirst : (retryBounds64 min max n).1.toInt =
      Max.max (backoffMin min).toInt ((retryBounds64 min max n).2.toInt / 2) := by
    have hhalf : ((retryBounds64 min max n).2 / 2).toInt =
        (retryBounds64 min max n).2.toInt / 2 := by
      rw [toInt_div_two, Int.tdiv_eq_ediv_of_nonneg (by omega)]
    have hcases : (retryBounds64 min max n).1 =
        if (retryBounds64 min max n).2 / 2 < backoffMin min then backoffMin min
        else (retryBounds64 min max n).2 / 2 := rfl
    rw [hcases]
    simp only [apply_ite Int64.toInt, Int64.lt_iff_toInt_lt, hhalf]
    split <;> omega
  refine ⟨hle, hstep, fun d => toInt_mul_two_of_mem_doubled hpos, hbounds, ?_⟩
  intro tr delay hreturns hrand
  rw [retryDelay, hbounds] at hreturns
  rw [← hfirst]
  refine jitter_bounded ?_ hreturns hrand
  rw [hfirst]
  omega

/-- A maximum near the end of the range: the step reaches it without overflow. -/
theorem retryDelay_bounded_maxValue : ∃ m : Manager,
    m.cfg.retryBackoffMin = (1 : Int64).toInt ∧
    m.cfg.retryBackoffMax = Int64.maxValue.toInt ∧
    (retryBounds64 1 Int64.maxValue 70).2.toInt = 2 ^ 63 - 1 ∧
    ∀ d ∈ doubled Int64.maxValue 70 1, (d * 2).toInt = d.toInt * 2 := by
  let m : Manager := ⟨{ defaultConfig with
    retryBackoffMin := (1 : Int64).toInt, retryBackoffMax := Int64.maxValue.toInt }, "", none⟩
  obtain ⟨-, hstep, hdoubled, -⟩ := @retryDelay_bounded m 1 Int64.maxValue rfl rfl 70
  exact ⟨m, rfl, rfl, hstep.trans (by decide), hdoubled⟩

end Walrusd.Lease
