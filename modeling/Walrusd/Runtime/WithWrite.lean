import Mathlib.Data.Rat.Init
import Walrusd.Runtime.Write

/-!
# The retry loop of a write

`WithWrite` of `runtime/runtime.go` repeats the whole attempt with the same idempotency key while
the failure is retryable and the budget lasts. It is a program over its own calls, one of which is
an attempt. The loop of the source is bounded by clocks only; the model is bounded by a number of
rounds, and `none` stands for a write that is still retrying after that many attempts, so every
write that returns in the source returns the same in the model with enough rounds.

Products of durations with floating-point factors are not computed here: a policy has a function
for those with its multiplier, and jittering a delay is a call.

## Main definitions

* `RetryPolicy`, `RetryPolicy.delay` (`runtime/retry.go`).
* `withWrite`.

## Main results

* `withWrite_obeys` — a write that succeeds returns what an attempt returned.
-/

namespace Walrusd.Runtime

open Program

/-! ### The retry policy -/

/-- The policy of the retry loop; a policy without a positive `maxTotal` never retries. -/
structure RetryPolicy where
  fixedDelay : ℤ
  fixedRetries : ℤ
  multiplier : ℚ
  maxDelay : ℤ
  maxTotal : ℤ
  /-- `time.Duration(float64(delay) * factor)`, which may round and overflow. -/
  scale : ℤ → ℚ → ℤ := fun delay factor => (delay * factor.num).tdiv factor.den

namespace RetryPolicy

/-- `DefaultRetryPolicy`. -/
def default : RetryPolicy where
  fixedDelay := second
  fixedRetries := 10
  multiplier := 2
  maxDelay := 64 * second
  maxTotal := 64 * second

/-- Fill in the fields that are not set. -/
def withDefaults (p : RetryPolicy) : RetryPolicy :=
  if p.maxTotal ≤ 0 then ⟨0, 0, 0, 0, 0, p.scale⟩
  else
    { p with
      fixedDelay := if p.fixedDelay ≤ 0 then default.fixedDelay else p.fixedDelay
      fixedRetries := if p.fixedRetries < 0 then 0 else p.fixedRetries
      multiplier := if p.multiplier ≤ 0 then default.multiplier else p.multiplier
      maxDelay := if p.maxDelay ≤ 0 then default.maxDelay else p.maxDelay }

/-- The loop of `baseDelay`: grow the delay `steps` times, up to the maximum. -/
def grow (p : RetryPolicy) : ℕ → ℤ → ℤ
  | 0, delay => delay
  | steps + 1, delay =>
    let delay := p.scale delay p.multiplier
    if p.maxDelay > 0 ∧ delay ≥ p.maxDelay then p.maxDelay else p.grow steps delay

/-- The delay before retry `n`, counted from one, without jitter. -/
def baseDelay (p : RetryPolicy) (n : ℕ) : ℤ :=
  if n = 0 then 0
  else
    let delay :=
      if (n : ℤ) > p.fixedRetries then p.grow (n - p.fixedRetries).toNat p.fixedDelay
      else p.fixedDelay
    if p.maxDelay > 0 ∧ delay > p.maxDelay then p.maxDelay else delay

/-- `retryAfter`: the hint of the outermost classified error, in nanoseconds. -/
def retryAfter : Err → ℤ
  | .new cls _ retryAfterMs _ =>
    if cls = .busy ∧ retryAfterMs > 0 then retryAfterMs * millisecond else 0
  | .annotated _ _ cause => retryAfter cause
  | _ => 0

/-- The delay before a retry, from the jittered one; a longer Retry-After hint wins. -/
def delay (p : RetryPolicy) (err : Err) (jittered : ℤ) : ℤ :=
  let delay := if retryAfter err > jittered then retryAfter err else jittered
  if p.maxDelay > 0 ∧ delay > p.maxDelay then p.maxDelay else delay

end RetryPolicy

/-! ### Calls -/

/-- Why the loop woke up between two attempts. -/
inductive Woken
  | ctxDone (e : Err)
  | budgetDone
  | timer

/-- The calls of a write. -/
inductive WriteOp
  | identity
  | attempt (key : String)
  | ctxErr
  | budgetErr
  | jitterDelay (delay : ℤ)
  | untilBudget
  | wait (delay : ℤ)
  | beforeBudget

/-- The responses. -/
@[reducible] def WriteOp.Resp : WriteOp → Type
  | .identity => Except Err Unit
  | .attempt _ => Except Err WriteResult
  | .ctxErr | .budgetErr => Option Err
  | .jitterDelay _ | .untilBudget => ℤ
  | .wait _ => Woken
  | .beforeBudget => Bool

/-- Programs over the calls of a write. -/
abbrev WriteM := Prog WriteOp WriteOp.Resp

/-- Issue one call. -/
abbrev issue (c : WriteOp) : WriteM c.Resp := perform c

/-! ### The loop -/

section Loop

variable (policy : RetryPolicy) (key : String)

/-- What follows a failed attempt: an error to return, or `none` to try again. -/
def afterFailure (retry : ℕ) (err : Err) : WriteM (Option Err) := do
  let cancelled : Option Err ← issue .ctxErr
  match cancelled with
  | some e => return some e
  | none =>
    let spent : Option Err ← issue .budgetErr
    if spent.isSome ∧ isRetryableWrite err then return some err
    else if spent.isSome ∧ err.is .deadlineExceeded then
      return some (.busy "write retry budget exhausted" 0)
    else if policy.maxTotal ≤ 0 ∨ !isRetryableWrite err then return some err
    else
      let jittered : ℤ ← issue (.jitterDelay (policy.baseDelay (retry + 1)))
      let delay := policy.delay err jittered
      if delay ≤ 0 then return some err
      else
        -- the budget has a deadline here, because `maxTotal` is positive
        let remaining : ℤ ← issue .untilBudget
        if remaining ≤ 0 then return some err
        else
          let woken : Woken ← issue (.wait (if delay > remaining then remaining else delay))
          match woken with
          | .ctxDone e => return some e
          | .budgetDone => return some err
          | .timer =>
            let before : Bool ← issue .beforeBudget
            if before then return none else return some err

/-- The loop of `WithWrite`, for a number of rounds. -/
def retryLoop : ℕ → ℕ → WriteM (Option (Except Err WriteResult))
  | 0, _ => return none
  | rounds + 1, retry => do
    let attempted : Except Err WriteResult ← issue (.attempt key)
    match attempted with
    | .ok res => return some (.ok res)
    | .error err =>
      match ← afterFailure policy retry err with
      | some e => return some (.error e)
      | none => retryLoop rounds (retry + 1)

/-- `WithWrite`: `hasFn` says whether a callback was passed. -/
def withWrite (databaseID : String) (hasFn : Bool) (rounds : ℕ) :
    WriteM (Option (Except Err WriteResult)) :=
  if key = "" then
    return some (.error (.new .invalidArgument "idempotency key is required for mutations" 0 ""))
  else if !hasFn then
    return some (.error (.new .invalidArgument "write callback is required" 0 ""))
  else do
    let identity : Except Err Unit ← issue .identity
    match identity with
    | .error e => return some (.error (.wrap .invalidArgument "database id" "" e))
    | .ok () =>
      match ← retryLoop policy.withDefaults key rounds 0 with
      | some (.error e) => return some (.error (e.withDatabase databaseID))
      | some (.ok res) => return some (.ok res)
      | none => return none

end Loop

/-! ### What a write returns -/

section Result

variable {policy : RetryPolicy} {key : String}

/-- The calls of a write for the key in the state, and its last successful attempt. -/
def attempts : Protocol WriteOp WriteOp.Resp (String × Option WriteResult) where
  allow s c := ∀ key, c = .attempt key → key = s.1
  next s c r s' :=
    match c, r with
    | .attempt _, .ok res => s' = (s.1, some res)
    | _, _ => s' = s

/-- A result that reports success is that of the last attempt. -/
def Attempted (s : String × Option WriteResult) (res : Option (Except Err WriteResult)) : Prop :=
  ∀ r, res = some (.ok r) → s.2 = some r

theorem afterFailure_only (retry : ℕ) (err : Err) :
    (afterFailure policy retry err).Only fun c => ∀ key', c ≠ .attempt key' := by
  refine .perform nofun ?_
  rintro (_ | e)
  · refine .perform nofun fun spent => ?_
    split
    · trivial
    split
    · trivial
    split
    · trivial
    refine .perform nofun fun jittered => ?_
    simp only
    split
    · trivial
    refine .perform nofun fun remaining => ?_
    split
    · trivial
    refine .perform nofun ?_
    rintro (e | _ | _)
    · trivial
    · trivial
    refine .perform nofun fun before => ?_
    split <;> trivial
  · trivial

theorem afterFailure_obeys
    {Q : String × Option WriteResult → Option (Except Err WriteResult) → Prop}
    {s : String × Option WriteResult} {retry : ℕ} {err : Err}
    {f : Option Err → WriteM (Option (Except Err WriteResult))}
    (hf : ∀ e, (f e).Obeys attempts Q s) :
    (afterFailure policy retry err >>= f).Obeys attempts Q s := by
  refine (afterFailure_only retry err).bind_obeys
    (fun c hc => ⟨fun key' h => absurd h (hc key'), fun r s' h => ?_⟩) hf
  cases c with
  | attempt key' => exact absurd rfl (hc key')
  | _ => exact h

theorem retryLoop_obeys (rounds retry : ℕ) (s : Option WriteResult) :
    (retryLoop policy key rounds retry).Obeys attempts Attempted (key, s) := by
  induction rounds generalizing retry s with
  | zero => exact fun r hr => nomatch hr
  | succ rounds ih =>
    refine .perform (fun key' h => (WriteOp.attempt.inj h).symm) ?_
    rintro (err | res) s' rfl
    · refine afterFailure_obeys fun e => ?_
      rcases e with _ | e
      · exact ih (retry + 1) s
      · exact fun r hr => nomatch hr
    · intro r hr
      exact congrArg some (Except.ok.inj (Option.some.inj hr))

/-- A write attempts with its own key only, and **a write that succeeds returns what an attempt
returned**. -/
theorem withWrite_obeys (databaseID : String) (hasFn : Bool) (rounds : ℕ) :
    (withWrite policy key databaseID hasFn rounds).Obeys attempts Attempted (key, none) := by
  unfold withWrite
  split
  · exact fun r hr => nomatch hr
  split
  · exact fun r hr => nomatch hr
  refine .perform nofun ?_
  rintro (e | _) s' rfl
  · exact fun r hr => nomatch hr
  refine (retryLoop_obeys rounds 0 none).bind fun s res hs => ?_
  rcases res with _ | e | res
  · exact fun r hr => nomatch hr
  · exact fun r hr => nomatch hr
  intro r hr
  obtain rfl : res = r := Except.ok.inj (Option.some.inj hr)
  exact hs res rfl

end Result

end Walrusd.Runtime
