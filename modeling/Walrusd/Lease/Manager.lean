import Walrusd.Program.Basic
import Walrusd.Error
import Walrusd.Identity
import Walrusd.Lease.Store

/-!
# The lease manager

Acquisition, renewal and release of a lease (`lease/lease.go`), as programs over the calls they
make: the store operations, the clock, the entropy source, the critical sections of a `Held`, the
channels of its renewal loop and the local acquisition queue. Each critical section of the source
is one call, and every store operation is one call, so that a pool of these programs interleaves
where the source does.

The two loops of the source take a number of rounds as an argument. `acquireLocked` treats its
last round as the one after which the retry budget is found exhausted; `renewLoop` stops taking
steps after its last round, which is how a pool represents a crash.

## Main definitions

* `Record`, `Config`, `Manager`, `Held`.
* `acquireOnce`, `acquire`, `acquireKey`.
* `renewLoop`, `release`, `abandon`.
-/

namespace Walrusd.Lease

open Program

/-! ### Records and configuration -/

/-- The lease record format. -/
def formatVersion : ℤ := 1

/-- The lease state; a record of another version may carry a state this one does not know. -/
inductive State
  | held
  | released
  | unknown (text : String)
  deriving DecidableEq, Repr

/-- The stored lease record. -/
structure Record where
  formatVersion : ℤ
  databaseID : String
  state : State
  owner : String
  leaseID : String
  epoch : ℕ
  expiresAt : ℤ
  deriving DecidableEq, Repr

/-- `encoding/json` on lease records: what is marshaled unmarshals to itself, and the errors of
marshalling have no class. -/
structure RecordJson where
  marshal : Record → Except Err Bytes
  unmarshal : Bytes → Except Err Record
  unmarshal_marshal : ∀ {rec body}, marshal rec = .ok body → unmarshal body = .ok rec
  marshal_error : ∀ {rec e}, marshal rec = .error e → ∃ text, e = .other text

/-- Lease timing. -/
structure Config where
  duration : ℤ
  clockSkewAllowance : ℤ
  acquireRetryBudget : ℤ
  retryBackoffMin : ℤ
  retryBackoffMax : ℤ
  deriving DecidableEq, Repr

/-- The starting configuration. -/
def defaultConfig : Config where
  duration := 30 * second
  clockSkewAllowance := 2 * second
  acquireRetryBudget := 3 * second
  retryBackoffMin := 25 * millisecond
  retryBackoffMax := 500 * millisecond

/-- A manager: its timing, the instance ID it writes into records, and the function that derives
lease keys, if it has one. -/
structure Manager where
  cfg : Config
  owner : String
  keys : Option (DatabaseID → String)

/-- `NewManager`: a zero duration selects the default configuration. -/
def newManager (owner : String) (cfg : Config) (keyFn : Option (DatabaseID → String)) : Manager :=
  ⟨if cfg.duration = 0 then defaultConfig else cfg, owner, keyFn⟩

/-- A pointer to an acquired lease, with the fields of the lease that never change. -/
structure Held where
  id : ℕ
  key : String
  maxExpiry : ℤ
  deriving DecidableEq, Repr

/-- The fields of an acquired lease that change. `version` is the fencing token of every
conditional replace; `stopped` and `ended` say whether the channels `stop` and `done`, which
`newHeld` always makes, are closed. -/
structure HeldState where
  record : Record
  version : Token
  lost : Bool
  stopped : Bool
  ended : Bool
  deriving DecidableEq, Repr

/-! ### Calls -/

/-- Why a waiting acquirer goes on. -/
inductive Wake
  | released
  | timer
  | ctxDone (err : Err)
  deriving DecidableEq, Repr

/-- The calls of the lease programs. -/
inductive Op
  | now
  | newID
  | get (key : String)
  | createIfAbsent (key : String) (body : Bytes)
  | replaceIfToken (key : String) (expectedToken : Token) (body : Bytes)
  | newHeld (m : Manager) (key : String) (state : HeldState) (maxExpiry : ℤ)
  | snapshot (held : Held)
  | setRenewed (held : Held) (expiresAt : ℤ) (version : Token)
  | markLost (held : Held)
  | awaitStopOrTick (held : Held) (interval : ℤ)
  | isStopped (held : Held)
  | closeStop (held : Held)
  | awaitDone (held : Held)
  | closeDone (held : Held)
  | enterFlight (key : String)
  | lockFlight (fl : ℕ)
  | unlockFlight (fl : ℕ)
  | leaveFlight (key : String) (fl : ℕ)
  | waitChannel (fl : ℕ)
  | notifyWaiters (key : String)
  | overBudget (budget : ℤ)
  | ctxErr
  | randInt (span : ℤ)
  | wait (ch : ℕ) (delay : ℤ)

/-- The responses to the calls. -/
@[reducible] def Resp : Op → Type
  | .now => ℤ
  | .newID => String
  | .get _ => Except StoreErr (Bytes × Token)
  | .createIfAbsent _ _ | .replaceIfToken _ _ _ => Except StoreErr Token
  | .newHeld _ _ _ _ => Held
  | .snapshot _ => Record × Token
  | .awaitStopOrTick _ _ | .isStopped _ | .overBudget _ => Bool
  | .enterFlight _ | .waitChannel _ => ℕ
  | .ctxErr => Option Err
  | .randInt _ => Option ℤ
  | .wait _ _ => Wake
  | .setRenewed _ _ _ | .markLost _ | .closeStop _ | .awaitDone _ | .closeDone _ | .lockFlight _
  | .unlockFlight _ | .leaveFlight _ _ | .notifyWaiters _ => Unit

/-- Lease programs. -/
abbrev LeaseM := Prog Op Resp

/-- Issue one call. -/
abbrev ask (c : Op) : LeaseM (Resp c) := perform c

/-! ### Acquisition -/

section Programs

variable (json : RecordJson) (m : Manager)

/-- A store error as the cause of a classified error. -/
def StoreErr.cause (e : StoreErr) : Err := .other e.text

/-- `errRetry` with the reason for which acquisition has to reread the store. -/
def retryBecause (reason : String) : Err := .annotated "" (": " ++ reason) .errRetry

/-- A held record for a new acquisition; the epoch is a 64-bit counter. -/
def newRecord (db : DatabaseID) (prevEpoch : ℕ) : LeaseM Record := do
  let now : ℤ ← ask .now
  let id : String ← ask .newID
  return { formatVersion := formatVersion, databaseID := db.string, state := .held,
           owner := m.owner, leaseID := id, epoch := (prevEpoch + 1) % 2 ^ 64,
           expiresAt := now + m.cfg.duration }

/-- Wrap an acquired record with its renewal loop. -/
def newHeld (key : String) (rec : Record) (version : Token) : LeaseM Held :=
  ask (.newHeld m key { record := rec, version, lost := false, stopped := false, ended := false }
    (rec.expiresAt + 2 * m.cfg.duration))

/-- Create the lease record of an absent key. -/
def create (key : String) (rec : Record) : LeaseM (Except Err Held) := do
  match json.marshal rec with
  | .error e => return .error e
  | .ok body =>
    let res : Except StoreErr Token ← ask (.createIfAbsent key body)
    match res with
    | .error .alreadyExists | .error .conflict => return .error (retryBecause "lost create race")
    | .error e => return .error (.wrap .remoteUnavailable "create lease" "" e.cause)
    | .ok version => return .ok (← newHeld m key rec version)

/-- Take over a released or safely expired record with the token that was read. -/
def replace (key : String) (expectedVersion : Token) (rec : Record) :
    LeaseM (Except Err Held) := do
  match json.marshal rec with
  | .error e => return .error e
  | .ok body =>
    let res : Except StoreErr Token ← ask (.replaceIfToken key expectedVersion body)
    match res with
    | .error .conflict | .error .notFound =>
        return .error (retryBecause "CAS conflict on acquire")
    | .error e => return .error (.wrap .remoteUnavailable "replace lease" "" e.cause)
    | .ok version => return .ok (← newHeld m key rec version)

/-- One round of acquisition: read the record, and create it or take it over if the rules
allow. -/
def acquireOnce (db : DatabaseID) (key : String) : LeaseM (Except Err Held) := do
  let got : Except StoreErr (Bytes × Token) ← ask (.get key)
  match got with
  | .error .notFound =>
    let rec ← newRecord m db 0
    create json m key { rec with epoch := 1 }
  | .error e => return .error (.wrap .remoteUnavailable "read lease" "" e.cause)
  | .ok (body, version) =>
    match json.unmarshal body with
    | .error e => return .error (.wrap .configurationInvalid "corrupt lease record" "" e)
    | .ok rec =>
      if rec.databaseID ≠ db.string then
        return .error (.new .configurationInvalid "lease record database_id mismatch" 0 "")
      else
        let now : ℤ ← ask .now
        if rec.state = .held ∧ ¬ rec.expiresAt < now - m.cfg.clockSkewAllowance then
          return .error (retryBecause "held and unexpired")
        else
          let next ← newRecord m db rec.epoch
          replace json m key version next

/-- A random duration in `[min, max]`; `min` if the entropy source fails. -/
def jitter (min max : ℤ) : LeaseM ℤ := do
  if max ≤ min then return min
  else
    let n : Option ℤ ← ask (.randInt (max - min))
    match n with
    | none => return min
    | some n => return min + n

/-- The doubling loop of `retryDelay`. -/
def growDelay (max : ℤ) : ℕ → ℤ → ℤ
  | 0, delay => delay
  | rounds + 1, delay =>
    if delay < max then
      if delay > max.tdiv 2 then max else growDelay max rounds (delay * 2)
    else delay

/-- The bounds between which `retryDelay` draws the delay of an attempt: the step grows from
`RetryBackoffMin` toward `RetryBackoffMax`, and the delay lies in its upper half. -/
def retryBounds (attempt : ℕ) : ℤ × ℤ :=
  let min := if m.cfg.retryBackoffMin ≤ 0 then 25 * millisecond else m.cfg.retryBackoffMin
  let max := if m.cfg.retryBackoffMax ≤ 0 then 500 * millisecond else m.cfg.retryBackoffMax
  let max := if max < min then min else max
  let delay := growDelay max attempt min
  let delay := if delay > max then max else delay
  let low := delay.tdiv 2
  (if low < min then min else low, delay)

/-- The delay before the next attempt. -/
def retryDelay (attempt : ℕ) : LeaseM ℤ :=
  jitter (retryBounds m attempt).1 (retryBounds m attempt).2

/-- Acquisition under the local queue: repeat `acquireOnce` until it succeeds, fails for good,
or the budget or the context ends. -/
def acquireLocked (db : DatabaseID) (key : String) (fl : ℕ) :
    ℕ → ℕ → LeaseM (Except Err Held)
  | rounds, attempt => do
    let waitCh : ℕ ← ask (.waitChannel fl)
    match ← acquireOnce json m db key with
    | .ok held => return .ok held
    | .error err =>
      if err.is .errRetry then
        let spent : Bool ← ask (.overBudget m.cfg.acquireRetryBudget)
        let cancelled : Option Err ← if spent then pure none else ask .ctxErr
        match rounds with
        | 0 => return .error busyError
        | rounds + 1 =>
          if spent ∨ cancelled.isSome then return .error busyError
          else
            let delay ← retryDelay m attempt
            let woken : Wake ← ask (.wait waitCh delay)
            match woken with
            | .ctxDone e => return .error e
            | .released | .timer => acquireLocked db key fl rounds (attempt + 1)
      else return .error err
where
  /-- The error of an acquisition whose budget ended. -/
  busyError : Err := .busy "lease held by another owner" (m.cfg.retryBackoffMax.tdiv millisecond)

/-- One round of `acquireLocked`; the last round finds the budget exhausted. -/
theorem acquireLocked_eq (db : DatabaseID) (key : String) (fl rounds attempt : ℕ) :
    acquireLocked json m db key fl rounds attempt = do
      let waitCh : ℕ ← ask (.waitChannel fl)
      match ← acquireOnce json m db key with
      | .ok held => return .ok held
      | .error err =>
        if err.is .errRetry then
          let spent : Bool ← ask (.overBudget m.cfg.acquireRetryBudget)
          if spent then return .error (acquireLocked.busyError m)
          else
            let cancelled : Option Err ← ask .ctxErr
            if rounds = 0 ∨ cancelled.isSome then return .error (acquireLocked.busyError m)
            else
              let delay ← retryDelay m attempt
              let woken : Wake ← ask (.wait waitCh delay)
              match woken with
              | .ctxDone e => return .error e
              | .released | .timer => acquireLocked json m db key fl (rounds - 1) (attempt + 1)
        else return .error err := by
  rw [acquireLocked]
  refine congrArg _ (funext fun waitCh => congrArg _ (funext fun res => ?_))
  rcases res with err | held
  · refine ite_congr rfl (fun _ => congrArg _ (funext fun spent => ?_)) fun _ => rfl
    cases spent with
    | true => cases rounds <;> simp
    | false =>
      cases rounds with
      | zero => simp
      | succ rounds =>
        simp only [Bool.false_eq_true, if_false, false_or, Nat.succ_ne_zero, Nat.add_sub_cancel]
  · rfl

/-- Acquisition, single-flight for each key inside one process. -/
def acquireSingleFlight (rounds : ℕ) (db : DatabaseID) (key : String) :
    LeaseM (Except Err Held) := do
  let fl : ℕ ← ask (.enterFlight key)
  ask (.lockFlight fl)
  let held ← acquireLocked json m db key fl rounds 0
  ask (.unlockFlight fl)
  ask (.leaveFlight key fl)
  return held

/-- The key under which `Acquire` stores the lease of a database: that of the manager's own key
function, or the canonical one under the first root, if any is given. -/
def acquireKeyOf (db : DatabaseID) (rootPrefix : List String) : String :=
  match m.keys with
  | some keys => keys db
  | none => db.leaseKey (rootPrefix.headD "")

/-- `Acquire`: the lease of a database. -/
def acquire (rounds : ℕ) (db : DatabaseID) (rootPrefix : List String) :
    LeaseM (Except Err Held) :=
  acquireSingleFlight json m rounds db (acquireKeyOf m db rootPrefix)

/-- `AcquireKey`: a lease stored under an explicit key. -/
def acquireKey (rounds : ℕ) (db : DatabaseID) (key : String) : LeaseM (Except Err Held) :=
  if key = "" then return .error (.other "lease: key is required")
  else acquireSingleFlight json m rounds db key

/-! ### Renewal, release and abandonment -/

/-- The period of the heartbeat. -/
def renewInterval : ℤ :=
  let interval := m.cfg.duration.tdiv 3
  if interval ≤ 0 then millisecond else interval

/-- The heartbeat of a lease. Renewal rotates the token, stops at `maxExpiry`, and gives the
lease up as lost when a conditional replace fails. -/
def renewLoop (held : Held) : ℕ → LeaseM Unit
  | 0 => return ()
  | rounds + 1 => do
    let stop : Bool ← ask (.awaitStopOrTick held (renewInterval m))
    if stop then ask (.closeDone held)
    else
      let (rec, version) : Record × Token ← ask (.snapshot held)
      let now : ℤ ← ask .now
      let next := now + m.cfg.duration
      if next > held.maxExpiry then ask (.closeDone held)
      else
        match json.marshal { rec with expiresAt := next } with
        | .error _ =>
          ask (.markLost held)
          ask (.closeDone held)
        | .ok body =>
          let res : Except StoreErr Token ← ask (.replaceIfToken held.key version body)
          match res with
          | .error _ =>
            ask (.markLost held)
            ask (.closeDone held)
          | .ok newVersion =>
            ask (.setRenewed held next newVersion)
            renewLoop held rounds

/-- End the renewal loop and wait for a renewal in flight. -/
def stopRenewal (held : Held) : LeaseM Unit := do
  let stopped : Bool ← ask (.isStopped held)
  if stopped then ask (.awaitDone held)
  else
    ask (.closeStop held)
    ask (.awaitDone held)

/-- `Release` of a lease: conditionally replace the record by a released one; `none` is the nil
error. -/
def releaseHeld (held : Held) : LeaseM (Option Err) := do
  stopRenewal held
  let (rec, version) : Record × Token ← ask (.snapshot held)
  let now : ℤ ← ask .now
  match json.marshal { rec with state := .released, expiresAt := now } with
  | .error e => return some e
  | .ok body =>
    let res : Except StoreErr Token ← ask (.replaceIfToken held.key version body)
    match res with
    | .error .conflict | .error .notFound =>
      ask (.notifyWaiters held.key)
      return some (.new .leaseConflict "stale lease release (successor owns lease)" 0 "")
    | .error e => return some (.wrap .remoteUnavailable "release lease" "" e.cause)
    | .ok _ =>
      ask (.notifyWaiters held.key)
      return none

/-- `Release`: releasing no lease succeeds. -/
def release : Option Held → LeaseM (Option Err)
  | none => return none
  | some held => releaseHeld json held

/-- `Abandon`: end renewal without touching the store. -/
def abandon : Option Held → LeaseM Unit
  | none => return ()
  | some held => stopRenewal held

end Programs

end Walrusd.Lease
