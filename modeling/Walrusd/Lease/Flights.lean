import Walrusd.Lease.Codec
import Walrusd.Lease.System
import Walrusd.Program.RefTable

/-!
# Single-flight acquisition

The acquisitions of one manager on one key share a flight: a queue with a lock, a reference count
and a channel that a local `Release` closes and replaces. The flights are a reference-counted table
by key, and a flight is removed with the last acquisition that leaves it.

The flights of one manager are the world in which its calls of `Acquire`, `AcquireKey` and `Release`
run. The store, the clock, the contexts and the timers answer arbitrarily. The world also has the
log of all calls answered so far, the newest first, so that what happened in which order can be
said.

## Main definitions

* `Flights`, `flightSystem`.
* `Flights.InFlight` — an acquisition has entered its flight and has not left it.
* `FlightStage`, `flying` — how far a call is, and its protocol.

## Main results

* `wakes_those_in_flight`.
* `departed_not_woken` — an acquisition that has left its flight is not woken.
-/

namespace Walrusd.Lease

open Program Function List Option
open scoped List

/-! ### The flights of a manager -/

/-- What a goroutine was called for: an acquisition on a key, or the release of a lease. -/
inductive Call
  | acquire (key : String)
  | release (held : Option Held)
  deriving DecidableEq

/-- The flights of a manager by key, the current channel and the lock of each flight, which channels
are closed, the number of the next channel, what each goroutine was called for, and the log of the
answered calls. -/
structure Flights (ι : Type) where
  flights : RefTable String
  ch : ℕ → ℕ
  locked : ℕ → Bool
  closed : ℕ → Bool
  nextCh : ℕ
  task : ι → Option Call
  log : List (ι × Σ c : Op, Resp c)

namespace Flights

variable {ι : Type}

/-- A new manager. -/
def new (ι : Type) : Flights ι :=
  ⟨.empty String, fun _ => 0, fun _ => false, fun _ => false, 0, fun _ => none, []⟩

/-- Join the flight of a key; a new flight gets a new channel. -/
def enter (w : Flights ι) (key : String) : ℕ × Flights ι :=
  let (fl, flights) := w.flights.enter key
  match w.flights.find key with
  | some _ => (fl, { w with flights })
  | none => (fl, { w with flights, ch := update w.ch fl w.nextCh, nextCh := w.nextCh + 1 })

/-- `notifyWaiters`: close and replace the channel of the flight of a key, if there is one. -/
def notifyWaiters (w : Flights ι) (key : String) : Flights ι :=
  match w.flights.find key with
  | none => w
  | some fl =>
    { w with closed := update w.closed (w.ch fl) true
             ch := update w.ch fl w.nextCh
             nextCh := w.nextCh + 1 }

/-- The flights after a call is answered by the given response, if it can be. -/
def reply (w : Flights ι) : (c : Op) → Resp c → Option (Flights ι)
  | .enterFlight key, fl => if fl = (w.enter key).1 then some (w.enter key).2 else none
  | .lockFlight fl, _ =>
    if w.locked fl then none else some { w with locked := update w.locked fl true }
  | .unlockFlight fl, _ => some { w with locked := update w.locked fl false }
  | .leaveFlight key fl, _ => some { w with flights := w.flights.leave key fl }
  | .waitChannel fl, ch => if ch = w.ch fl then some w else none
  | .notifyWaiters key, _ => some (w.notifyWaiters key)
  | .wait ch _, woken => if woken = .released ∧ w.closed ch = false then none else some w
  | _, _ => some w

/-- Write an answered call to the log. -/
def record (w : Flights ι) (i : ι) (e : Σ c : Op, Resp c) : Flights ι :=
  { w with log := (i, e) :: w.log }

/-- A goroutine is called. -/
def begin [DecidableEq ι] (w : Flights ι) (i : ι) (task : Call) : Flights ι :=
  { w with task := update w.task i (some task) }

end Flights

section System

variable {ι : Type} [DecidableEq ι] (json : RecordJson) (m : Manager)

/-- The calls of a goroutine: an acquisition for any database and any key, or the release of any
lease. -/
inductive Flights.Starts (w : Flights ι) (i : ι) : LeaseM Outcome → Flights ι → Prop
  | acquire (rounds : ℕ) (db : DatabaseID) (rootPrefix : List String) :
      Starts w i (do return .acquired (← Lease.acquire json m rounds db rootPrefix))
        (w.begin i (.acquire (acquireKeyOf m db rootPrefix)))
  | acquireKey (rounds : ℕ) (db : DatabaseID) (key : String) :
      Starts w i (do return .acquired (← Lease.acquireKey json m rounds db key))
        (w.begin i (.acquire key))
  | release (held : Option Held) :
      Starts w i (do return .released (← Lease.release json held)) (w.begin i (.release held))

/-- The acquisitions and releases of one manager. -/
def flightSystem : System (Flights ι) ι Op Resp Outcome where
  start w i p w' := w.Starts json m i p w'
  call w i c r w' := ∃ v, w.reply c r = some v ∧ w' = v.record i ⟨c, r⟩
  env _ _ := False

end System

/-! ### The stages of a call -/

/-- How far a goroutine is: an acquisition outside its flight, inside it, or after it has left; a
release before its store call, after one that says that the lease is not held any more, after the
notification, or after a store call that says nothing. -/
inductive FlightStage
  | idle
  | outside (key : String)
  | inside (key : String) (fl : ℕ)
  | left (key : String) (fl : ℕ)
  | releasing (key : String)
  | stored (key : String)
  | notified (key : String)
  | failed (key : String)
  deriving DecidableEq

namespace FlightStage

/-- The flight of an acquisition inside it. -/
def aboard : FlightStage → Option (String × ℕ)
  | .inside key fl => some (key, fl)
  | _ => none

/-- The flight that an acquisition has entered. -/
def entered : FlightStage → Option (String × ℕ)
  | .inside key fl | .left key fl => some (key, fl)
  | _ => none

/-- The stage after an answer. -/
def step : FlightStage → (c : Op) → Resp c → FlightStage
  | .outside key, .enterFlight _, fl => .inside key fl
  | .inside key fl, .leaveFlight _ _, _ => .left key fl
  | .releasing key, .replaceIfToken _ _ _, .ok _
  | .releasing key, .replaceIfToken _ _ _, .error .conflict
  | .releasing key, .replaceIfToken _ _ _, .error .notFound => .stored key
  | .releasing key, .replaceIfToken _ _ _, .error _ => .failed key
  | .stored key, .notifyWaiters _, _ => .notified key
  | s, _, _ => s

/-- The calls that may be made at a stage. -/
def Allows : FlightStage → Op → Prop
  | .outside key, c => c = .enterFlight key
  | .inside _ _, .enterFlight _ | .inside _ _, .notifyWaiters _ => False
  | .inside _ fl, .waitChannel fl' => fl' = fl
  | .inside key fl, .leaveFlight key' fl' => key' = key ∧ fl' = fl
  | .inside _ _, _ => True
  | .releasing _, .enterFlight _ | .releasing _, .leaveFlight _ _ | .releasing _, .waitChannel _
  | .releasing _, .notifyWaiters _ => False
  | .releasing key, .replaceIfToken key' _ _ => key' = key
  | .releasing _, _ => True
  | .stored key, c => c = .notifyWaiters key
  | .idle, _ | .left _ _, _ | .notified _, _ | .failed _, _ => False

/-- What a goroutine at a stage was called for. -/
def Fits : FlightStage → Option Call → Prop
  | .idle, task => task = none ∨ task = some (.release none)
  | .outside key, task | .inside key _, task | .left key _, task => task = some (.acquire key)
  | .releasing key, task | .stored key, task | .notified key, task | .failed key, task =>
    ∃ held, task = some (.release (some held)) ∧ held.key = key

/-- What a goroutine at a stage may return: a release that returns nil or a lease conflict has
notified, unless it has made no store call. -/
def Returns : FlightStage → Outcome → Prop
  | .inside _ _, _ | .stored _, _ => False
  | .failed _, out => ∃ e, out = .released (some e) ∧ e.classOf ≠ some .leaseConflict
  | _, _ => True

variable {s : FlightStage} {c : Op} {r : Resp c} {key : String} {fl : ℕ}

theorem aboard_eq_some : s.aboard = some (key, fl) ↔ s = .inside key fl := by
  cases s <;> simp [aboard]

theorem entered_eq_some : s.entered = some (key, fl) ↔ s = .inside key fl ∨ s = .left key fl := by
  cases s <;> simp [entered]

theorem entered_step (h : s.Allows c) : (s.step c r).entered = some (key, fl) ↔
    (⟨c, r⟩ : Σ c, Resp c) = ⟨.enterFlight key, fl⟩ ∨ s.entered = some (key, fl) := by
  cases s with
  | outside key' =>
    obtain rfl := h
    simp [step, entered]
  | inside key' fl' => cases c <;> first | exact absurd h id | simp [step, entered]
  | releasing key' =>
    cases c with
    | replaceIfToken k tok body => rcases r with (_ | _ | _ | _) | _ <;> simp [step, entered]
    | _ => first | exact absurd h id | simp [step, entered]
  | stored key' =>
    obtain rfl := h
    simp [step, entered]
  | _ => cases h

theorem step_eq_left (h : s.Allows c) : s.step c r = .left key fl ↔
    (⟨c, r⟩ : Σ c, Resp c) = ⟨.leaveFlight key fl, ()⟩ ∨ s = .left key fl := by
  cases s with
  | outside key' =>
    obtain rfl := h
    simp [step]
  | inside key' fl' =>
    cases c with
    | leaveFlight k x =>
      obtain ⟨rfl, rfl⟩ := h
      simp [step]
    | _ => first | exact absurd h id | simp [step]
  | releasing key' =>
    cases c with
    | replaceIfToken k tok body => rcases r with (_ | _ | _ | _) | _ <;> simp [step]
    | _ => first | exact absurd h id | simp [step]
  | stored key' =>
    obtain rfl := h
    simp [step]
  | _ => cases h

theorem step_fits {task : Option Call} (h : s.Allows c) (hfits : s.Fits task) :
    (s.step c r).Fits task := by
  cases s with
  | outside key' =>
    obtain rfl := h
    exact hfits
  | inside key' fl' => cases c <;> first | exact absurd h id | exact hfits
  | releasing key' =>
    cases c with
    | replaceIfToken k tok body => rcases r with (_ | _ | _ | _) | _ <;> exact hfits
    | _ => first | exact absurd h id | exact hfits
  | stored key' =>
    obtain rfl := h
    exact hfits
  | _ => cases h

end FlightStage

/-- The protocol of the calls. -/
def flying : Protocol Op Resp FlightStage where
  allow := FlightStage.Allows
  next s c r s' := s' = s.step c r

instance : flying.Steps FlightStage.step := ⟨id⟩

section Obeys

variable (json : RecordJson) (m : Manager)

/-- The calls of an acquisition inside a flight. -/
def Calm (fl : ℕ) : Op → Prop
  | .waitChannel fl' => fl' = fl
  | .enterFlight _ | .leaveFlight _ _ | .notifyWaiters _ => False
  | _ => True

theorem acquireOnce_calm (db : DatabaseID) (key : String) (fl : ℕ) :
    (acquireOnce json m db key).Only (Calm fl) := by
  refine .perform trivial fun got => ?_
  rcases got with e | ⟨body, version⟩
  · cases e with
    | notFound =>
      refine .bind ⟨trivial, fun _ => ⟨trivial, fun _ => trivial⟩⟩ fun rec => ?_
      unfold create
      split
      · trivial
      refine .perform trivial fun res => ?_
      split
      · trivial
      · trivial
      · trivial
      · exact ⟨trivial, fun _ => trivial⟩
    | _ => trivial
  · simp only
    split
    · trivial
    split
    · trivial
    refine .perform trivial fun now => ?_
    split
    · trivial
    refine .bind ⟨trivial, fun _ => ⟨trivial, fun _ => trivial⟩⟩ fun next => ?_
    unfold replace
    split
    · trivial
    refine .perform trivial fun res => ?_
    split
    · trivial
    · trivial
    · trivial
    · exact ⟨trivial, fun _ => trivial⟩

theorem retryDelay_calm (attempt fl : ℕ) : (retryDelay m attempt).Only (Calm fl) := by
  unfold retryDelay jitter
  split
  · trivial
  · refine .perform trivial fun n => ?_
    split <;> trivial

theorem acquireLocked_calm (db : DatabaseID) (key : String) (fl rounds attempt : ℕ) :
    (acquireLocked json m db key fl rounds attempt).Only (Calm fl) := by
  induction rounds using Nat.strong_induction_on generalizing attempt with
  | _ rounds ih =>
    rw [acquireLocked_eq]
    refine .perform rfl fun ch => (acquireOnce_calm json m db key fl).bind ?_
    rintro (err | held)
    · simp only
      split
      · refine .perform trivial fun spent => ?_
        split
        · trivial
        refine .perform trivial fun cancelled => ?_
        split
        · trivial
        · next hgo =>
          refine (retryDelay_calm m attempt fl).bind fun delay => ?_
          refine .perform trivial fun woken => ?_
          have hrounds : rounds ≠ 0 := fun h => hgo (.inl h)
          cases woken with
          | ctxDone e => trivial
          | released => exact ih (rounds - 1) (by omega) (attempt + 1)
          | timer => exact ih (rounds - 1) (by omega) (attempt + 1)
      · trivial
    · trivial

/-- Inside its flight an acquisition stays there. -/
theorem calm_allowed {key : String} {fl : ℕ} {c : Op} (h : Calm fl c) :
    flying.allow (.inside key fl) c ∧
      ∀ r s', flying.next (.inside key fl) c r s' → s' = .inside key fl := by
  cases c with
  | waitChannel fl' => exact ⟨h, fun r s' hs => hs⟩
  | enterFlight _ | leaveFlight _ _ | notifyWaiters _ => exact h.elim
  | _ => exact ⟨trivial, fun r s' hs => hs⟩

theorem acquireSingleFlight_flying (rounds : ℕ) (db : DatabaseID) (key : String) :
    (acquireSingleFlight json m rounds db key).Obeys flying
      (fun s _ => ∃ fl, s = .left key fl) (.outside key) := by
  refine .does rfl fun fl => ?_
  refine .does trivial fun _ => ?_
  refine (acquireLocked_calm json m db key fl rounds 0).bind_obeys (fun c => calm_allowed) ?_
  intro held
  refine .does trivial fun _ => ?_
  refine .does ⟨rfl, rfl⟩ fun _ => ?_
  exact ⟨fl, rfl⟩

theorem stopRenewal_flying (held : Held) (key : String) :
    (stopRenewal held).Obeys flying (fun s _ => s = .releasing key) (.releasing key) := by
  refine .does trivial fun stopped => ?_
  split
  · refine Prog.obeys_perform.mpr ⟨trivial, ?_⟩
    rintro _ _ rfl
    rfl
  refine .does trivial fun _ => ?_
  refine Prog.obeys_perform.mpr ⟨trivial, ?_⟩
  rintro _ _ rfl
  rfl

theorem releaseHeld_flying (held : Held) :
    (releaseHeld json held).Obeys flying (fun s err => s.Returns (.released err))
      (.releasing held.key) := by
  refine (stopRenewal_flying held held.key).bind ?_
  rintro _ _ rfl
  refine .does trivial ?_
  rintro ⟨rec, version⟩
  refine .does trivial fun now => ?_
  split
  · trivial
  refine .does rfl ?_
  rintro ((- | - | - | msg) | tok)
  · refine .does rfl fun _ => ?_
    trivial
  · refine .does rfl fun _ => ?_
    trivial
  · exact ⟨_, rfl, by simp [Err.classOf]⟩
  · exact ⟨_, rfl, by simp [Err.classOf]⟩
  · refine .does rfl fun _ => ?_
    trivial

end Obeys

/-! ### What the log says -/

section Log

variable {ι : Type} {w w' : Flights ι} {g : ι → FlightStage}

/-- Whether a goroutine is no acquisition and has made no store call. -/
def FlightStage.Unstored : FlightStage → Prop
  | .idle | .releasing _ => True
  | _ => False

theorem FlightStage.Unstored.of_step {s : FlightStage} {c : Op} {r : Resp c}
    (h : (s.step c r).Unstored) (hallow : s.Allows c) :
    s.Unstored ∧ ∀ key tok body (r' : Except StoreErr Token),
      (⟨c, r⟩ : Σ c, Resp c) ≠ ⟨.replaceIfToken key tok body, r'⟩ := by
  cases s with
  | outside key =>
    obtain rfl := hallow
    exact h.elim
  | inside key fl => cases c <;> exact h.elim
  | releasing key =>
    cases c with
    | replaceIfToken k tok body => rcases r with (_ | _ | _ | _) | _ <;> exact h.elim
    | _ =>
      refine ⟨trivial, fun key tok body r' heq => ?_⟩
      cases heq
  | stored key =>
    obtain rfl := hallow
    exact h.elim
  | _ => exact hallow.elim

theorem FlightStage.step_eq_notified {s : FlightStage} {c : Op} {r : Resp c} {key : String}
    (h : s.step c r = .notified key) (hallow : s.Allows c) : c = .notifyWaiters key := by
  cases s with
  | outside key' =>
    obtain rfl := hallow
    cases h
  | inside key' fl => cases c <;> cases h
  | releasing key' =>
    cases c with
    | replaceIfToken k tok body => rcases r with (_ | _ | _ | _) | _ <;> cases h
    | _ => cases h
  | stored key' =>
    obtain rfl := hallow
    cases h
    rfl
  | _ => exact hallow.elim

/-- The stages are what the log and the tasks say. -/
structure Logged (w : Flights ι) (g : ι → FlightStage) : Prop where
  fits : ∀ i, (g i).Fits (w.task i)
  entered : ∀ i key fl, (g i).entered = some (key, fl) ↔ (i, ⟨.enterFlight key, fl⟩) ∈ w.log
  departed : ∀ i key fl, g i = .left key fl ↔ (i, ⟨.leaveFlight key fl, ()⟩) ∈ w.log
  notified : ∀ j key tok body r x, g j = .notified key →
    [(j, ⟨.replaceIfToken key tok body, r⟩), x] <+ w.log →
      [(j, ⟨.notifyWaiters key, ()⟩), x] <+ w.log
  unstored : ∀ j, (g j).Unstored → ∀ key tok body r, (j, ⟨.replaceIfToken key tok body, r⟩) ∉ w.log

theorem logged_new : Logged (Flights.new ι) fun _ => .idle where
  fits _ := .inl rfl
  entered i key fl := by simp [FlightStage.entered, Flights.new]
  departed i key fl := by simp [Flights.new]
  notified j key tok body r x h := by cases h
  unstored j _ key tok body r := not_mem_nil

theorem sublist_of_ne {β : Type} {a b e : β} {l : List β} (h : [a, b] <+ e :: l) (hne : a ≠ e) :
    [a, b] <+ l := by
  cases h with
  | cons _ h => exact h
  | cons_cons _ h => exact absurd rfl hne

variable [DecidableEq ι] {i : ι}

theorem Logged.begin (h : Logged w g) (hi : g i = .idle) {s : FlightStage} {task : Call}
    (hfits : s.Fits (some task)) (hs : s.Unstored ∨ ∃ key, s = .outside key) :
    Logged (w.begin i task) (update g i s) := by
  have hentered : s.entered = none := by
    rcases hs with hs | ⟨key, rfl⟩
    · cases s <;> first | rfl | exact hs.elim
    · rfl
  have hleft (key : String) (fl : ℕ) : s ≠ .left key fl := by
    rintro rfl
    cases hentered
  refine ⟨fun j => ?_, fun j key fl => ?_, fun j key fl => ?_, fun j key tok body r x hj => ?_,
    fun j hj => ?_⟩
  · by_cases hji : j = i
    · subst hji
      simpa [Flights.begin] using hfits
    · simpa [Flights.begin, hji] using h.fits j
  · rw [Flights.begin, ← h.entered]
    by_cases hji : j = i
    · subst hji
      rw [update_self, hentered, hi]
      exact Iff.rfl
    · simp [hji]
  · rw [Flights.begin, ← h.departed]
    by_cases hji : j = i
    · subst hji
      simp [hi, hleft]
    · simp [hji]
  · by_cases hji : j = i
    · subst hji
      rw [update_self] at hj
      subst hj
      rcases hs with hs | ⟨key, hs⟩
      · exact hs.elim
      · cases hs
    · rw [update_of_ne hji] at hj
      exact h.notified j key tok body r x hj
  · by_cases hji : j = i
    · subst hji
      exact h.unstored j (hi ▸ trivial)
    · rw [update_of_ne hji] at hj
      exact h.unstored j hj

theorem Logged.call (h : Logged w g) {c : Op} {r : Resp c} (hallow : (g i).Allows c)
    (hlog : w'.log = (i, ⟨c, r⟩) :: w.log) (htask : w'.task = w.task) :
    Logged w' (update g i ((g i).step c r)) := by
  refine ⟨fun j => ?_, fun j key fl => ?_, fun j key fl => ?_,
    fun j key tok body r' x hj hsub => ?_, fun j hj key tok body r' hmem => ?_⟩
  · rw [htask]
    by_cases hji : j = i
    · subst hji
      rw [update_self]
      exact FlightStage.step_fits hallow (h.fits j)
    · rw [update_of_ne hji]
      exact h.fits j
  · rw [hlog, mem_cons, ← h.entered]
    by_cases hji : j = i
    · subst hji
      rw [update_self, FlightStage.entered_step hallow]
      simp [eq_comm]
    · simp [hji]
  · rw [hlog, mem_cons, ← h.departed]
    by_cases hji : j = i
    · subst hji
      rw [update_self, FlightStage.step_eq_left hallow]
      simp [eq_comm]
    · simp [hji]
  · rw [hlog] at hsub ⊢
    by_cases hji : j = i
    · subst hji
      rw [update_self] at hj
      obtain rfl := FlightStage.step_eq_notified hj hallow
      have hbelow := sublist_of_ne hsub (by simp)
      have hx : x ∈ w.log := hbelow.subset (by simp)
      exact (singleton_sublist.mpr hx).cons_cons _
    · rw [update_of_ne hji] at hj
      have hbelow := sublist_of_ne hsub (by simp [hji])
      exact (h.notified j key tok body r' x hj hbelow).cons _
  · rw [hlog, mem_cons] at hmem
    by_cases hji : j = i
    · subst hji
      rw [update_self] at hj
      obtain ⟨hunstored, hne⟩ := hj.of_step hallow
      rcases hmem with heq | hmem
      · exact hne key tok body r' (Prod.mk.inj heq).2.symm
      · exact h.unstored j hunstored key tok body r' hmem
    · rw [update_of_ne hji] at hj
      rcases hmem with heq | hmem
      · exact hji (Prod.mk.inj heq).1
      · exact h.unstored j hj key tok body r' hmem

end Log

/-! ### Flights and channels -/

section Signals

variable {ι : Type} {w w' v : Flights ι} {g : ι → FlightStage}

namespace Flights

variable {ch : ℕ}

@[simp] theorem notifyWaiters_flights (w : Flights ι) (key : String) :
    (w.notifyWaiters key).flights = w.flights := by
  unfold notifyWaiters
  split <;> rfl

@[simp] theorem notifyWaiters_log (w : Flights ι) (key : String) :
    (w.notifyWaiters key).log = w.log := by
  unfold notifyWaiters
  split <;> rfl

@[simp] theorem notifyWaiters_task (w : Flights ι) (key : String) :
    (w.notifyWaiters key).task = w.task := by
  unfold notifyWaiters
  split <;> rfl

theorem notifyWaiters_closed (w : Flights ι) (key : String) (h : w.closed ch = true) :
    (w.notifyWaiters key).closed ch = true := by
  unfold notifyWaiters
  cases w.flights.find key with
  | none => exact h
  | some fl =>
    by_cases hch : ch = w.ch fl
    · rw [hch]
      exact update_self ..
    · exact (update_of_ne hch ..).trans h

theorem notifyWaiters_open (w : Flights ι) (key : String) {fl : ℕ}
    (h : w.closed ch = true ∨ w.ch fl = ch) :
    (w.notifyWaiters key).closed ch = true ∨ (w.notifyWaiters key).ch fl = ch := by
  rcases h with h | rfl
  · exact .inl (w.notifyWaiters_closed key h)
  unfold notifyWaiters
  cases w.flights.find key with
  | none => exact .inr rfl
  | some fl' =>
    by_cases hfl : fl = fl'
    · rw [hfl]
      exact .inl (update_self ..)
    · exact .inr (update_of_ne hfl ..)

theorem notifyWaiters_wakes {key : String} {fl : ℕ} (hfind : w.flights.find key = some fl)
    (h : w.closed ch = true ∨ w.ch fl = ch) : (w.notifyWaiters key).closed ch = true := by
  rcases h with h | rfl
  · exact w.notifyWaiters_closed key h
  simp [notifyWaiters, hfind]

theorem enter_fst (w : Flights ι) (key : String) : (w.enter key).1 = (w.flights.enter key).1 := by
  unfold enter
  cases w.flights.find key <;> rfl

theorem enter_snd (w : Flights ι) (key : String) :
    (w.enter key).2.flights = (w.flights.enter key).2 ∧ (w.enter key).2.closed = w.closed ∧
      (w.enter key).2.log = w.log ∧ (w.enter key).2.task = w.task ∧
      w.flights.next ≤ (w.enter key).2.flights.next ∧
      ∀ fl, fl < w.flights.next → (w.enter key).2.ch fl = w.ch fl := by
  unfold enter
  cases hfind : w.flights.find key with
  | some fl =>
    rw [RefTable.enter_of_find hfind]
    exact ⟨rfl, rfl, rfl, rfl, le_rfl, fun _ _ => rfl⟩
  | none =>
    rw [RefTable.enter_of_none hfind]
    exact ⟨rfl, rfl, rfl, rfl, Nat.le_succ _, fun fl hfl => update_of_ne hfl.ne ..⟩

theorem leave_next (w : Flights ι) (key : String) (fl : ℕ) :
    (w.flights.leave key fl).next = w.flights.next := by
  unfold RefTable.leave
  simp only
  split <;> rfl

/-- Any other call leaves the flights and the channels as they are. -/
theorem reply_quiet {c : Op} {r : Resp c} (h : w.reply c r = some v)
    (henter : ∀ key, c ≠ .enterFlight key) (hleave : ∀ key fl, c ≠ .leaveFlight key fl)
    (hnotify : ∀ key, c ≠ .notifyWaiters key) :
    v.flights = w.flights ∧ v.ch = w.ch ∧ v.closed = w.closed ∧ v.log = w.log ∧
      v.task = w.task := by
  cases c with
  | enterFlight key => exact absurd rfl (henter key)
  | leaveFlight key fl => exact absurd rfl (hleave key fl)
  | notifyWaiters key => exact absurd rfl (hnotify key)
  | lockFlight fl =>
    obtain ⟨-, ⟨⟩⟩ := ite_none_left_eq_some.mp h
    exact ⟨rfl, rfl, rfl, rfl, rfl⟩
  | waitChannel fl =>
    obtain ⟨-, ⟨⟩⟩ := ite_none_right_eq_some.mp h
    exact ⟨rfl, rfl, rfl, rfl, rfl⟩
  | wait ch delay =>
    obtain ⟨-, ⟨⟩⟩ := ite_none_left_eq_some.mp h
    exact ⟨rfl, rfl, rfl, rfl, rfl⟩
  | _ =>
    cases h
    exact ⟨rfl, rfl, rfl, rfl, rfl⟩

end Flights

theorem FlightStage.aboard_step {s : FlightStage} {c : Op} {r : Resp c} (h : s.Allows c)
    (henter : ∀ key, c ≠ .enterFlight key) (hleave : ∀ key fl, c ≠ .leaveFlight key fl) :
    (s.step c r).aboard = s.aboard := by
  cases s with
  | outside key => exact absurd h (henter key)
  | inside key fl =>
    cases c with
    | leaveFlight key' fl' => exact absurd rfl (hleave key' fl')
    | _ => rfl
  | releasing key =>
    cases c with
    | replaceIfToken k tok body => rcases r with (_ | _ | _ | _) | _ <;> rfl
    | _ => rfl
  | stored key =>
    obtain rfl := h
    rfl
  | _ => exact h.elim

/-- The table of flights is what the acquisitions in flight make of it, and a captured channel is
closed or still the channel of its flight. A notification has closed the channels that were captured
before it by acquisitions that had not left by then. -/
structure Signalled (w : Flights ι) (g : ι → FlightStage) : Prop where
  crewed : w.flights.Crewed fun i => (g i).aboard
  known : ∀ i key fl, (g i).entered = some (key, fl) → fl < w.flights.next
  captured : ∀ i fl ch, (i, ⟨.waitChannel fl, ch⟩) ∈ w.log →
    (∃ key, (g i).entered = some (key, fl)) ∧ (w.closed ch = true ∨ w.ch fl = ch)
  woken : ∀ i j key fl ch,
    [(j, ⟨.notifyWaiters key, ()⟩), (i, ⟨.waitChannel fl, ch⟩)] <+ w.log →
      (g i).entered = some (key, fl) → w.closed ch = true ∨
        [(j, ⟨.notifyWaiters key, ()⟩), (i, ⟨.leaveFlight key fl, ()⟩)] <+ w.log

theorem signalled_new : Signalled (Flights.new ι) fun _ => .idle where
  crewed := RefTable.crewed_empty
  known i key fl h := by cases h
  captured i fl ch h := by cases h
  woken i j key fl ch h := by cases h

variable [DecidableEq ι] {i : ι} {c : Op} {r : Resp c}

theorem aboard_update_of_eq {s : FlightStage} (h : s.aboard = (g i).aboard) :
    (fun j => (update g i s j).aboard) = fun j => (g j).aboard := funext (apply_update_eq h)

theorem Signalled.begin (h : Signalled w g) (hi : g i = .idle) {s : FlightStage} {task : Call}
    (hs : s.entered = none) : Signalled (w.begin i task) (update g i s) := by
  have hentered (j : ι) : (update g i s j).entered = (g j).entered :=
    apply_update_eq (by rw [hs, hi]; rfl) j
  have haboard : (fun j => (update g i s j).aboard) = fun j => (g j).aboard := by
    refine aboard_update_of_eq ?_
    rw [hi]
    cases s <;> first | rfl | cases hs
  refine ⟨haboard ▸ h.crewed, fun j key fl => ?_, fun j fl ch hmem => ?_,
    fun j k key fl ch hsub => ?_⟩
  · rw [hentered]
    exact h.known j key fl
  · rw [hentered]
    exact h.captured j fl ch hmem
  · rw [hentered]
    exact h.woken j k key fl ch hsub

/-- Whoever has entered a flight stays with it. -/
theorem entered_update (hallow : (g i).Allows c) {j : ι} {key : String} {fl : ℕ}
    (h : (g j).entered = some (key, fl)) :
    (update g i ((g i).step c r) j).entered = some (key, fl) := by
  by_cases hji : j = i
  · subst hji
    rw [update_self, FlightStage.entered_step hallow]
    exact .inr h
  · rwa [update_of_ne hji]

/-- A call that notifies nobody: what is left to show are the table and the channels. -/
theorem Signalled.call (h : Signalled w g) (hallow : (g i).Allows c)
    (hlog : w'.log = (i, ⟨c, r⟩) :: w.log) (hnotify : ∀ key, c ≠ .notifyWaiters key)
    (hclosed : w'.closed = w.closed) (hnext : w.flights.next ≤ w'.flights.next)
    (hch : ∀ fl, fl < w.flights.next → w'.ch fl = w.ch fl)
    (hcapture : ∀ fl ch, (⟨c, r⟩ : Σ c, Resp c) = ⟨.waitChannel fl, ch⟩ → w.ch fl = ch ∧
      ∃ key, (g i).entered = some (key, fl))
    (hcrewed : w'.flights.Crewed fun j => (update g i ((g i).step c r) j).aboard)
    (hknown : ∀ key fl, (⟨c, r⟩ : Σ c, Resp c) = ⟨.enterFlight key, fl⟩ → fl < w'.flights.next) :
    Signalled w' (update g i ((g i).step c r)) := by
  have hcaptured {j : ι} {fl ch : ℕ} (hmem : (j, ⟨.waitChannel fl, ch⟩) ∈ w'.log) :
      (∃ key, (g j).entered = some (key, fl)) ∧ (w.closed ch = true ∨ w.ch fl = ch) := by
    rw [hlog, mem_cons] at hmem
    rcases hmem with heq | hmem
    · obtain ⟨rfl, hevent⟩ := Prod.mk.inj heq
      obtain ⟨hch, hentered⟩ := hcapture fl ch hevent.symm
      exact ⟨hentered, .inr hch⟩
    · exact h.captured j fl ch hmem
  refine ⟨hcrewed, fun j key fl hj => ?_, fun j fl ch hmem => ?_, fun j k key fl ch hsub hj => ?_⟩
  · by_cases hji : j = i
    · subst hji
      rw [update_self, FlightStage.entered_step hallow] at hj
      rcases hj with heq | hj
      · exact hknown key fl heq
      · exact (h.known j key fl hj).trans_le hnext
    · rw [update_of_ne hji] at hj
      exact (h.known j key fl hj).trans_le hnext
  · obtain ⟨⟨key, hentered⟩, hopen⟩ := hcaptured hmem
    refine ⟨⟨key, entered_update hallow hentered⟩, ?_⟩
    rw [hclosed, hch fl (h.known j key fl hentered)]
    exact hopen
  · obtain ⟨⟨key', hentered⟩, -⟩ := hcaptured (hsub.subset (mem_cons_of_mem _ mem_cons_self))
    have hsame : key' = key := by
      have hstays := entered_update (r := r) hallow hentered
      rw [hstays] at hj
      exact (Prod.mk.inj (some.inj hj)).1
    rw [hlog] at hsub ⊢
    rw [hclosed]
    have hne : (k, (⟨.notifyWaiters key, ()⟩ : Σ c, Resp c)) ≠ (i, ⟨c, r⟩) := by
      intro heq
      obtain ⟨-, hevent⟩ := Prod.mk.inj heq
      exact hnotify key (congrArg Sigma.fst hevent).symm
    rcases h.woken j k key fl ch (sublist_of_ne hsub hne) (hsame ▸ hentered) with hwoken | hleft
    · exact .inl hwoken
    · exact .inr (hleft.cons _)

/-- A release notifies the flight of its key. -/
theorem Signalled.notify (h : Signalled w g) (hlogged : Logged w g) {key : String}
    (hi : g i = .stored key) :
    Signalled ((w.notifyWaiters key).record i ⟨.notifyWaiters key, ()⟩)
      (update g i (.notified key)) := by
  have hentered (j : ι) : (update g i (.notified key) j).entered = (g j).entered :=
    apply_update_eq (by rw [hi]; rfl) j
  have haboard : (fun j => (update g i (.notified key) j).aboard) = fun j => (g j).aboard :=
    aboard_update_of_eq (by rw [hi]; rfl)
  refine ⟨?_, fun j k fl => ?_, fun j fl ch hmem => ?_, fun j k key' fl ch hsub hj => ?_⟩
  · rw [haboard]
    simpa only [Flights.record, Flights.notifyWaiters_flights] using h.crewed
  · rw [hentered]
    simpa only [Flights.record, Flights.notifyWaiters_flights] using h.known j k fl
  · simp only [Flights.record, Flights.notifyWaiters_log, mem_cons] at hmem
    rw [hentered]
    rcases hmem with heq | hmem
    · cases (Prod.mk.inj heq).2
    · obtain ⟨hj, hch⟩ := h.captured j fl ch hmem
      exact ⟨hj, w.notifyWaiters_open key hch⟩
  · rw [hentered] at hj
    simp only [Flights.record, Flights.notifyWaiters_log] at hsub ⊢
    have hmem : (j, ⟨.waitChannel fl, ch⟩) ∈ w.log := by
      have hmem := hsub.subset (mem_cons_of_mem _ mem_cons_self)
      rcases mem_cons.mp hmem with heq | hmem
      · cases (Prod.mk.inj heq).2
      · exact hmem
    obtain ⟨-, hch⟩ := h.captured j fl ch hmem
    by_cases hthis : k = i ∧ key' = key
    · obtain ⟨rfl, rfl⟩ := hthis
      rcases FlightStage.entered_eq_some.mp hj with hinside | hleft
      · -- still in flight: the flight of the key is its own
        have hfind := h.crewed.find_eq j key' fl (FlightStage.aboard_eq_some.mpr hinside)
        exact .inl (Flights.notifyWaiters_wakes hfind hch)
      · have hgone := (hlogged.departed j key' fl).mp hleft
        exact .inr ((singleton_sublist.mpr hgone).cons_cons _)
    · have hne : (k, (⟨.notifyWaiters key', ()⟩ : Σ c, Resp c)) ≠
          (i, ⟨.notifyWaiters key, ()⟩) := by
        intro heq
        obtain ⟨hk, hevent⟩ := Prod.mk.inj heq
        cases hevent
        exact hthis ⟨hk, rfl⟩
      rcases h.woken j k key' fl ch (sublist_of_ne hsub hne) hj with hclosed | hleft
      · exact .inl (w.notifyWaiters_closed key hclosed)
      · exact .inr (hleft.cons _)

theorem aboard_update (s : FlightStage) :
    (fun j => (update g i s j).aboard) =
      update (fun j => (g j).aboard) i s.aboard := by
  funext j
  exact apply_update (fun _ => FlightStage.aboard) g i s j

/-- Every answer keeps the flights and the channels. -/
theorem Signalled.reply (h : Signalled w g) (hlogged : Logged w g) (hallow : (g i).Allows c)
    (hreply : w.reply c r = some v) :
    Signalled (v.record i ⟨c, r⟩) (update g i ((g i).step c r)) ∧ v.log = w.log ∧
      v.task = w.task := by
  by_cases henter : ∃ key, c = .enterFlight key
  · obtain ⟨key, rfl⟩ := henter
    obtain ⟨rfl, ⟨⟩⟩ := ite_none_right_eq_some.mp hreply
    have hi : g i = .outside key := by
      cases hs : g i with
      | outside key' =>
        rw [hs] at hallow
        cases hallow
        rfl
      | stored key' =>
        rw [hs] at hallow
        cases hallow
      | _ => exact (hs ▸ hallow).elim
    obtain ⟨hflights, hclosed, hlog, htask, hnext, hch⟩ := w.enter_snd key
    have hcrewed : (w.enter key).2.flights.Crewed fun j =>
        (update g i ((g i).step (.enterFlight key) (w.enter key).1) j).aboard := by
      rw [aboard_update, hflights, hi, Flights.enter_fst]
      refine h.crewed.enter ?_ key
      rw [hi]
      rfl
    refine ⟨h.call hallow ?_ ?_ hclosed hnext hch ?_ hcrewed ?_, hlog, htask⟩
    · rw [Flights.record, hlog]
    · exact fun key' heq => by cases heq
    · exact fun fl ch heq => by cases heq
    · rintro key' fl ⟨⟩
      refine hcrewed.lt_next key _ (hcrewed.find_eq i key _ ?_)
      rw [update_self, hi]
      rfl
  by_cases hleave : ∃ key fl, c = .leaveFlight key fl
  · obtain ⟨key, fl, rfl⟩ := hleave
    cases hreply
    have hi : g i = .inside key fl := by
      cases hs : g i with
      | inside key' fl' =>
        rw [hs] at hallow
        obtain ⟨rfl, rfl⟩ := hallow
        rfl
      | outside key' | stored key' =>
        rw [hs] at hallow
        cases hallow
      | _ => exact (hs ▸ hallow).elim
    refine ⟨h.call hallow rfl ?_ rfl (w.leave_next key fl).ge (fun _ _ => rfl) ?_ ?_ ?_, rfl, rfl⟩
    · exact fun key' heq => by cases heq
    · exact fun fl ch heq => by cases heq
    · rw [aboard_update, hi]
      refine h.crewed.leave ?_
      rw [hi]
      rfl
    · exact fun key' fl' heq => by cases heq
  by_cases hnotify : ∃ key, c = .notifyWaiters key
  · obtain ⟨key, rfl⟩ := hnotify
    cases hreply
    have hi : g i = .stored key := by
      cases hs : g i with
      | stored key' =>
        rw [hs] at hallow
        cases hallow
        rfl
      | outside key' =>
        rw [hs] at hallow
        cases hallow
      | _ => exact (hs ▸ hallow).elim
    refine ⟨?_, w.notifyWaiters_log key, w.notifyWaiters_task key⟩
    rw [hi]
    exact h.notify hlogged hi
  simp only [not_exists] at henter hleave hnotify
  obtain ⟨hflights, hch, hclosed, hlog, htask⟩ := Flights.reply_quiet hreply henter hleave hnotify
  refine ⟨h.call hallow ?_ hnotify hclosed ?_ ?_ ?_ ?_ ?_, hlog, htask⟩
  · rw [Flights.record, hlog]
  · rw [Flights.record, hflights]
  · rw [Flights.record, hch]
    exact fun _ _ => rfl
  · rintro fl ch ⟨⟩
    obtain ⟨hcurrent, -⟩ := ite_none_right_eq_some.mp hreply
    refine ⟨hcurrent.symm, ?_⟩
    cases hs : g i with
    | inside key fl' =>
      rw [hs] at hallow
      obtain rfl : fl = fl' := hallow
      exact ⟨key, rfl⟩
    | outside key | stored key =>
      rw [hs] at hallow
      cases hallow
    | _ => exact (hs ▸ hallow).elim
  · rw [aboard_update_of_eq (FlightStage.aboard_step hallow henter hleave), Flights.record,
      hflights]
    exact h.crewed
  · exact fun key fl heq => absurd (congrArg Sigma.fst heq) (henter key)

end Signals

/-! ### No lost wake-up -/

section Wakes

variable {ι : Type} [DecidableEq ι] {json : RecordJson} {m : Manager}

theorem starts_flying {w w' : Flights ι} {i : ι} {p : LeaseM Outcome} (h : w.Starts json m i p w') :
    ∃ s task, w' = w.begin i task ∧ s.Fits (some task) ∧
      (s.Unstored ∨ ∃ key, s = .outside key) ∧ p.Obeys flying FlightStage.Returns s := by
  cases h with
  | acquire rounds db rootPrefix =>
    refine ⟨.outside (acquireKeyOf m db rootPrefix), _, rfl, rfl, .inr ⟨_, rfl⟩, ?_⟩
    refine (acquireSingleFlight_flying json m rounds db _).bind ?_
    rintro _ res ⟨fl, rfl⟩
    trivial
  | acquireKey rounds db key =>
    refine ⟨.outside key, _, rfl, rfl, .inr ⟨_, rfl⟩, ?_⟩
    unfold acquireKey
    split
    · trivial
    refine (acquireSingleFlight_flying json m rounds db key).bind ?_
    rintro _ res ⟨fl, rfl⟩
    trivial
  | release held =>
    cases held with
    | none => exact ⟨.idle, _, rfl, .inr rfl, .inl trivial, trivial⟩
    | some held =>
      refine ⟨.releasing held.key, _, rfl, ⟨held, rfl, rfl⟩, .inl trivial, ?_⟩
      exact (releaseHeld_flying json held).bind fun s err hs => hs

theorem flights_invariant {a : Pool (Flights ι) ι Op Resp Outcome}
    (h : (flightSystem json m).Reachable (Flights.new ι) a) :
    ∃ g, (Logged a.world g ∧ Signalled a.world g) ∧
      (∀ i p, a.procs i = some p → p.Obeys flying FlightStage.Returns (g i)) ∧
      ∀ i, a.procs i = none → g i = .idle := by
  refine h.invariant_knowing (K := fun _ => True) flying (fun _ => FlightStage.Returns)
    (fun w g => Logged w g ∧ Signalled w g) (fun _ => .idle) (fun _ _ => trivial)
    ⟨logged_new, signalled_new⟩ ?_ ?_ ?_
  · rintro w g i p w' - ⟨hlogged, hsignalled⟩ hidle hstart
    obtain ⟨s, task, rfl, hfits, hs, hobeys⟩ := starts_flying hstart
    refine ⟨s, hobeys, hlogged.begin hidle hfits hs, hsignalled.begin hidle ?_⟩
    rcases hs with hs | ⟨key, rfl⟩
    · cases s <;> first | rfl | exact hs.elim
    · rfl
  · rintro w g i c r w' - ⟨hlogged, hsignalled⟩ hallow ⟨v, hreply, rfl⟩
    obtain ⟨hsignalled, hlog, htask⟩ := hsignalled.reply hlogged hallow hreply
    refine ⟨_, rfl, hlogged.call hallow ?_ htask, hsignalled⟩
    rw [Flights.record, hlog]
  · exact fun _ _ _ _ _ henv => henv.elim

/-- An acquisition has entered a flight and has not left it. -/
def Flights.InFlight (w : Flights ι) (i : ι) (key : String) (fl : ℕ) : Prop :=
  (i, ⟨.enterFlight key, fl⟩) ∈ w.log ∧ (i, ⟨.leaveFlight key fl, ()⟩) ∉ w.log

omit [DecidableEq ι] in
theorem Logged.inFlight_iff {w : Flights ι} {g : ι → FlightStage} (h : Logged w g) {i : ι}
    {key : String} {fl : ℕ} : w.InFlight i key fl ↔ (g i).aboard = some (key, fl) := by
  rw [Flights.InFlight, ← h.entered, ← h.departed, FlightStage.aboard_eq_some,
    FlightStage.entered_eq_some]
  constructor
  · rintro ⟨hinside | hleft, hnot⟩
    · exact hinside
    · exact absurd hleft hnot
  intro hinside
  refine ⟨.inl hinside, ?_⟩
  rw [hinside]
  exact fun heq => by cases heq

/-- **No lost wake-up.** An acquisition captures its channel and then reads the store, and after
that a release of a lease on its key completes its store call and returns nil or a lease conflict.
Then the captured channel is closed, unless the acquisition had left its flight before the release
notified. A key has a flight exactly while an acquisition on it is in flight, and all of them share
it. -/
theorem wakes_those_in_flight {a : Pool (Flights ι) ι Op Resp Outcome}
    (h : (flightSystem json m).Reachable (Flights.new ι) a) :
    (∀ i j held fl ch got tok body r err, a.world.task i = some (.acquire held.key) →
      a.world.task j = some (.release (some held)) →
      [(j, ⟨.replaceIfToken held.key tok body, r⟩), (i, ⟨.get held.key, got⟩),
        (i, ⟨.waitChannel fl, ch⟩)] <+ a.world.log →
      a.outcome j = some (.released err) →
      (err = none ∨ ∃ e, err = some e ∧ e.classOf = some .leaseConflict) →
      a.world.closed ch = true ∨
        [(j, ⟨.notifyWaiters held.key, ()⟩), (i, ⟨.leaveFlight held.key fl, ()⟩)] <+ a.world.log) ∧
    (∀ key fl, a.world.flights.find key = some fl ↔ ∃ i, a.world.InFlight i key fl) ∧
    ∀ i j key fl fl', a.world.InFlight i key fl → a.world.InFlight j key fl' → fl = fl' := by
  obtain ⟨g, ⟨hlogged, hsignalled⟩, hobeys, -⟩ := flights_invariant h
  refine ⟨?_, fun key fl => ?_, fun i j key fl fl' hi hj => ?_⟩
  · intro i j held fl ch got tok body r err hi hj hsub hout hnil
    have hreturns : (g j).Returns (.released err) := hobeys j _ (Pool.procs_of_outcome hout)
    have hstored : (j, ⟨.replaceIfToken held.key tok body, r⟩) ∈ a.world.log :=
      hsub.subset mem_cons_self
    have hnotified : g j = .notified held.key := by
      have hfits := hlogged.fits j
      rw [hj] at hfits
      cases hs : g j with
      | notified key =>
        rw [hs] at hfits
        obtain ⟨held', ⟨⟩, rfl⟩ := hfits
        rfl
      | failed key =>
        rw [hs] at hreturns
        obtain ⟨e, heq, hclass⟩ := hreturns
        obtain rfl : err = some e := by injection heq
        rcases hnil with hnone | ⟨e', heq', hconflict⟩
        · cases hnone
        · cases heq'
          exact absurd hconflict hclass
      | stored key =>
        rw [hs] at hreturns
        exact hreturns.elim
      | idle | releasing key =>
        exact absurd hstored (hlogged.unstored j (hs ▸ trivial) _ _ _ _)
      | outside key | inside key fl' | left key fl' =>
        rw [hs] at hfits
        cases hfits
    have hcaptured : (i, ⟨.waitChannel fl, ch⟩) ∈ a.world.log := hsub.subset (by simp)
    obtain ⟨⟨key, hentered⟩, -⟩ := hsignalled.captured i fl ch hcaptured
    have hkey : key = held.key := by
      have hfits := hlogged.fits i
      rw [hi] at hfits
      rcases FlightStage.entered_eq_some.mp hentered with hs | hs
      · rw [hs] at hfits
        cases hfits
        rfl
      rw [hs] at hfits
      cases hfits
      rfl
    have hpair : [(j, (⟨.replaceIfToken held.key tok body, r⟩ : Σ c, Resp c)),
        (i, ⟨.waitChannel fl, ch⟩)] <+ a.world.log :=
      ((sublist_cons_self _ _).cons_cons _).trans hsub
    have hnotify := hlogged.notified j held.key tok body r _ hnotified hpair
    exact hsignalled.woken i j held.key fl ch hnotify (hkey ▸ hentered)
  · constructor
    · intro hfind
      obtain ⟨i, hi⟩ := hsignalled.crewed.exists_aboard key fl hfind
      exact ⟨i, hlogged.inFlight_iff.mpr hi⟩
    · rintro ⟨i, hi⟩
      exact hsignalled.crewed.find_eq i key fl (hlogged.inFlight_iff.mp hi)
  · have hfl := hsignalled.crewed.find_eq i key fl (hlogged.inFlight_iff.mp hi)
    have hfl' := hsignalled.crewed.find_eq j key fl' (hlogged.inFlight_iff.mp hj)
    exact some.inj (hfl.symm.trans hfl')

end Wakes

/-! ### An acquisition that gives up -/

section Runs

variable {ι : Type} [DecidableEq ι]

/-- What a goroutine is called for in a run: an acquisition of one round, or a release. -/
inductive FlightStart
  | acquireKey (db : DatabaseID) (key : String)
  | release (held : Option Held)

/-- The answers are chosen call by call. -/
def flightInterpreter (json : RecordJson) (m : Manager) :
    Interpreter (flightSystem (ι := ι) json m) FlightStart ((c : Op) → Resp c) Empty where
  start w i
    | .acquireKey db key =>
      some (do return .acquired (← Lease.acquireKey json m 0 db key), w.begin i (.acquire key))
    | .release held =>
      some (do return .released (← Lease.release json held), w.begin i (.release held))
  call w i c x := (w.reply c (x c)).map fun v => (x c, v.record i ⟨c, x c⟩)
  env _ x := nomatch x
  start_sound {w i x p w'} h := by
    cases x with
    | acquireKey db key =>
      cases h
      exact .acquireKey 0 db key
    | release held =>
      cases h
      exact .release held
  call_sound {w i c x r w'} h := by
    obtain ⟨v, hv, heq⟩ := map_eq_some_iff.mp h
    obtain ⟨rfl, rfl⟩ := Prod.mk.inj heq
    exact ⟨v, hv, rfl⟩
  env_sound {_ x} := nomatch x

end Runs

namespace GivingUp

/-- Runs of two goroutines. -/
abbrev Moves := List (Move (Fin 2) FlightStart ((c : Op) → Resp c) Empty)

/-- A pool of two goroutines. -/
abbrev TwoCalls := Pool (Flights (Fin 2)) (Fin 2) Op Resp Outcome

/-- A manager. -/
def manager : Manager := ⟨⟨3, 1, 0, 1, 1⟩, "o", none⟩

/-- A lease that is held until time ten, and its record. -/
def lease : Held := ⟨0, "k", 16⟩

/-- The record of the lease. -/
def record : Record := ⟨formatVersion, "db", .held, "o", "l", 1, 10⟩

/-- The answers of a store in which the lease is held, at time zero, without a retry budget. -/
def answers : (c : Op) → Resp c
  | .now => 0
  | .newID => "n"
  | .get _ => .ok (Plain.encode (Plain.write record), "t")
  | .createIfAbsent _ _ => .error .alreadyExists
  | .replaceIfToken _ _ _ => .ok "u"
  | .newHeld _ _ _ _ => lease
  | .snapshot _ => (record, "t")
  | .awaitStopOrTick _ _ => true
  | .isStopped _ => false
  | .overBudget _ => true
  | .enterFlight _ => 0
  | .waitChannel _ => 0
  | .ctxErr => none
  | .randInt _ => none
  | .wait _ _ => .timer
  | .setRenewed _ _ _ | .markLost _ | .closeStop _ | .awaitDone _ | .closeDone _ | .lockFlight _
  | .unlockFlight _ | .leaveFlight _ _ | .notifyWaiters _ => ()

/-- Answer the next `n` calls of a goroutine. -/
def steps (i : Fin 2) (n : ℕ) : Moves := List.replicate n (.call i answers)

/-- The acquisition captures its channel and reads the store; then the release completes its store
call. -/
def opening : Moves :=
  .start 0 (.acquireKey ⟨"db"⟩ "k") :: steps 0 4 ++ .start 1 (.release (some lease)) :: steps 1 6

/-- The release notifies. -/
def waiting : Moves := opening ++ steps 1 1

/-- The acquisition finds its budget exhausted and leaves before the release notifies. -/
def leaving : Moves := opening ++ steps 0 4 ++ steps 1 1

/-- What a line of the log says of the order of events. -/
inductive Note
  | captured (i : Fin 2) (fl ch : ℕ)
  | read (i : Fin 2) (key : String) (got : Except StoreErr (Bytes × Token))
  | stored (j : Fin 2) (key : String)
  | departed (i : Fin 2)
  | other
  deriving DecidableEq

/-- The note of a line of the log. -/
def note : Fin 2 × (Σ c : Op, Resp c) → Note
  | (i, ⟨.waitChannel fl, ch⟩) => .captured i fl ch
  | (i, ⟨.get key, got⟩) => .read i key got
  | (j, ⟨.replaceIfToken key _ _, _⟩) => .stored j key
  | (i, ⟨.leaveFlight _ _, _⟩) => .departed i
  | _ => .other

variable {e : Fin 2 × (Σ c : Op, Resp c)}

theorem of_note_captured {i : Fin 2} {fl ch : ℕ} (h : note e = .captured i fl ch) :
    e = (i, ⟨.waitChannel fl, ch⟩) := by
  obtain ⟨j, c, r⟩ := e
  cases c <;> cases h
  rfl

theorem of_note_read {i : Fin 2} {key : String} {got : Except StoreErr (Bytes × Token)}
    (h : note e = .read i key got) : e = (i, ⟨.get key, got⟩) := by
  obtain ⟨j, c, r⟩ := e
  cases c <;> cases h
  rfl

theorem of_note_stored {j : Fin 2} {key : String} (h : note e = .stored j key) :
    ∃ tok body r, e = (j, ⟨.replaceIfToken key tok body, r⟩) := by
  obtain ⟨j, c, r⟩ := e
  cases c <;> cases h
  exact ⟨_, _, r, rfl⟩

/-- What the acquisition reads: the lease is held. -/
def heldRecord : Except StoreErr (Bytes × Token) := .ok (Plain.encode (Plain.write record), "t")

/-- The capture, the read and the store call, in this order. -/
theorem sublist_of_notes {log : List (Fin 2 × (Σ c : Op, Resp c))}
    (h : [.stored 1 "k", .read 0 "k" heldRecord, .captured 0 0 0] <+ log.map note) :
    ∃ tok body r, [(1, ⟨.replaceIfToken "k" tok body, r⟩), (0, ⟨.get "k", heldRecord⟩),
      (0, ⟨.waitChannel 0, 0⟩)] <+ log := by
  obtain ⟨l, hl, hnotes⟩ := sublist_map_iff.mp h
  obtain ⟨e₁, l₁, rfl, hstored, hrest⟩ := map_eq_cons_iff.mp hnotes.symm
  obtain ⟨e₂, l₂, rfl, hread, hrest⟩ := map_eq_cons_iff.mp hrest
  obtain ⟨e₃, l₃, rfl, hcaptured, hrest⟩ := map_eq_cons_iff.mp hrest
  obtain rfl := map_eq_nil_iff.mp hrest
  obtain ⟨tok, body, r, rfl⟩ := of_note_stored hstored
  obtain rfl := of_note_read hread
  obtain rfl := of_note_captured hcaptured
  exact ⟨tok, body, r, hl⟩

/-- What the release has returned, the notes of the log, whether the captured channel is closed, and
what the goroutines were called for. -/
structure View where
  released : Option Outcome
  notes : List Note
  closed : Bool
  tasks : Option Call × Option Call
  deriving DecidableEq

/-- The view of a pool. -/
def view (a : TwoCalls) : View where
  released := a.outcome 1
  notes := a.world.log.map note
  closed := a.world.closed 0
  tasks := (a.world.task 0, a.world.task 1)

/-- The notes of the opening. -/
def openingNotes : List Note :=
  [.stored 1 "k", .other, .other, .other, .other, .other, .read 0 "k" heldRecord, .captured 0 0 0,
    .other, .other]

/-- The release of the lease wakes the acquisition, which is in flight. -/
theorem wakes_those_in_flight_waiting : ∃ a : TwoCalls,
    (flightSystem .plain manager).Reachable (Flights.new (Fin 2)) a ∧
      a.outcome 1 = some (.released none) ∧ a.world.closed 0 = true := by
  have hview : ((flightInterpreter .plain manager).exec (Flights.new (Fin 2)) waiting).map view =
      some ⟨some (.released none), .other :: openingNotes, true,
        (some (.acquire "k"), some (.release (some lease)))⟩ := by decide +kernel
  obtain ⟨a, ha, heq⟩ := map_eq_some_iff.mp hview
  have hreach := Interpreter.exec_reachable _ ha
  have hnotes : a.world.log.map note = .other :: openingNotes := congrArg View.notes heq
  have hout : a.outcome 1 = some (.released none) := congrArg View.released heq
  obtain ⟨h0, h1⟩ := Prod.mk.inj (congrArg View.tasks heq)
  have horder : [.stored 1 "k", .read 0 "k" heldRecord, .captured 0 0 0] <+
      a.world.log.map note := by
    rw [hnotes]
    decide +kernel
  obtain ⟨tok, body, r, hsub⟩ := sublist_of_notes horder
  refine ⟨a, hreach, hout, ?_⟩
  refine ((wakes_those_in_flight hreach).1 0 1 lease 0 0 _ tok body r none h0 h1 hsub hout
    (.inl rfl)).resolve_right fun hleft => ?_
  have hdeparted : Note.departed 0 ∈ a.world.log.map note :=
    List.mem_map_of_mem (hleft.subset (mem_cons_of_mem _ mem_cons_self))
  rw [hnotes] at hdeparted
  exact absurd hdeparted (by decide)

end GivingUp

open GivingUp in
/-- An acquisition captures its channel and finds the lease held; then the lease is released, and
the release returns nil. The channel is not closed, since the acquisition has left its flight before
the release notified. -/
theorem departed_not_woken : ∃ (a : TwoCalls) (tok : Token) (body : Bytes)
    (r : Except StoreErr Token),
    (flightSystem .plain manager).Reachable (Flights.new (Fin 2)) a ∧
      a.world.task 0 = some (.acquire "k") ∧ a.world.task 1 = some (.release (some lease)) ∧
      [(1, ⟨.replaceIfToken "k" tok body, r⟩), (0, ⟨.get "k", heldRecord⟩),
        (0, ⟨.waitChannel 0, 0⟩)] <+ a.world.log ∧
      a.outcome 1 = some (.released none) ∧ a.world.closed 0 = false := by
  have hview : ((flightInterpreter .plain manager).exec (Flights.new (Fin 2)) leaving).map view =
      some ⟨some (.released none),
        .other :: .departed 0 :: .other :: .other :: .other :: openingNotes, false,
        (some (.acquire "k"), some (.release (some lease)))⟩ := by decide +kernel
  obtain ⟨a, ha, heq⟩ := map_eq_some_iff.mp hview
  have hnotes : a.world.log.map note =
      .other :: .departed 0 :: .other :: .other :: .other :: openingNotes := congrArg View.notes heq
  obtain ⟨h0, h1⟩ := Prod.mk.inj (congrArg View.tasks heq)
  have horder : [.stored 1 "k", .read 0 "k" heldRecord, .captured 0 0 0] <+
      a.world.log.map note := by
    rw [hnotes]
    decide +kernel
  obtain ⟨tok, body, r, hsub⟩ := sublist_of_notes horder
  exact ⟨a, tok, body, r, Interpreter.exec_reachable _ ha, h0, h1, hsub,
    congrArg View.released heq, congrArg View.closed heq⟩

end Walrusd.Lease
