import Walrusd.Lease.Manager
import Walrusd.Program.Fence
import Walrusd.Program.Script

/-!
# Lease managers that share a store

Any number of acquisitions, renewal loops, releases and abandonments run as the processes of a
pool over one store. The world records, besides the store and the acquired leases, the tokens
minted so far, the history of the writes that took effect, and the conditional writes whose
outcome the caller does not know.

A conditional write takes effect and is answered, takes effect and is answered by an error, or is
answered by an error and left in flight, from where it may take effect at any later time or never.
Clocks, timers, contexts, the entropy source and the local acquisition queue are answered
arbitrarily; this allows every behaviour of the source and more. The one assumption on the store
is that minted tokens never repeat.

## Main definitions

* `World`, `World.Lands`, `World.answer`.
* `Starts` and `system`.
* `interpreter` — runs in which every conditional write is answered.
-/

namespace Walrusd.Lease

open Program Function Option

/-- The processes: calls of `Acquire` or `AcquireKey`, and the renewal loop, the calls of
`Release` and the calls of `Abandon` of each acquired lease. -/
inductive Proc
  | acquire (n : ℕ)
  | renew (held : ℕ)
  | release (held n : ℕ)
  | abandon (held n : ℕ)
  deriving DecidableEq, Repr

/-- What a process returns. -/
inductive Outcome
  | acquired (res : Except Err Held)
  | released (err : Option Err)
  | ended
  deriving DecidableEq

/-- An acquired lease: its pointer and state, the manager and the process that acquired it, and
the token of its acquisition. -/
structure Cell where
  held : Held
  state : HeldState
  manager : Manager
  maker : Proc
  first : Token

/-- A conditional write that a process sent: `expected` is absent for a create, and `session` is
the acquisition for which a renewal or a release writes. -/
structure Request where
  proc : Proc
  session : Option Token
  key : String
  expected : Option Token
  body : Bytes

/-- The world that the lease programs share. The history of writes has the newest first. -/
structure World where
  store : MemoryStore
  minted : List Token
  helds : ℕ → Option Cell
  log : List (Fence.Write String Token Proc)
  inflight : List Request

namespace World

/-- A world with a store, in which no lease program has run. -/
def initial (store : MemoryStore) (minted : List Token) : World where
  store := store
  minted := minted
  helds := fun _ => none
  log := []
  inflight := []

/-- The acquisition for which a process writes; an acquirer writes for a new one. -/
def session (w : World) : Proc → Option Token
  | .acquire _ => none
  | .renew h | .release h _ | .abandon h _ => (w.helds h).map Cell.first

/-- The store operation of a request. -/
def apply (w : World) (q : Request) (tok : Token) : Except StoreErr Token × MemoryStore :=
  match q.expected with
  | none => w.store.createIfAbsent q.key q.body tok
  | some t => w.store.replaceIfToken q.key t q.body tok

/-- The history entry of a request that took effect. -/
def entry (q : Request) (tok : Token) : Fence.Write String Token Proc where
  key := q.key
  token := tok
  session := q.session.getD tok
  proc := q.proc

/-- A request takes effect under a freshly minted token. -/
def Lands (w : World) (q : Request) (tok : Token) (w' : World) : Prop :=
  tok ∉ w.minted ∧ ∃ store', w.apply q tok = (.ok tok, store') ∧
    w' = { w with store := store', minted := tok :: w.minted, log := entry q tok :: w.log }

/-- The possible answers to a conditional write. -/
def AnswersWrite (w : World) (q : Request) (r : Except StoreErr Token) (w' : World) : Prop :=
  (∃ tok, w.Lands q tok w' ∧ (r = .ok tok ∨ ∃ e, r = .error e)) ∨
    ∃ e, r = .error e ∧ w' = { w with inflight := q :: w.inflight }

/-- A critical section of an acquired lease changes its state by `f`. -/
def Updates (w : World) (held : Held) (f : HeldState → HeldState) (w' : World) : Prop :=
  ∃ c, w.helds held.id = some c ∧
    w' = { w with helds := update w.helds held.id (some { c with state := f c.state }) }

/-- The possible answers to the calls of the lease programs. -/
def answer (w : World) (i : Proc) : (c : Op) → Resp c → World → Prop
  | .get key, r, w' => (r = w.store.get key ∨ ∃ e, r = .error e) ∧ w' = w
  | .createIfAbsent key body, r, w' => w.AnswersWrite ⟨i, w.session i, key, none, body⟩ r w'
  | .replaceIfToken key t body, r, w' => w.AnswersWrite ⟨i, w.session i, key, some t, body⟩ r w'
  | .newHeld m key st maxExpiry, r, w' =>
      w.helds r.id = none ∧ r.key = key ∧ r.maxExpiry = maxExpiry ∧
        w' = { w with helds := update w.helds r.id (some ⟨r, st, m, i, st.version⟩) }
  | .snapshot held, r, w' =>
      (∃ c, w.helds held.id = some c ∧ r = (c.state.record, c.state.version)) ∧ w' = w
  | .setRenewed held expiresAt version, _, w' =>
      w.Updates held (fun st => { st with record.expiresAt := expiresAt, version }) w'
  | .markLost held, _, w' => w.Updates held (fun st => { st with lost := true }) w'
  | .awaitStopOrTick held _, r, w' =>
      (r = true → ∃ c, w.helds held.id = some c ∧ c.state.stopped = true) ∧ w' = w
  | .isStopped held, r, w' => (∃ c, w.helds held.id = some c ∧ r = c.state.stopped) ∧ w' = w
  | .closeStop held, _, w' =>
      -- closing a closed channel panics, so a second close is never answered
      (∃ c, w.helds held.id = some c ∧ c.state.stopped = false) ∧
        w.Updates held (fun st => { st with stopped := true }) w'
  | .awaitDone held, _, w' => (∃ c, w.helds held.id = some c ∧ c.state.ended = true) ∧ w' = w
  | .closeDone held, _, w' => w.Updates held (fun st => { st with ended := true }) w'
  | .now, _, w' | .newID, _, w' | .enterFlight _, _, w' | .lockFlight _, _, w'
  | .unlockFlight _, _, w' | .leaveFlight _ _, _, w' | .waitChannel _, _, w'
  | .notifyWaiters _, _, w' | .overBudget _, _, w' | .ctxErr, _, w' | .randInt _, _, w'
  | .wait _ _, _, w' => w' = w

/-- A request in flight takes effect. -/
def LandsLate (w w' : World) : Prop := ∃ q ∈ w.inflight, ∃ tok, w.Lands q tok w'

end World

/-- The programs that a process may start. -/
inductive Starts (json : RecordJson) : World → Proc → LeaseM Outcome → World → Prop
  | acquire (w : World) (n : ℕ) (m : Manager) (rounds : ℕ) (db : DatabaseID)
      (rootPrefix : List String) :
      Starts json w (.acquire n) (do return .acquired (← acquire json m rounds db rootPrefix)) w
  | acquireKey (w : World) (n : ℕ) (m : Manager) (rounds : ℕ) (db : DatabaseID) (key : String) :
      Starts json w (.acquire n) (do return .acquired (← acquireKey json m rounds db key)) w
  | renew {w : World} {h : ℕ} {c : Cell} (hc : w.helds h = some c) (rounds : ℕ) :
      Starts json w (.renew h) (do renewLoop json c.manager c.held rounds; return .ended) w
  | release {w : World} {h : ℕ} {c : Cell} (hc : w.helds h = some c) (n : ℕ) :
      Starts json w (.release h n) (do return .released (← release json (some c.held))) w
  | abandon {w : World} {h : ℕ} {c : Cell} (hc : w.helds h = some c) (n : ℕ) :
      Starts json w (.abandon h n) (do abandon (some c.held); return .ended) w

/-- Any number of managers over one store. -/
def system (json : RecordJson) : System World Proc Op Resp Outcome where
  start := Starts json
  call := World.answer
  env := World.LandsLate

/-! ### Executable runs -/

/-- A call that a process may be started with. -/
inductive Start
  | acquire (m : Manager) (rounds : ℕ) (db : DatabaseID) (rootPrefix : List String)
  | acquireKey (m : Manager) (rounds : ℕ) (db : DatabaseID) (key : String)
  | renew (rounds : ℕ)
  | release

/-- How a call is answered: by the state of the world, with a fresh token or handle, or with a
value from outside. -/
inductive Choice
  | plain
  | token (tok : Token)
  | fresh (n : ℕ)
  | clock (t : ℤ)
  | text (s : String)
  | flag (b : Bool)

namespace World

/-- The program and the world of a start. -/
def begin (json : RecordJson) (w : World) : Proc → Start → Option (LeaseM Outcome × World)
  | .acquire _, .acquire m rounds db rootPrefix =>
      some (do return .acquired (← acquire json m rounds db rootPrefix), w)
  | .acquire _, .acquireKey m rounds db key =>
      some (do return .acquired (← acquireKey json m rounds db key), w)
  | .renew h, .renew rounds =>
      (w.helds h).map fun c => (do renewLoop json c.manager c.held rounds; return .ended, w)
  | .release h _, .release =>
      (w.helds h).map fun c => (do return .released (← release json (some c.held)), w)
  | _, _ => none

/-- A conditional write that takes effect and is answered. -/
def land (w : World) (q : Request) (tok : Token) : Option (Except StoreErr Token × World) :=
  if tok ∈ w.minted then none
  else
    match w.apply q tok with
    | (.ok _, store') =>
        some (.ok tok, { w with store := store', minted := tok :: w.minted,
                                log := entry q tok :: w.log })
    | (.error _, _) => none

/-- A critical section. -/
def change (w : World) (held : Held) (f : HeldState → HeldState) : Option (Unit × World) :=
  (w.helds held.id).map fun c => ((), { w with
    helds := update w.helds held.id (some { c with state := f c.state }) })

/-- The answer to a call. -/
def reply (w : World) (i : Proc) : (c : Op) → Choice → Option (Resp c × World)
  | .get key, .plain => some (w.store.get key, w)
  | .createIfAbsent key body, .token tok => w.land ⟨i, w.session i, key, none, body⟩ tok
  | .replaceIfToken key t body, .token tok => w.land ⟨i, w.session i, key, some t, body⟩ tok
  | .newHeld m key st maxExpiry, .fresh n =>
      match w.helds n with
      | some _ => none
      | none => some (⟨n, key, maxExpiry⟩, { w with
          helds := update w.helds n (some ⟨⟨n, key, maxExpiry⟩, st, m, i, st.version⟩) })
  | .snapshot held, .plain =>
      (w.helds held.id).map fun c => ((c.state.record, c.state.version), w)
  | .setRenewed held expiresAt version, .plain =>
      w.change held fun st => { st with record.expiresAt := expiresAt, version }
  | .markLost held, .plain => w.change held fun st => { st with lost := true }
  | .closeDone held, .plain => w.change held fun st => { st with ended := true }
  | .closeStop held, .plain =>
      match w.helds held.id with
      | some c => if c.state.stopped then none
          else w.change held fun st => { st with stopped := true }
      | none => none
  | .awaitStopOrTick held _, .plain =>
      (w.helds held.id).map fun c => (c.state.stopped, w)
  | .isStopped held, .plain => (w.helds held.id).map fun c => (c.state.stopped, w)
  | .awaitDone held, .plain =>
      match w.helds held.id with
      | some c => if c.state.ended then some ((), w) else none
      | none => none
  | .now, .clock t => some (t, w)
  | .newID, .text s => some (s, w)
  | .overBudget _, .flag b => some (b, w)
  | .enterFlight _, .fresh n => some (n, w)
  | .waitChannel _, .fresh n => some (n, w)
  | .lockFlight _, .plain | .unlockFlight _, .plain | .leaveFlight _ _, .plain
  | .notifyWaiters _, .plain => some ((), w)
  | _, _ => none

variable {json : RecordJson} {w w' : World} {i : Proc}
variable {q : Request} {tok : Token}

theorem Lands.store_eq (h : w.Lands q tok w') :
    w'.store.objects = update w.store.objects q.key (some ⟨q.body, tok⟩) := by
  obtain ⟨-, store', happly, rfl⟩ := h
  unfold apply at happly
  split at happly
  · obtain ⟨-, -, rfl⟩ := MemoryStore.createIfAbsent_ok happly
    rfl
  · obtain ⟨-, -, rfl⟩ := MemoryStore.replaceIfToken_ok happly
    rfl

theorem Lands.helds_eq (h : w.Lands q tok w') : w'.helds = w.helds := by
  obtain ⟨-, store', -, rfl⟩ := h
  rfl

theorem begin_sound {x : Start} {p : LeaseM Outcome} (h : w.begin json i x = some (p, w')) :
    Starts json w i p w' := by
  cases i <;> cases x <;> simp only [begin, reduceCtorEq, some.injEq, Prod.mk.injEq,
    map_eq_some_iff] at h
  · obtain ⟨rfl, rfl⟩ := h
    exact .acquire ..
  · obtain ⟨rfl, rfl⟩ := h
    exact .acquireKey ..
  · obtain ⟨c, hc, rfl, rfl⟩ := h
    exact .renew hc _
  · obtain ⟨c, hc, rfl, rfl⟩ := h
    exact .release hc _

theorem land_lands {r : Except StoreErr Token} (h : w.land q tok = some (r, w')) :
    w.Lands q tok w' ∧ r = .ok tok := by
  unfold land at h
  split at h
  · cases h
  · next hfresh =>
    split at h
    · next t store' happly =>
      cases h
      have htok : t = tok := by
        unfold apply at happly
        split at happly
        · exact (MemoryStore.createIfAbsent_ok happly).2.1
        · exact (MemoryStore.replaceIfToken_ok happly).2.1
      subst htok
      exact ⟨⟨hfresh, store', happly, rfl⟩, rfl⟩
    · cases h

theorem land_sound {r : Except StoreErr Token} (h : w.land q tok = some (r, w')) :
    w.AnswersWrite q r w' := by
  obtain ⟨hl, rfl⟩ := land_lands h
  exact .inl ⟨tok, hl, .inl rfl⟩

theorem change_sound {held : Held} {f : HeldState → HeldState} {u : Unit}
    (h : w.change held f = some (u, w')) : w.Updates held f w' := by
  obtain ⟨c, hc, heq⟩ := map_eq_some_iff.mp h
  exact ⟨c, hc, (Prod.mk.inj heq).2.symm⟩

theorem reply_sound {c : Op} {x : Choice} {r : Resp c} (h : w.reply i c x = some (r, w')) :
    w.answer i c r w' := by
  cases c with
  | get key =>
    cases x <;> simp only [reply, reduceCtorEq, some.injEq, Prod.mk.injEq] at h
    exact ⟨.inl h.1.symm, h.2.symm⟩
  | createIfAbsent key body | replaceIfToken key t body =>
    cases x <;> simp only [reply, reduceCtorEq] at h
    exact land_sound h
  | newHeld m key st maxExpiry =>
    cases x <;> simp only [reply, reduceCtorEq] at h
    split at h
    · cases h
    · next hfree =>
      cases h
      exact ⟨hfree, rfl, rfl, rfl⟩
  | snapshot held =>
    cases x <;> simp only [reply, reduceCtorEq, map_eq_some_iff, Prod.mk.injEq] at h
    obtain ⟨c, hc, hr, rfl⟩ := h
    exact ⟨⟨c, hc, hr.symm⟩, rfl⟩
  | setRenewed held expiresAt version | markLost held | closeDone held =>
    cases x <;> simp only [reply, reduceCtorEq] at h
    exact change_sound h
  | closeStop held =>
    cases x <;> simp only [reply, reduceCtorEq] at h
    split at h
    · next c hc =>
      split at h
      · cases h
      · next hstop => exact ⟨⟨c, hc, Bool.eq_false_iff.mpr hstop⟩, change_sound h⟩
    · cases h
  | awaitStopOrTick held interval =>
    cases x <;> simp only [reply, reduceCtorEq, map_eq_some_iff, Prod.mk.injEq] at h
    obtain ⟨c, hc, hr, rfl⟩ := h
    exact ⟨fun htrue => ⟨c, hc, hr.trans htrue⟩, rfl⟩
  | isStopped held =>
    cases x <;> simp only [reply, reduceCtorEq, map_eq_some_iff, Prod.mk.injEq] at h
    obtain ⟨c, hc, hr, rfl⟩ := h
    exact ⟨⟨c, hc, hr.symm⟩, rfl⟩
  | awaitDone held =>
    cases x <;> simp only [reply, reduceCtorEq] at h
    split at h
    · next c hc =>
      split at h
      · next hended => exact ⟨⟨c, hc, hended⟩, (Prod.mk.inj (some.inj h)).2.symm⟩
      · cases h
    · cases h
  | ctxErr | randInt | wait => cases x <;> simp only [reply, reduceCtorEq] at h
  | _ =>
    cases x <;> simp only [reply, reduceCtorEq, some.injEq, Prod.mk.injEq] at h
    exact h.2.symm

end World

/-- An interpreter of lease runs. -/
def interpreter (json : RecordJson) : Interpreter (system json) Start Choice Empty where
  start := World.begin json
  call := World.reply
  env _ x := nomatch x
  start_sound := World.begin_sound
  call_sound := World.reply_sound
  env_sound := fun {_ x} => nomatch x

end Walrusd.Lease
