import Walrusd.Lease.System

/-!
# Lease managers with clocks

The pool of `Walrusd.Lease.system` with a clock for each manager and with the history of the
records that were stored. Acquisition `n` is a call on manager `site n`; the renewal loop, the
releases and the abandonments of a lease read the clock of the manager that acquired it. What the
clocks may do, and whether a write whose outcome is unknown may take effect after its call was
answered, are parameters of the setup.

## Main definitions

* `Setup`, `Effect`, `Timed`.
* `Setup.system` and `Setup.interpreter`.
-/

namespace Walrusd.Lease

open Program Option

/-- Managers and what the environment may do: `site n` is the manager on which acquisition `n` is
called, `tick` relates the readings of all clocks before and after a move of time, and `late` says
whether a write that was answered by an error may take effect later. -/
structure Setup where
  json : RecordJson
  manager : ℕ → Manager
  site : ℕ → ℕ
  tick : (ℕ → ℤ) → (ℕ → ℤ) → Prop
  late : Prop

/-- The clocks never go back. -/
def Setup.Monotone (S : Setup) : Prop := ∀ clock clock', S.tick clock clock' → clock ≤ clock'

/-- A conditional write that took effect: the request, the token it left, and the readings of the
clock that its process had made when it sent the request, newest first. -/
structure Effect where
  request : Request
  token : Token
  times : List ℤ

namespace Effect

/-- The process that sent the request. -/
abbrev proc (y : Effect) : Proc := y.request.proc

/-- The key that was written. -/
abbrev key (y : Effect) : String := y.request.key

/-- The body that was stored. -/
abbrev body (y : Effect) : Bytes := y.request.body

/-- The token of the acquisition to which the write belongs. -/
def session (y : Effect) : Token := y.request.session.getD y.token

theorem session_of_some {q : Request} {tok s : Token} {ts : List ℤ} (h : q.session = some s) :
    Effect.session ⟨q, tok, ts⟩ = s := by
  simp [session, h]

theorem session_of_none {q : Request} {tok : Token} {ts : List ℤ} (h : q.session = none) :
    Effect.session ⟨q, tok, ts⟩ = tok := by
  simp [session, h]

end Effect

/-- The world with clocks. `readings` are the readings that each process has made, `sent` those of
the requests in flight, and the history has the newest effect first. -/
structure Timed where
  world : World
  clock : ℕ → ℤ
  readings : Proc → List ℤ
  sent : List (List ℤ)
  history : List Effect
  begun : List Proc

namespace Timed

/-- A world in which no lease program has run. -/
def initial (store : MemoryStore) (minted : List Token) (clock : ℕ → ℤ) : Timed where
  world := .initial store minted
  clock := clock
  readings := fun _ => []
  sent := []
  history := []
  begun := []

/-- The manager whose clock a process reads. -/
def site (S : Setup) (w : Timed) : Proc → Option ℕ
  | .acquire n => some (S.site n)
  | .renew h | .release h _ | .abandon h _ =>
    match w.world.helds h with
    | some ⟨_, _, _, .acquire n, _⟩ => some (S.site n)
    | _ => none

/-- A request takes effect. -/
def Lands (w : Timed) (q : Request) (times : List ℤ) (tok : Token) (w' : Timed) : Prop :=
  ∃ world', w.world.Lands q tok world' ∧
    w' = { w with world := world', history := ⟨q, tok, times⟩ :: w.history }

/-- The possible answers to a conditional write. -/
def AnswersWrite (w : Timed) (q : Request) (r : Except StoreErr Token) (w' : Timed) : Prop :=
  (∃ tok, w.Lands q (w.readings q.proc) tok w' ∧ (r = .ok tok ∨ ∃ e, r = .error e)) ∨
    ∃ e, r = .error e ∧ w' = { w with
      world := { w.world with inflight := q :: w.world.inflight }
      sent := w.readings q.proc :: w.sent }

/-- The possible answers to the calls of the lease programs. -/
def answer (S : Setup) (w : Timed) (i : Proc) : (c : Op) → Resp c → Timed → Prop
  | .now, r, w' => (∃ k, w.site S i = some k ∧ r = w.clock k) ∧
      w' = { w with readings := Function.update w.readings i (r :: w.readings i) }
  | .createIfAbsent key body, r, w' =>
      w.AnswersWrite ⟨i, w.world.session i, key, none, body⟩ r w'
  | .replaceIfToken key t body, r, w' =>
      w.AnswersWrite ⟨i, w.world.session i, key, some t, body⟩ r w'
  | c, r, w' => ∃ world', w.world.answer i c r world' ∧ w' = { w with world := world' }

/-- A request in flight takes effect. -/
def LandsLate (w w' : Timed) : Prop :=
  ∃ p ∈ w.world.inflight.zip w.sent, ∃ tok, w.Lands p.1 p.2 tok w'

/-- A process has started. -/
def start (w : Timed) (i : Proc) : Timed := { w with begun := i :: w.begun }

end Timed

/-- The programs that a process may start. -/
inductive Begins (S : Setup) : Timed → Proc → LeaseM Outcome → Timed → Prop
  | acquire (w : Timed) (n rounds : ℕ) (db : DatabaseID) (rootPrefix : List String) :
      Begins S w (.acquire n)
        (do return .acquired (← acquire S.json (S.manager (S.site n)) rounds db rootPrefix))
        (w.start (.acquire n))
  | acquireKey (w : Timed) (n rounds : ℕ) (db : DatabaseID) (key : String) :
      Begins S w (.acquire n)
        (do return .acquired (← acquireKey S.json (S.manager (S.site n)) rounds db key))
        (w.start (.acquire n))
  | renew {w : Timed} {h : ℕ} {c : Cell} (hc : w.world.helds h = some c) (rounds : ℕ) :
      Begins S w (.renew h) (do renewLoop S.json c.manager c.held rounds; return .ended)
        (w.start (.renew h))
  | release {w : Timed} {h : ℕ} {c : Cell} (hc : w.world.helds h = some c) (n : ℕ) :
      Begins S w (.release h n) (do return .released (← release S.json (some c.held)))
        (w.start (.release h n))
  | abandon {w : Timed} {h : ℕ} {c : Cell} (hc : w.world.helds h = some c) (n : ℕ) :
      Begins S w (.abandon h n) (do abandon (some c.held); return .ended) (w.start (.abandon h n))

/-- The pool of lease programs over a store and clocks. -/
def Setup.system (S : Setup) : System Timed Proc Op Resp Outcome where
  start w i p w' := i ∉ w.begun ∧ Begins S w i p w'
  call := Timed.answer S
  env w w' := (S.late ∧ w.LandsLate w') ∨ ∃ clock, S.tick w.clock clock ∧ w' = { w with clock }

theorem Begins.eq_start {S : Setup} {w w' : Timed} {i : Proc} {p : LeaseM Outcome}
    (h : Begins S w i p w') : w' = w.start i := by
  cases h <;> rfl

/-! ### Executable runs -/

section Interpreter

variable {S : Setup}

namespace Timed

/-- The program and the world of a start. -/
def begin (S : Setup) (w : Timed) : Proc → Start → Option (LeaseM Outcome × Timed)
  | .acquire n, .acquire _ rounds db rootPrefix =>
      some (do return .acquired (← acquire S.json (S.manager (S.site n)) rounds db rootPrefix),
        w.start (.acquire n))
  | .acquire n, .acquireKey _ rounds db key =>
      some (do return .acquired (← acquireKey S.json (S.manager (S.site n)) rounds db key),
        w.start (.acquire n))
  | .renew h, .renew rounds =>
      (w.world.helds h).map fun c =>
        (do renewLoop S.json c.manager c.held rounds; return .ended, w.start (.renew h))
  | .release h n, .release =>
      (w.world.helds h).map fun c =>
        (do return .released (← release S.json (some c.held)), w.start (.release h n))
  | _, _ => none

/-- A conditional write that takes effect and is answered, or, without a fresh token, one that
fails. -/
def send (w : Timed) (q : Request) : Choice → Option (Except StoreErr Token × Timed)
  | .token tok =>
      (w.world.land q tok).map fun s => (s.1, { w with
        world := s.2, history := ⟨q, tok, w.readings q.proc⟩ :: w.history })
  | .text message => some (.error (.other message), { w with
      world := { w.world with inflight := q :: w.world.inflight }
      sent := w.readings q.proc :: w.sent })
  | _ => none

/-- The answer to a call. -/
def reply (S : Setup) (w : Timed) (i : Proc) : (c : Op) → Choice → Option (Resp c × Timed)
  | .now, .plain =>
      (w.site S i).map fun k => (w.clock k, { w with
        readings := Function.update w.readings i (w.clock k :: w.readings i) })
  | .createIfAbsent key body, x => w.send ⟨i, w.world.session i, key, none, body⟩ x
  | .replaceIfToken key t body, x => w.send ⟨i, w.world.session i, key, some t, body⟩ x
  | .now, _ => none
  | c, x => (w.world.reply i c x).map fun s => (s.1, { w with world := s.2 })

variable {w w' : Timed}

theorem begin_sound {i : Proc} {x : Start} {p : LeaseM Outcome} (h : w.begin S i x = some (p, w')) :
    Begins S w i p w' := by
  cases i <;> cases x <;> simp only [begin, reduceCtorEq, some.injEq, Prod.mk.injEq,
    map_eq_some_iff] at h
  · obtain ⟨rfl, rfl⟩ := h
    exact .acquire ..
  · obtain ⟨rfl, rfl⟩ := h
    exact .acquireKey ..
  · obtain ⟨c, hc, rfl, rfl⟩ := h
    exact .renew hc _
  · obtain ⟨c, hc, rfl, rfl⟩ := h
    exact .release hc _

theorem send_sound {q : Request} {x : Choice} {r : Except StoreErr Token}
    (h : w.send q x = some (r, w')) : w.AnswersWrite q r w' := by
  cases x <;> simp only [send, reduceCtorEq, some.injEq, Prod.mk.injEq, map_eq_some_iff] at h
  · obtain ⟨⟨r, world'⟩, hland, rfl, rfl⟩ := h
    obtain ⟨hl, rfl⟩ := World.land_lands hland
    exact .inl ⟨_, ⟨world', hl, rfl⟩, .inl rfl⟩
  · obtain ⟨rfl, rfl⟩ := h
    exact .inr ⟨_, rfl, rfl⟩

theorem reply_sound {i : Proc} {c : Op} {x : Choice} {r : Resp c}
    (h : w.reply S i c x = some (r, w')) : w.answer S i c r w' := by
  cases c with
  | now =>
    cases x <;> simp only [reply, reduceCtorEq, map_eq_some_iff, Prod.mk.injEq] at h
    obtain ⟨k, hk, rfl, rfl⟩ := h
    exact ⟨⟨k, hk, rfl⟩, rfl⟩
  | createIfAbsent | replaceIfToken => exact send_sound (by simpa only [reply] using h)
  | _ =>
    simp only [reply, map_eq_some_iff] at h
    obtain ⟨⟨r, world'⟩, hreply, heq⟩ := h
    cases heq
    exact ⟨world', World.reply_sound hreply, rfl⟩

end Timed

/-- An interpreter of runs with clocks; the world moves by ticking to given readings. -/
def Setup.interpreter (S : Setup) (tick : (ℕ → ℤ) → ℤ → Option (ℕ → ℤ))
    (htick : ∀ {clock x clock'}, tick clock x = some clock' → S.tick clock clock') :
    Interpreter S.system Start Choice ℤ where
  start w i x := if i ∈ w.begun then none else w.begin S i x
  call := Timed.reply S
  env w x := (tick w.clock x).map fun clock => { w with clock }
  start_sound := by
    intro w i x p w' h
    split at h
    · cases h
    · next hnew => exact ⟨hnew, Timed.begin_sound h⟩
  call_sound := Timed.reply_sound
  env_sound := by
    intro w x w' h
    obtain ⟨clock, hclock, rfl⟩ := map_eq_some_iff.mp h
    exact Or.inr ⟨clock, htick hclock, rfl⟩

end Interpreter

end Walrusd.Lease
