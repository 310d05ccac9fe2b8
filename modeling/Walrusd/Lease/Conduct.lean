import Walrusd.Lease.Manager

/-!
# What a lease program writes

A second automaton watches the records that each lease program writes. An acquirer creates a record
with epoch 1, or replaces the record that it read, if that was released or safely expired, by one
with the next epoch; it wraps only the record of its own last successful write. A renewal loop
writes the record of its lease with a new expiry, below the cap; a release writes it with the
released state, after the renewal loop has ended. Every program of `Walrusd.Lease.Manager` keeps to
this, whatever the answers.

## Main definitions

* `issued` — the record of an acquisition.
* `Phase`, `recordProtocol`.

## Main results

* `acquireSingleFlight_conduct`, `renewLoop_conduct`, `release_conduct`, `abandon_conduct`.
* `acquireSingleFlight_expiry` — the first expiry of a lease.
-/

namespace Walrusd.Lease

open Program List

/-- The record that `newRecord` makes from a reading of the clock, a lease ID and an epoch. -/
def issued (m : Manager) (db : DatabaseID) (time : ℤ) (id : String) (epoch : ℕ) : Record where
  formatVersion := formatVersion
  databaseID := db.string
  state := .held
  owner := m.owner
  leaseID := id
  epoch := epoch
  expiresAt := time + m.cfg.duration

/-- What is known about an acquirer: the record it read last, the readings of its clock, its last
successful write, and the lease it made. -/
structure Acquirer where
  got : Option (String × Bytes × Token) := none
  times : List ℤ := []
  won : Option (String × Token × Bytes) := none
  made : Option Held := none

/-- What is known about a process that works for a lease: its last snapshot of the lease, the
reading of the clock since then, the last successful write since then, and whether it has waited
for the renewal loop or has closed the channel `done`. -/
structure Keeper where
  held : Held
  seen : Option (Record × Token) := none
  time : Option ℤ := none
  won : Option (Token × Bytes) := none
  waited : Bool := false
  finished : Bool := false

/-- The phase of a process. -/
inductive Phase
  | idle
  | acquirer (m : Manager) (s : Acquirer)
  | renewer (m : Manager) (s : Keeper)
  | closer (releasing : Bool) (s : Keeper)

namespace Acquirer

/-- The effect of the answer to a conditional write. -/
def afterWrite (s : Acquirer) (key : String) (body : Bytes) : Except StoreErr Token → Acquirer
  | .ok tok => { s with won := some (key, tok, body) }
  | .error _ => s

/-- The effect of an answer. -/
def after (s : Acquirer) : (c : Op) → Resp c → Acquirer
  | .now, r => { s with times := r :: s.times }
  | .get key, r =>
    match r with
    | .ok (body, t) => { s with got := some (key, body, t) }
    | .error _ => s
  | .createIfAbsent key body, r => s.afterWrite key body r
  | .replaceIfToken key _ body, r => s.afterWrite key body r
  | .newHeld _ _ _ _, r => { s with made := some r }
  | _, _ => s

/-- The calls that an acquirer may issue. -/
def Allows (json : RecordJson) (m : Manager) (s : Acquirer) : Op → Prop
  | .createIfAbsent _ body => s.made = none ∧ ∃ db t ts id, s.times = t :: ts ∧
      json.marshal (issued m db t id 1) = .ok body
  | .replaceIfToken key t body => s.made = none ∧ ∃ b old db t₁ t₂ ts id,
      s.got = some (key, b, t) ∧ json.unmarshal b = .ok old ∧ old.databaseID = db.string ∧
        s.times = t₂ :: t₁ :: ts ∧
        (old.state = .held → old.expiresAt < t₁ - m.cfg.clockSkewAllowance) ∧
        json.marshal (issued m db t₂ id ((old.epoch + 1) % 2 ^ 64)) = .ok body
  | .newHeld m' key st maxExpiry => m' = m ∧ s.made = none ∧ ∃ rec tok body,
      st = ⟨rec, tok, false, false, false⟩ ∧ s.won = some (key, tok, body) ∧
        json.marshal rec = .ok body ∧ maxExpiry = rec.expiresAt + 2 * m.cfg.duration
  | .snapshot _ | .setRenewed _ _ _ | .markLost _ | .awaitStopOrTick _ _ | .isStopped _
  | .closeStop _ | .awaitDone _ | .closeDone _ => False
  | _ => True

end Acquirer

namespace Keeper

/-- The effect of an answer. -/
def after (s : Keeper) : (c : Op) → Resp c → Keeper
  | .now, r => { s with time := some r }
  | .snapshot _, r => { s with seen := some r, time := none, won := none }
  | .replaceIfToken _ _ body, r =>
    match r with
    | .ok tok => { s with won := some (tok, body) }
    | .error _ => s
  | .setRenewed _ _ _, _ => { s with seen := none, time := none, won := none }
  | .awaitDone _, _ => { s with waited := true }
  | .closeDone _, _ => { s with finished := true }
  | _, _ => s

/-- The calls that a renewal loop may issue; it issues none after closing `done`. -/
def Renews (json : RecordJson) (m : Manager) (s : Keeper) (c : Op) : Prop :=
  s.finished = false ∧
    match c with
    | .now => True
    | .awaitStopOrTick held _ | .snapshot held | .markLost held | .closeDone held => held = s.held
    | .replaceIfToken key t body => key = s.held.key ∧ ∃ rec now,
        s.seen = some (rec, t) ∧ s.time = some now ∧ now + m.cfg.duration ≤ s.held.maxExpiry ∧
          json.marshal { rec with expiresAt := now + m.cfg.duration } = .ok body
    | .setRenewed held expiresAt version => held = s.held ∧ ∃ rec t body,
        s.seen = some (rec, t) ∧ s.won = some (version, body) ∧
          json.marshal { rec with expiresAt } = .ok body
    | _ => False

/-- The calls that a release or an abandonment may issue. -/
def Closes (json : RecordJson) (releasing : Bool) (s : Keeper) : Op → Prop
  | .now | .notifyWaiters _ => True
  | .isStopped held | .closeStop held | .awaitDone held => held = s.held
  | .snapshot held => held = s.held ∧ releasing = true ∧ s.waited = true
  | .replaceIfToken key t body => releasing = true ∧ key = s.held.key ∧ ∃ rec now,
      s.seen = some (rec, t) ∧ s.time = some now ∧
        json.marshal { rec with state := .released, expiresAt := now } = .ok body
  | _ => False

end Keeper

namespace Phase

/-- The effect of an answer. -/
def after : Phase → (c : Op) → Resp c → Phase
  | .idle, _, _ => .idle
  | .acquirer m s, c, r => .acquirer m (s.after c r)
  | .renewer m s, c, r => .renewer m (s.after c r)
  | .closer releasing s, c, r => .closer releasing (s.after c r)

/-- The calls that a process may issue. -/
def Allows (json : RecordJson) : Phase → Op → Prop
  | .idle => fun _ => False
  | .acquirer m s => s.Allows json m
  | .renewer m s => s.Renews json m
  | .closer releasing s => s.Closes json releasing

end Phase

/-- The protocol of the phases. -/
def recordProtocol (json : RecordJson) : Protocol Op Resp Phase where
  allow := Phase.Allows json
  next s c r s' := s' = s.after c r

instance (json : RecordJson) : (recordProtocol json).Steps Phase.after := ⟨id⟩

/-! ### Acquisition -/

section Acquisition

variable {json : RecordJson} {m : Manager} {s : Acquirer}
variable {α : Type} {Q : Phase → α → Prop} {key : String} {db : DatabaseID}

/-- An acquirer that returned: it made the lease that it returns, and none if it failed. -/
def Made (m : Manager) (p : Phase) (res : Except Err Held) : Prop :=
  ∃ s, p = .acquirer m s ∧ s.made = res.toOption

theorem made_error {e : Err} (hs : s.made = none) : Made m (.acquirer m s) (.error e) :=
  ⟨s, rfl, hs⟩

theorem conduct_neutral {p : Phase} {c : Op} {f : Resp c → LeaseM α} (hallow : p.Allows json c)
    (hafter : ∀ r, p.after c r = p) (h : ∀ r, (f r).Obeys (recordProtocol json) Q p) :
    (ask c >>= f).Obeys (recordProtocol json) Q p := by
  refine .does hallow fun r => ?_
  rw [hafter r]
  exact h r

theorem newHeld_conduct {rec : Record} {version : Token} {body : Bytes} (hs : s.made = none)
    (hwon : s.won = some (key, version, body)) (hbody : json.marshal rec = .ok body) :
    (do return .ok (← newHeld m key rec version) : LeaseM (Except Err Held)).Obeys
      (recordProtocol json) (Made m) (.acquirer m s) := by
  refine .does ⟨rfl, hs, rec, version, body, rfl, hwon, hbody, rfl⟩ fun held => ?_
  exact ⟨_, rfl, rfl⟩

theorem create_conduct (key : String) {t : ℤ} {ts : List ℤ} {id : String} (hs : s.made = none)
    (htimes : s.times = t :: ts) :
    (create json m key (issued m db t id 1)).Obeys (recordProtocol json) (Made m)
      (.acquirer m s) := by
  unfold create
  cases hbody : json.marshal (issued m db t id 1) with
  | error e => exact made_error hs
  | ok body =>
    refine .does ⟨hs, db, t, ts, id, htimes, hbody⟩ ?_
    rintro (e | tok)
    · cases e <;> exact made_error hs
    · exact newHeld_conduct hs rfl hbody

theorem replace_conduct {version : Token} {b : Bytes} {old : Record} {t₁ t₂ : ℤ} {ts : List ℤ}
    {id : String} (hs : s.made = none) (hgot : s.got = some (key, b, version))
    (hold : json.unmarshal b = .ok old) (hdb : old.databaseID = db.string)
    (htimes : s.times = t₂ :: t₁ :: ts)
    (hexpired : old.state = .held → old.expiresAt < t₁ - m.cfg.clockSkewAllowance) :
    (replace json m key version (issued m db t₂ id ((old.epoch + 1) % 2 ^ 64))).Obeys
      (recordProtocol json) (Made m) (.acquirer m s) := by
  unfold replace
  cases hbody : json.marshal (issued m db t₂ id ((old.epoch + 1) % 2 ^ 64)) with
  | error e => exact made_error hs
  | ok body =>
    refine .does ⟨hs, b, old, db, t₁, t₂, ts, id, hgot, hold, hdb, htimes, hexpired, hbody⟩ ?_
    rintro (e | tok)
    · cases e <;> exact made_error hs
    · exact newHeld_conduct hs rfl hbody

theorem newRecord_bind_conduct {prevEpoch : ℕ} {f : Record → LeaseM α}
    (h : ∀ t id, (f (issued m db t id ((prevEpoch + 1) % 2 ^ 64))).Obeys (recordProtocol json) Q
      (.acquirer m { s with times := t :: s.times })) :
    (newRecord m db prevEpoch >>= f).Obeys (recordProtocol json) Q (.acquirer m s) := by
  refine .does trivial fun t => ?_
  exact conduct_neutral (c := .newID) trivial (fun _ => rfl) fun id => h t id

theorem acquireOnce_conduct (db : DatabaseID) (key : String) (hs : s.made = none) :
    (acquireOnce json m db key).Obeys (recordProtocol json) (Made m) (.acquirer m s) := by
  unfold acquireOnce
  refine .does trivial ?_
  rintro (e | ⟨body, version⟩)
  · cases e with
    | notFound => exact newRecord_bind_conduct fun t id => create_conduct key hs rfl
    | conflict | alreadyExists | other => exact made_error hs
  simp only
  cases hold : json.unmarshal body with
  | error e => exact made_error hs
  | ok old =>
    simp only
    split
    · exact made_error hs
    · next hdb =>
      refine .does trivial fun now => ?_
      split
      · exact made_error hs
      · next hfree =>
        refine newRecord_bind_conduct fun t id => ?_
        refine replace_conduct hs rfl hold (Decidable.not_not.mp hdb) rfl fun hheld => ?_
        exact Decidable.not_not.mp fun hlt => hfree ⟨hheld, hlt⟩

theorem retryDelay_bind_conduct {attempt : ℕ} {f : ℤ → LeaseM α}
    (h : ∀ d, (f d).Obeys (recordProtocol json) Q (.acquirer m s)) :
    (retryDelay m attempt >>= f).Obeys (recordProtocol json) Q (.acquirer m s) := by
  unfold retryDelay jitter
  split
  · exact h _
  · refine conduct_neutral (c := .randInt _) trivial (fun _ => rfl) ?_
    rintro (_ | n) <;> exact h _

theorem acquireLocked_conduct (db : DatabaseID) (key : String) (fl rounds attempt : ℕ)
    (hs : s.made = none) :
    (acquireLocked json m db key fl rounds attempt).Obeys (recordProtocol json) (Made m)
      (.acquirer m s) := by
  induction rounds using Nat.strong_induction_on generalizing attempt s with
  | _ rounds ih =>
    rw [acquireLocked_eq]
    refine conduct_neutral trivial (fun _ => rfl) fun _ => (acquireOnce_conduct db key hs).bind ?_
    rintro _ (err | held) ⟨s, rfl, hmade⟩
    · simp only
      split
      · refine conduct_neutral trivial (fun _ => rfl) fun spent => ?_
        split
        · exact made_error hmade
        refine conduct_neutral trivial (fun _ => rfl) fun cancelled => ?_
        split
        · exact made_error hmade
        refine retryDelay_bind_conduct fun delay => ?_
        refine conduct_neutral trivial (fun _ => rfl) ?_
        rintro (_ | _ | e)
        · exact ih _ (by omega) _ hmade
        · exact ih _ (by omega) _ hmade
        · exact made_error hmade
      · exact made_error hmade
    · exact ⟨s, rfl, hmade⟩

theorem acquireSingleFlight_conduct (rounds : ℕ) (db : DatabaseID) (key : String)
    (hs : s.made = none) :
    (acquireSingleFlight json m rounds db key).Obeys (recordProtocol json) (Made m)
      (.acquirer m s) := by
  unfold acquireSingleFlight
  refine conduct_neutral trivial (fun _ => rfl) fun fl => ?_
  refine conduct_neutral trivial (fun _ => rfl) fun _ => ?_
  refine (acquireLocked_conduct db key fl rounds 0 hs).bind ?_
  rintro _ res ⟨s, rfl, hmade⟩
  refine conduct_neutral trivial (fun _ => rfl) fun _ => ?_
  exact conduct_neutral trivial (fun _ => rfl) fun _ => ⟨s, rfl, hmade⟩

/-- The clock has shown at least `start`, and what an acquirer has won it issued from a reading. -/
def Acquirer.Since (json : RecordJson) (m : Manager) (start : ℤ) (s : Acquirer) : Prop :=
  (∀ t ∈ s.times, start ≤ t) ∧ ∀ key tok body, s.won = some (key, tok, body) →
    ∃ db t id epoch, start ≤ t ∧ json.marshal (issued m db t id epoch) = .ok body

theorem Acquirer.Since.after {start : ℤ} {c : Op} {r : Resp c} (h : s.Since json m start)
    (hallow : s.Allows json m c) (hnow : ∀ t, (⟨c, r⟩ : Σ c, Resp c) = ⟨.now, t⟩ → start ≤ t) :
    (s.after c r).Since json m start := by
  have hwon : ∀ {s' : Acquirer} {key body tok}, s'.times = s.times →
      s'.won = some (key, tok, body) → (∃ db t ts id epoch, s.times = t :: ts ∧
        json.marshal (issued m db t id epoch) = .ok body) → s'.Since json m start := by
    rintro s' key body tok htimes hwon ⟨db, t, ts, id, epoch, hts, hbody⟩
    refine ⟨fun t ht => h.1 t (htimes ▸ ht), fun key' tok' body' hwon' => ?_⟩
    rw [hwon] at hwon'
    cases hwon'
    exact ⟨db, t, id, epoch, h.1 t (hts ▸ mem_cons_self), hbody⟩
  cases c with
  | now =>
    refine ⟨fun t ht => ?_, h.2⟩
    rcases mem_cons.mp ht with rfl | ht
    · exact hnow t rfl
    · exact h.1 t ht
  | get key => cases r <;> exact h
  | createIfAbsent key body =>
    cases r with
    | error e => exact h
    | ok tok =>
      obtain ⟨-, db, t, ts, id, hts, hbody⟩ := hallow
      exact hwon rfl rfl ⟨db, t, ts, id, 1, hts, hbody⟩
  | replaceIfToken key token body =>
    cases r with
    | error e => exact h
    | ok tok =>
      obtain ⟨-, _, old, db, _, t, _, id, -, -, -, hts, -, hbody⟩ := hallow
      exact hwon rfl rfl ⟨db, t, _, id, _, hts, hbody⟩
  | _ => exact h

/-- **The first expiry of a lease** is one duration after a reading of the clock during its
acquisition. -/
theorem acquireSingleFlight_expiry {rounds : ℕ} {tr : List (Σ c, Resp c)} {res : Except Err Held}
    {start : ℤ} (h : Returns (acquireSingleFlight json m rounds db key) tr res)
    (hstart : ∀ t, ⟨.now, t⟩ ∈ tr → start ≤ t) {m' : Manager} {key' : String} {st : HeldState}
    {maxExpiry : ℤ} {held : Held} (hmem : ⟨.newHeld m' key' st maxExpiry, held⟩ ∈ tr) :
    start + m.cfg.duration ≤ st.record.expiresAt := by
  obtain ⟨pre, post, rfl⟩ := append_of_mem hmem
  have hruns := @Protocol.runs_foldl _ _ _ (recordProtocol json) Phase.after (fun _ _ _ => rfl) pre
    (.acquirer m {})
  have hp := @acquireSingleFlight_conduct json m {} rounds db key rfl
  have hsince := h.keeps hruns hp (J := fun p => ∃ s, p = .acquirer m s ∧ s.Since json m start)
    ⟨_, rfl, nofun, nofun⟩ ?_
  · obtain ⟨s, hs, hsince⟩ := hsince
    have hallow := h.allows hruns hp
    rw [hs] at hallow
    obtain ⟨-, -, rec, tok, body, rfl, hwon, hbody, -⟩ := hallow
    obtain ⟨db', t, id, epoch, ht, hissued⟩ := hsince.2 _ _ _ hwon
    have heq := (json.unmarshal_marshal hbody).symm.trans (json.unmarshal_marshal hissued)
    rw [Except.ok.inj heq]
    exact Int.add_le_add_right ht _
  · rintro _ c r _ hcall hallow rfl ⟨s, rfl, hs⟩
    refine ⟨_, rfl, hs.after hallow fun t ht => hstart t ?_⟩
    rw [ht] at hcall
    exact mem_append_left _ hcall

end Acquisition

/-! ### Renewal, release and abandonment -/

section Keeping

variable {json : RecordJson} {m : Manager} {held : Held} {s : Keeper}

theorem closeDone_conduct (hheld : held = s.held) (hfinished : s.finished = false) :
    (ask (.closeDone held) : LeaseM Unit).Keeps (recordProtocol json) (.renewer m s) :=
  ⟨⟨hfinished, hheld⟩, fun _ _ _ => trivial⟩

theorem markLost_closeDone_conduct (hheld : held = s.held) (hfinished : s.finished = false) :
    (do ask (.markLost held); ask (.closeDone held) : LeaseM Unit).Keeps (recordProtocol json)
      (.renewer m s) :=
  conduct_neutral ⟨hfinished, hheld⟩ (fun _ => rfl) fun _ => closeDone_conduct hheld hfinished

theorem renewLoop_conduct (rounds : ℕ) (hheld : held = s.held) (hfinished : s.finished = false) :
    (renewLoop json m held rounds).Keeps (recordProtocol json) (.renewer m s) := by
  induction rounds generalizing s with
  | zero => trivial
  | succ rounds ih =>
    unfold renewLoop
    refine conduct_neutral ⟨hfinished, hheld⟩ (fun _ => rfl) fun stop => ?_
    cases stop
    · refine .does ⟨hfinished, hheld⟩ ?_
      rintro ⟨rec, version⟩
      refine .does ⟨hfinished, trivial⟩ fun now => ?_
      simp only
      split
      · exact closeDone_conduct hheld hfinished
      · next hcap =>
        split
        · exact markLost_closeDone_conduct hheld hfinished
        · next body hbody =>
          refine .perform ⟨hfinished, congrArg Held.key hheld, rec, now, rfl,
            rfl, ?_, hbody⟩ ?_
          · have hle : now + m.cfg.duration ≤ held.maxExpiry := Int.not_lt.mp hcap
            exact hheld ▸ hle
          rintro (e | tok) s' rfl
          · exact markLost_closeDone_conduct hheld hfinished
          refine .does ⟨hfinished, hheld, rec, version, body, rfl, rfl, hbody⟩ fun _ => ?_
          exact ih hheld hfinished
    · exact closeDone_conduct hheld hfinished

/-- After `stopRenewal` the process has waited for the renewal loop. -/
theorem stopRenewal_conduct {releasing : Bool} (hheld : held = s.held) :
    (stopRenewal held).Obeys (recordProtocol json)
      (fun p _ => p = .closer releasing { s with waited := true }) (.closer releasing s) := by
  have hwait : (ask (.awaitDone held) : LeaseM Unit).Obeys (recordProtocol json)
      (fun p _ => p = .closer releasing { s with waited := true }) (.closer releasing s) :=
    ⟨hheld, fun _ _ h => h⟩
  unfold stopRenewal
  refine conduct_neutral hheld (fun _ => rfl) fun stopped => ?_
  cases stopped
  · exact conduct_neutral hheld (fun _ => rfl) fun _ => hwait
  · exact hwait

/-- A release that returned has waited for the renewal loop, and wrote if it reports success. -/
def Resolved (p : Phase) (err : Option Err) : Prop :=
  ∃ s, p = .closer true s ∧ s.waited = true ∧ (err = none → s.won.isSome = true)

theorem release_conduct (hheld : held = s.held) :
    (release json (some held)).Obeys (recordProtocol json) Resolved (.closer true s) := by
  unfold release releaseHeld
  refine (stopRenewal_conduct hheld).bind ?_
  rintro _ _ rfl
  refine .does ⟨hheld, rfl, rfl⟩ ?_
  rintro ⟨rec, version⟩
  refine .does trivial fun now => ?_
  split
  · exact ⟨_, rfl, rfl, nofun⟩
  · next body hbody =>
    refine .does ⟨rfl, congrArg Held.key hheld, rec, now, rfl, rfl, hbody⟩ ?_
    rintro (e | tok)
    · cases e with
      | conflict | notFound =>
        exact conduct_neutral trivial (fun _ => rfl) fun _ => ⟨_, rfl, rfl, nofun⟩
      | alreadyExists | other => exact ⟨_, rfl, rfl, nofun⟩
    · exact conduct_neutral trivial (fun _ => rfl) fun _ => ⟨_, rfl, rfl, fun _ => rfl⟩

theorem abandon_conduct (hheld : held = s.held) :
    (abandon (some held)).Obeys (recordProtocol json)
      (fun p _ => p = .closer false { s with waited := true }) (.closer false s) :=
  stopRenewal_conduct hheld

end Keeping

end Walrusd.Lease
