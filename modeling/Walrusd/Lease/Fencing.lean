import Walrusd.Lease.Codec
import Walrusd.Lease.Phases

/-!
# Fencing and epochs

What a lease may still do to the store after it was taken over, released or abandoned, and how the
epochs of a key count its acquisitions. Both are read off the history of a reachable pool and of
the pools that it leads to.

## Main definitions

* `TakenOver`, `Quiet`.

## Main results

* `fencing` — a lease replaces only its own records, and nothing after a takeover, a release or an
  abandonment.
* `epoch_history` — the epochs of a key count its acquisitions.
-/

namespace Walrusd.Lease

open Program Function List Option

variable {S : Setup} {store : MemoryStore} {minted : List Token} {clock : ℕ → ℤ}
  {a b : Pool Timed Proc Op Resp Outcome}
variable {l : List Effect} {y : Effect} {c : Cell} {n : ℕ}

/-! ### Pools that follow each other -/

/-- What a run leaves of a pool. -/
structure Later (S : Setup) (a b : Pool Timed Proc Op Resp Outcome) : Prop where
  history : a.world.history <:+ b.world.history
  cells : ∀ n c, a.world.world.helds n = some c → ∃ c', b.world.world.helds n = some c' ∧
    c'.Same c ∧ (c.state.ended = true → c'.state.ended = true)

section

variable (hminted : ∀ t, store.Tokens t → t ∈ minted)
  (h : S.system.Reachable (.initial store minted clock) a)
include hminted h

theorem Setup.later_step (hs : S.system.Step a b) : Later S a b := by
  obtain ⟨hw, hknows⟩ := S.reachable_kept hminted h
  have hcells {i : Option Proc} (hg : a.world.Grows i b.world) (n : ℕ) (c : Cell)
      (hc : a.world.world.helds n = some c) : ∃ c', b.world.world.helds n = some c' ∧
        c'.Same c ∧ (c.state.ended = true → c'.state.ended = true) := by
    obtain ⟨c', hc', hsame, hended, -⟩ := hg.cells n c hc
    exact ⟨c', hc', hsame, hended⟩
  cases hs with
  | @start w procs i p w' hi hp =>
    obtain rfl := hp.2.eq_start
    exact ⟨suffix_refl _, hcells (hw.start i).2⟩
  | @call w procs i c k r w' hi hr =>
    obtain ⟨s, hs, hobeys⟩ := hknows i
    have hallow : s.Allows S.json c := (hobeys _ hi).1
    refine ⟨?_, hcells (hs.answer hw hallow hr).2.1⟩
    rcases (Timed.answer_cases hr).history with ⟨heq, -⟩ | ⟨y, heq, -⟩ <;> simp [heq]
  | env he =>
    rcases he with ⟨-, p, -, tok, hl⟩ | ⟨clock, htick, rfl⟩
    · refine ⟨?_, hcells (Timed.grows_lands hl)⟩
      obtain ⟨world', -, rfl⟩ := hl
      exact suffix_cons ..
    · exact ⟨suffix_refl _, hcells (hw.tick htick).2⟩

theorem Setup.later (hab : Relation.ReflTransGen S.system.Step a b) : Later S a b := by
  induction hab with
  | refl => exact ⟨suffix_refl _, fun n c hc => ⟨c, hc, .refl c, id⟩⟩
  | tail hab hs ih =>
    have hstep := S.later_step hminted (h.trans hab) hs
    refine ⟨ih.history.trans hstep.history, fun n c hc => ?_⟩
    obtain ⟨c', hc', hsame, hended⟩ := ih.cells n c hc
    obtain ⟨c'', hc'', hsame', hended'⟩ := hstep.cells n c' hc'
    exact ⟨c'', hc'', ⟨hsame'.held.trans hsame.held, hsame'.manager.trans hsame.manager,
      hsame'.maker.trans hsame.maker, hsame'.first.trans hsame.first⟩, hended' ∘ hended⟩

end

/-- From now on no effect in the store stems from the processes `P`, and none of their calls
changes it. -/
def Quiet (S : Setup) (P : Proc → Prop) (a : Pool Timed Proc Op Resp Outcome) : Prop :=
  ∀ b, Relation.ReflTransGen S.system.Step a b →
    (∀ y ∈ b.world.history, P y.proc → y ∈ a.world.history) ∧
      ∀ i c k r w', P i → b.procs i = some (.call c k) → b.world.answer S i c r w' →
        w'.world.store = b.world.world.store ∧ w'.history = b.world.history

/-- A call that changes the store adds an effect of its process. -/
theorem quiet_of_history (hminted : ∀ t, store.Tokens t → t ∈ minted)
    (h : S.system.Reachable (.initial store minted clock) a) {P : Proc → Prop}
    (hquiet : ∀ b, Relation.ReflTransGen S.system.Step a b →
      ∀ y ∈ b.world.history, P y.proc → y ∈ a.world.history) : Quiet S P a := by
  refine fun b hab => ⟨hquiet b hab, fun i c k r w' hi hproc hr => ?_⟩
  rcases (Timed.answer_cases hr).history with ⟨hhistory, hstore⟩ | ⟨y, hhistory, hy⟩
  · exact ⟨hstore, hhistory⟩
  · -- a new effect is not one of the old history
    exfalso
    let b' : Pool Timed Proc Op Resp Outcome := ⟨w', update b.procs i (some (k r))⟩
    have hstep : S.system.Step b b' := .call hproc hr
    have hab' := hab.tail hstep
    have hmem : y ∈ w'.history := by simp [hhistory]
    have hold := hquiet b' hab' y hmem (hy ▸ hi)
    have hchron := (S.reachable_kept hminted (h.trans hab')).1.chronicle
    have hsub := (S.later hminted h hab).history.subset hold
    have hnodup := hchron.nodup_tokens
    rw [hhistory, map_cons] at hnodup
    exact (nodup_cons.mp hnodup).1 (List.mem_map_of_mem hsub)

/-! ### Sessions that are over -/

/-- The lease was taken over: an acquisition of its key took effect after its own. -/
def TakenOver (c : Cell) (l : List Effect) : Prop :=
  ∃ x post pre, l = post ++ x :: pre ∧ x.key = c.held.key ∧ x.proc.isAcquire = true ∧
    ∃ y ∈ pre, y.token = c.first

theorem isAcquire_iff {p : Proc} : p.isAcquire = true ↔ ∃ n, p = .acquire n := by
  cases p <;> simp [Proc.isAcquire]

theorem Follows.session_of_acquire (h : Follows S store l y) (hy : y.proc.isAcquire = true) :
    y.session = y.token := by
  obtain ⟨n, hn⟩ := isAcquire_iff.mp hy
  cases h with
  | created proc session | taken proc session => exact session
  | renewed proc | released proc => cases hn.symm.trans proc

theorem TakenOver.closed (hl : Chronicle S store l) (h : TakenOver c l) :
    Chronicle.Closed c.held.key c.first l := by
  obtain ⟨x, post, pre, rfl, hkey, hacq, y, hy, htok⟩ := h
  have hx : Chronicle S store (x :: pre) := hl.suffix (suffix_append ..)
  cases hx with
  | cons hpre fresh hfollows =>
    have hclosed : Chronicle.Closed c.held.key y.token (x :: pre) := by
      refine ⟨x, latest_cons_of_eq hkey, fun heq => absurd ?_ (fresh y hy)⟩
      exact heq.symm.trans (hfollows.session_of_acquire hacq)
    rw [← htok]
    exact (hl.closed_append (mem_cons_of_mem _ hy) hclosed).2

theorem closed_of_release (hl : Chronicle S store l) (hy : y ∈ l) (hrel : y.proc.IsRelease)
    (hs : y.session = c.first) (hk : y.key = c.held.key) :
    Chronicle.Closed c.held.key c.first l := by
  obtain ⟨post, pre, rfl⟩ := append_of_mem hy
  have hx : Chronicle S store (y :: pre) := hl.suffix (suffix_append ..)
  obtain ⟨o, ho, htok, -⟩ := hx.origin mem_cons_self
  have hclosed : Chronicle.Closed c.held.key o.token (y :: pre) :=
    ⟨y, latest_cons_of_eq hk, fun _ => hrel⟩
  rw [← hs, ← htok]
  exact (hl.closed_append ho hclosed).2

section

variable (hminted : ∀ t, store.Tokens t → t ∈ minted)
  (h : S.system.Reachable (.initial store minted clock) a)
include hminted h

/-- The processes of a lease whose session is closed are quiet. -/
theorem quiet_of_closed (hc : a.world.world.helds n = some c)
    (hclosed : Chronicle.Closed c.held.key c.first a.world.history) :
    Quiet S (Proc.WorksFor n) a := by
  refine quiet_of_history hminted h fun b hab y hy hproc => ?_
  have hw := (S.reachable_kept hminted h).1
  have hw' := (S.reachable_kept hminted (h.trans hab)).1
  have hlater := S.later hminted h hab
  obtain ⟨c', hc', hsame, -⟩ := hlater.cells n c hc
  obtain ⟨c'', hc'', hs, hk⟩ := hw'.own y hy n hproc
  cases hc'.symm.trans hc''
  obtain ⟨post, hpost⟩ := hlater.history
  rw [← hpost] at hy
  rcases mem_append.mp hy with hy | hy
  · obtain ⟨o, ho, t₀, ts₀, htok, -⟩ := (hw.cells n c hc).acquired
    have hchron : Chronicle S store (post ++ a.world.history) := hpost ▸ hw'.chronicle
    rw [← htok] at hclosed
    refine absurd ?_ ((hchron.closed_append ho hclosed).1 y hy ?_)
    · rw [hs, hsame.first, htok]
    · rw [hk, hsame.held]
  · exact hy

theorem Setup.effect_of_released {k : ℕ}
    (hrel : a.procs (.release n k) = some (.done (.released none))) :
    ∃ y ∈ a.world.history, y.proc = .release n k := by
  obtain ⟨-, hknows⟩ := S.reachable_kept hminted h
  obtain ⟨p, hp, hobeys⟩ := hknows (.release n k)
  obtain ⟨s, rfl, -, hwon⟩ : Resolved p none := hobeys _ hrel
  obtain ⟨-, h', k', c, -, -, hs⟩ := hp
  exact hs.won (hwon rfl)

/-- A closing process that has returned has waited for the renewal loop. -/
theorem Setup.ended_of_closed {k : ℕ} {o : Outcome}
    (hproc : a.procs (.release n k) = some (.done o) ∨ a.procs (.abandon n k) = some (.done o)) :
    ∃ c, a.world.world.helds n = some c ∧ c.state.ended = true := by
  obtain ⟨-, hknows⟩ := S.reachable_kept hminted h
  rcases hproc with hproc | hproc
  · obtain ⟨p, hp, hobeys⟩ := hknows (.release n k)
    have hdone : Concludes (.release n k) p o := hobeys _ hproc
    cases o with
    | released err =>
      obtain ⟨s, rfl, hwaited, -⟩ := hdone
      obtain ⟨-, n', k', c, hi, hc, hs⟩ := hp
      obtain ⟨rfl, -⟩ := Proc.release.inj hi
      exact ⟨c, hc, hs.waited hwaited⟩
    | acquired | ended => exact hdone.elim
  · obtain ⟨p, hp, hobeys⟩ := hknows (.abandon n k)
    have hdone : Concludes (.abandon n k) p o := hobeys _ hproc
    cases o with
    | ended =>
      obtain ⟨s, rfl, hwaited⟩ := hdone
      obtain ⟨-, n', k', c, hi, hc, hs⟩ := hp
      obtain ⟨rfl, -⟩ := Proc.abandon.inj hi
      exact ⟨c, hc, hs.waited hwaited⟩
    | acquired | released => exact hdone.elim

/-- Once `done` is closed, the renewal loop issues no call. -/
theorem Setup.renewal_over (hc : a.world.world.helds n = some c) (hended : c.state.ended = true)
    {op : Op} {k : Resp op → LeaseM Outcome} : a.procs (.renew n) ≠ some (.call op k) := by
  intro hproc
  obtain ⟨-, hknows⟩ := S.reachable_kept hminted h
  obtain ⟨p, hp, hobeys⟩ := hknows (.renew n)
  have hallow : p.Allows S.json op := (hobeys _ hproc).1
  cases p with
  | idle => exact hallow
  | acquirer m s =>
    obtain ⟨-, n', hn, -⟩ := hp
    cases hn
  | renewer m s =>
    obtain ⟨-, n', c', hn, hc', hs⟩ := hp
    obtain rfl := Proc.renew.inj hn
    cases hc.symm.trans hc'
    exact absurd (hs.ended hended) (by simp [hallow.1])
  | closer releasing s =>
    obtain ⟨-, n', k', c', hn, -⟩ := hp
    cases releasing <;> cases hn

end

/-- Once `done` is closed, and if no write takes effect late, the renewal loop is quiet. -/
theorem quiet_of_ended (hminted : ∀ t, store.Tokens t → t ∈ minted) (hlate : ¬ S.late)
    (h : S.system.Reachable (.initial store minted clock) a) (hc : a.world.world.helds n = some c)
    (hended : c.state.ended = true) : Quiet S (fun i => i = .renew n) a := by
  refine quiet_of_history hminted h fun b hab => ?_
  induction hab with
  | refl => exact fun y hy _ => hy
  | @tail b b' hab hs ih =>
    intro y hy hproc
    refine ih y ?_ hproc
    obtain ⟨c', hc', -, hended'⟩ := (S.later hminted h hab).cells n c hc
    cases hs with
    | start hi hp =>
      obtain rfl := hp.2.eq_start
      exact hy
    | @call w procs i op k r w' hi hr =>
      rcases (Timed.answer_cases hr).history with ⟨hhistory, -⟩ | ⟨z, hhistory, hz⟩
      · exact hhistory ▸ hy
      rw [hhistory] at hy
      rcases mem_cons.mp hy with rfl | hy
      · obtain rfl : i = .renew n := hz.symm.trans hproc
        exact absurd hi (S.renewal_over hminted (h.trans hab) hc' (hended' hended))
      · exact hy
    | env he =>
      rcases he with ⟨hl, -⟩ | ⟨clock, -, rfl⟩
      · exact absurd hl hlate
      · exact hy

/-! ### Fencing -/

/-- A renewal or a release replaces a record of its own lease. -/
theorem Kept.replaces_own {w : Timed} (hw : Kept S w store) {pre : List Effect}
    (hy : y :: pre <:+ w.history) (hproc : y.proc.WorksFor n) (hc : w.world.helds n = some c) :
    ∃ e rec, stored store y.key pre = some e ∧ S.json.unmarshal e.body = .ok rec ∧
      rec.SameLease c.state.record := by
  obtain ⟨c', hc', hs, -⟩ := hw.own y (hy.subset mem_cons_self) n hproc
  cases hc.symm.trans hc'
  obtain ⟨v, hv, -, hvs, -, -, hvrec, -⟩ := (hw.cells n c hc).view
  have hold {x : Effect} {old : Record} (hlast : latest y.key pre = some x)
      (hsession : y.session = x.session) (hold : S.json.unmarshal x.body = .ok old) :
      ∃ e rec, stored store y.key pre = some e ∧ S.json.unmarshal e.body = .ok rec ∧
        rec.SameLease c.state.record := by
    refine ⟨_, old, stored_of_latest hlast, hold, ?_⟩
    have hx : x ∈ w.history := hy.subset (mem_cons_of_mem _ (mem_of_latest hlast))
    exact (hw.chronicle.same_session hx hv (by rw [← hsession, hs, hvs])).2 _ _ hold hvrec
  have hchron := hw.chronicle.suffix hy
  cases hchron with
  | cons hpre fresh hfollows =>
    cases hfollows with
    | created proc | taken proc =>
      rw [proc] at hproc
      exact hproc.elim
    | renewed proc last session replaced => exact hold last session replaced
    | released proc last session replaced => exact hold last session replaced

/-- **Fencing.** In every reachable pool: what a renewal or a release replaced was a record with the
lease ID and the epoch of its own lease; a lease that was taken over changes the store no more, each
of its conditional writes is answered by an error, and a release of it that had not written does not
succeed; a lease whose release returned no error changes the store no more; and after a release or
an abandonment has returned, its renewal loop changes the store no more, unless a write whose
outcome is unknown may take effect after its call was answered. -/
theorem fencing (hminted : ∀ t, store.Tokens t → t ∈ minted)
    (h : S.system.Reachable (.initial store minted clock) a) {n : ℕ} {c : Cell}
    (hc : a.world.world.helds n = some c) :
    (∀ y pre, y :: pre <:+ a.world.history → y.proc.WorksFor n →
      ∃ e rec, stored store y.key pre = some e ∧ S.json.unmarshal e.body = .ok rec ∧
        rec.leaseID = c.state.record.leaseID ∧ rec.epoch = c.state.record.epoch) ∧
    (TakenOver c a.world.history → Quiet S (Proc.WorksFor n) a ∧
      ∀ b, Relation.ReflTransGen S.system.Step a b →
        (∀ i key t body k r w', i.WorksFor n →
          b.procs i = some (.call (.replaceIfToken key t body) k) →
          b.world.answer S i (.replaceIfToken key t body) r w' → ∃ e, r = .error e) ∧
        ∀ k, (∀ y ∈ a.world.history, y.proc ≠ .release n k) →
          b.outcome (.release n k) ≠ some (.released none)) ∧
    (∀ k, a.outcome (.release n k) = some (.released none) → Quiet S (Proc.WorksFor n) a) ∧
    (¬ S.late → ∀ k, (a.outcome (.release n k)).isSome = true ∨
      (a.outcome (.abandon n k)).isSome = true → Quiet S (fun i => i = .renew n) a) := by
  have hw := (S.reachable_kept hminted h).1
  refine ⟨fun y pre hy hproc => ?_, fun htaken => ?_, fun k hrel => ?_, fun hlate k hclosed => ?_⟩
  · obtain ⟨e, rec, he, hrec, hsame⟩ := hw.replaces_own hy hproc hc
    exact ⟨e, rec, he, hrec, hsame.leaseID, hsame.epoch⟩
  · have hquiet := quiet_of_closed hminted h hc (htaken.closed hw.chronicle)
    refine ⟨hquiet, fun b hab => ⟨?_, fun k hnone hrel => ?_⟩⟩
    · intro i key t body k r w' hi hproc hr
      have hhistory := ((hquiet b hab).2 i _ k r w' hi hproc hr).2
      rcases hr with ⟨tok, ⟨world', -, rfl⟩, -⟩ | ⟨e, rfl, -⟩
      · simp at hhistory
      · exact ⟨e, rfl⟩
    · obtain ⟨y, hy, hproc⟩ :=
        S.effect_of_released hminted (h.trans hab) (Pool.procs_of_outcome hrel)
      exact hnone y ((hquiet b hab).1 y hy (by rw [hproc]; rfl)) hproc
  · obtain ⟨y, hy, hproc⟩ := S.effect_of_released hminted h (Pool.procs_of_outcome hrel)
    obtain ⟨c', hc', hs, hk⟩ := hw.own y hy n (by rw [hproc]; rfl)
    obtain rfl : c = c' := some.inj (hc.symm.trans hc')
    exact quiet_of_closed hminted h hc (closed_of_release hw.chronicle hy ⟨n, k, hproc⟩ hs hk)
  · obtain ⟨c', hc', hended⟩ : ∃ c, a.world.world.helds n = some c ∧ c.state.ended = true := by
      rcases hclosed with hclosed | hclosed
      · obtain ⟨o, ho⟩ := isSome_iff_exists.mp hclosed
        exact S.ended_of_closed hminted h (Or.inl (Pool.procs_of_outcome ho))
      · obtain ⟨o, ho⟩ := isSome_iff_exists.mp hclosed
        exact S.ended_of_closed hminted h (Or.inr (Pool.procs_of_outcome ho))
    exact quiet_of_ended hminted hlate h hc' hended

/-! ### A run with a takeover -/

namespace Takeover

/-- The configuration of both managers. -/
def manager : Manager := ⟨⟨3, 1, 0, 0, 0⟩, "a", none⟩

/-- Two managers whose clocks go at the same pace. -/
def setup : Setup where
  json := .plain
  manager _ := manager
  site n := n
  tick clock clock' := ∃ d, 0 ≤ d ∧ clock' = fun k => clock k + d
  late := False

/-- The clocks at first: that of the first manager is one behind. -/
def clocks (k : ℕ) : ℤ := if k = 0 then 0 else 1

/-- Time passes. -/
def tick (clock : ℕ → ℤ) (d : ℤ) : Option (ℕ → ℤ) :=
  if 0 ≤ d then some fun k => clock k + d else none

theorem tick_sound {clock clock' : ℕ → ℤ} {d : ℤ} (h : tick clock d = some clock') :
    setup.tick clock clock' := by
  unfold tick at h
  split at h
  · next hd => exact ⟨d, hd, (some.inj h).symm⟩
  · cases h

/-- Acquisition `n`; `checks` are the readings of the clock that a takeover needs on top of a
create. -/
def acquisition (n : ℕ) (leaseID : String) (tok : Token) (checks : List Choice) :
    List (Move Proc Start Choice ℤ) :=
  let answers : List Choice := [.fresh 0, .plain, .fresh 0, .plain] ++ checks ++
    [.plain, .text leaseID, .token tok, .fresh n, .plain, .plain]
  .start (.acquire n) (.acquire manager 0 ⟨"db"⟩ []) :: answers.map (.call (.acquire n))

/-- The first manager acquires the lease and crashes, the lease expires, and the second manager
takes it over. -/
def pool : Option (Pool Timed Proc Op Resp Outcome) :=
  (setup.interpreter tick tick_sound).exec (.initial ⟨fun _ => none⟩ [] clocks)
    (acquisition 0 "x" "t1" [] ++ [.env 5] ++ acquisition 1 "y" "t2" [.plain])

theorem monotone : setup.Monotone := by
  rintro clock _ ⟨d, hd, rfl⟩ k
  exact Int.le_add_of_nonneg_right hd

theorem tokens_minted : ∀ t, MemoryStore.Tokens ⟨fun _ => none⟩ t → t ∈ ([] : List Token) := by
  rintro t ⟨key, e, he, -⟩
  cases he

theorem pool_eq :
    (pool.map fun a => (a.world.history.map fun y => (y.key, y.proc, y.token),
      [0, 1].map fun n => (a.world.world.helds n).map fun c => (c.held.key, c.first))) =
    some ([("db/lease.json", .acquire 1, "t2"), ("db/lease.json", .acquire 0, "t1")],
      [some ("db/lease.json", "t1"), some ("db/lease.json", "t2")]) := by
  decide +kernel

/-- The lease of the crashed manager was taken over and is fenced off. -/
theorem first_lease_fenced :
    ∃ a c, setup.system.Reachable (.initial ⟨fun _ => none⟩ [] clocks) a ∧
      a.world.world.helds 0 = some c ∧ TakenOver c a.world.history ∧
        Quiet setup (Proc.WorksFor 0) a := by
  obtain ⟨a, ha, hpool⟩ := map_eq_some_iff.mp pool_eq
  obtain ⟨hhistory, hcells⟩ := Prod.mk.inj hpool
  have hreach := (setup.interpreter tick tick_sound).exec_reachable ha
  obtain ⟨c, hc, hcell⟩ := map_eq_some_iff.mp (cons.inj hcells).1
  obtain ⟨hkey, hfirst⟩ := Prod.mk.inj hcell
  obtain ⟨x, l, hl, hx, hl'⟩ := map_eq_cons_iff.mp hhistory
  obtain ⟨y, l', rfl, hy, -⟩ := map_eq_cons_iff.mp hl'
  simp only [Prod.mk.injEq] at hx hy
  have htaken : TakenOver c a.world.history := by
    refine ⟨x, [], y :: l', hl, hx.1.trans hkey.symm, by rw [hx.2.1]; rfl, y,
      mem_cons_self, hy.2.2.trans hfirst.symm⟩
  exact ⟨a, c, hreach, hc, htaken, ((fencing tokens_minted hreach hc).2.1 htaken).1⟩

end Takeover

/-! ### Epochs -/

/-- **Epoch history.** If a key is absent at first and fewer than `2 ^ 64` acquisitions of it have
taken effect, the stored epoch is their number; each of them stored the epoch that follows the
number of those before it; and every other write of the key kept the database, the owner, the lease
ID and the epoch of the record that it replaced. -/
theorem epoch_history (hminted : ∀ t, store.Tokens t → t ∈ minted)
    (h : S.system.Reachable (.initial store minted clock) a) {key : String}
    (habsent : store.objects key = none) (hcount : acquisitions key a.world.history < 2 ^ 64) :
    (a.world.world.store.objects key = none → acquisitions key a.world.history = 0) ∧
    (∀ e, a.world.world.store.objects key = some e → ∃ rec, S.json.unmarshal e.body = .ok rec ∧
      rec.epoch = acquisitions key a.world.history) ∧
    ∀ y pre, y :: pre <:+ a.world.history → y.key = key →
      (y.proc.isAcquire = true → ∃ rec, S.json.unmarshal y.body = .ok rec ∧
        rec.epoch = acquisitions key pre + 1) ∧
      (y.proc.isAcquire = false → ∃ e old rec, stored store key pre = some e ∧
        S.json.unmarshal e.body = .ok old ∧ S.json.unmarshal y.body = .ok rec ∧
          rec.SameLease old) := by
  have hw := (S.reachable_kept hminted h).1
  have hepoch := hw.chronicle.epoch_eq habsent hcount
  refine ⟨fun hnone => ?_, fun e he => ?_, fun y pre hy hkey => ⟨fun hacq => ?_, fun hacq => ?_⟩⟩
  · rw [hw.store, stored] at hnone
    split at hnone
    · cases hnone
    · next hlast =>
      rw [hlast] at hepoch
      exact hepoch
  · rw [hw.store, stored] at he
    split at he
    · next x hlast =>
      cases he
      rw [hlast] at hepoch
      exact hepoch
    · cases habsent.symm.trans he
  · have hle : acquisitions key (y :: pre) ≤ acquisitions key a.world.history :=
      hy.sublist.countP_le
    have hsuffix := (hw.chronicle.suffix hy).epoch_eq habsent (hle.trans_lt hcount)
    rw [latest_cons_of_eq hkey, Chronicle.acquisitions_cons, if_pos ⟨hkey, hacq⟩] at hsuffix
    exact hsuffix
  · cases hw.chronicle.suffix hy with
    | cons hpre fresh hfollows =>
      subst hkey
      cases hfollows with
      | created proc | taken proc =>
        rw [proc] at hacq
        cases hacq
      | renewed proc last session replaced held times origin cap order body =>
        exact ⟨_, _, _, stored_of_latest last, replaced, body, ⟨rfl, rfl, rfl, rfl⟩⟩
      | released proc last session replaced held body =>
        exact ⟨_, _, _, stored_of_latest last, replaced, body, ⟨rfl, rfl, rfl, rfl⟩⟩

/-- After the takeover the stored record has the second epoch. -/
theorem Takeover.second_epoch :
    ∃ a e, Takeover.setup.system.Reachable (.initial ⟨fun _ => none⟩ [] Takeover.clocks) a ∧
      a.world.world.store.objects "db/lease.json" = some e ∧
        ∃ rec, Takeover.setup.json.unmarshal e.body = .ok rec ∧ rec.epoch = 2 := by
  have hpool : (Takeover.pool.map fun a => (acquisitions "db/lease.json" a.world.history,
      (a.world.world.store.objects "db/lease.json").isSome)) = some (2, true) := by
    decide +kernel
  obtain ⟨a, ha, hpool⟩ := map_eq_some_iff.mp hpool
  obtain ⟨hcount, hsome⟩ := Prod.mk.inj hpool
  have hreach := (Takeover.setup.interpreter Takeover.tick Takeover.tick_sound).exec_reachable ha
  obtain ⟨e, he⟩ := isSome_iff_exists.mp hsome
  have hlt : acquisitions "db/lease.json" a.world.history < 2 ^ 64 := by
    rw [hcount]
    decide
  refine ⟨a, e, hreach, he, ?_⟩
  rw [← hcount]
  exact (epoch_history Takeover.tokens_minted hreach rfl hlt).2.1 e he

end Walrusd.Lease
