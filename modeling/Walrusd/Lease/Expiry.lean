import Mathlib.Data.Fintype.EquivFin
import Walrusd.Lease.Fencing

/-!
# Clocks and expiry

With clocks that never go back, the expiry of a held record never decreases and stays below a cap,
an expired record can be taken over by an acquisition that runs alone, and, if the clocks differ by
no more than twice the skew allowance, at most one lease of a key passes the guard of the runtime.

## Main definitions

* `Stores`, `Setup.alone`, `Guarded`.

## Main results

* `bounded_hold` — the expiry of a hold, and the takeover after a crash.
* `guard_exclusive` — exclusion by clocks.
-/

namespace Walrusd.Lease

open Program Function List Option

variable {S : Setup} {store : MemoryStore} {minted : List Token} {clock : ℕ → ℤ}
  {a b : Pool Timed Proc Op Resp Outcome}

/-- The record `rec` is stored under `key`. -/
def Stores (S : Setup) (w : Timed) (key : String) (rec : Record) : Prop :=
  ∃ e, w.world.store.objects key = some e ∧ S.json.unmarshal e.body = .ok rec

/-- A held record with the lease ID `id` is stored under `key`. -/
def HeldUnder (S : Setup) (key id : String) (w : Timed) : Prop :=
  ∃ rec, Stores S w key rec ∧ rec.state = .held ∧ rec.leaseID = id

theorem Stores.unique {w : Timed} {key : String} {rec rec' : Record} (h : Stores S w key rec)
    (h' : Stores S w key rec') : rec = rec' := by
  obtain ⟨e, he, hrec⟩ := h
  obtain ⟨e', he', hrec'⟩ := h'
  cases he.symm.trans he'
  exact Except.ok.inj (hrec.symm.trans hrec')

/-! ### The expiry of a hold -/

/-- Every acquisition of the history has a lease ID that differs from that of the record it has
replaced. -/
def FreshIDs (S : Setup) (store : MemoryStore) (l : List Effect) : Prop :=
  ∀ pre y, y :: pre <:+ l → ∀ e old rec, stored store y.key pre = some e →
    S.json.unmarshal e.body = .ok old → S.json.unmarshal y.body = .ok rec →
    y.proc.isAcquire = true → old.leaseID ≠ rec.leaseID

theorem Follows.expiry_mono {l : List Effect} {y : Effect} (h : Follows S store l y)
    (hmono : S.Monotone) (hduration : ∀ n, 0 ≤ S.duration n)
    (hfresh : (∀ n, 0 ≤ S.skew n) ∨ FreshIDs S store (y :: l)) {e : MemEntry} {old rec : Record}
    (he : stored store y.key l = some e) (hold : S.json.unmarshal e.body = .ok old)
    (hrec : S.json.unmarshal y.body = .ok rec) (hheld : old.state = .held)
    (hheld' : rec.state = .held) (hid : old.leaseID = rec.leaseID) :
    old.expiresAt ≤ rec.expiresAt := by
  have hreplaced {x : Effect} {old' : Record} (hlast : latest y.key l = some x)
      (hold' : S.json.unmarshal x.body = .ok old') : old' = old := by
    rw [stored_of_latest hlast] at he
    cases he
    exact Except.ok.inj (hold'.symm.trans hold)
  cases h with
  | created proc session absent => cases absent.symm.trans he
  | @taken n db e' old' t₁ t₂ ts id proc session found replaced database times expired order body =>
    cases he.symm.trans found
    cases hold.symm.trans replaced
    have hexpired := expired hheld
    have horder := order hmono
    have hd := hduration n
    have hs : 0 ≤ S.skew n := hfresh.elim (· n) fun hfresh =>
      absurd hid (hfresh l y (suffix_refl _) e old rec he hold hrec (by rw [proc]; rfl))
    have hexp : rec.expiresAt = t₂ + S.duration n := by
      rw [Except.ok.inj (hrec.symm.trans body)]
      rfl
    omega
  | renewed proc last session replaced held times origin cap order body =>
    obtain rfl := hreplaced last replaced
    rw [Except.ok.inj (hrec.symm.trans body)]
    exact order hmono
  | released proc last session replaced held body =>
    rw [Except.ok.inj (hrec.symm.trans body)] at hheld'
    cases hheld'

section

variable (hminted : ∀ t, store.Tokens t → t ∈ minted)
  (h : S.system.Reachable (.initial store minted clock) a)
include hminted h

omit hminted h in
/-- One step adds at most one effect to the history. -/
theorem Setup.history_step (hs : S.system.Step a b) :
    b.world.history = a.world.history ∨ ∃ y, b.world.history = y :: a.world.history := by
  cases hs with
  | start hi hp =>
    obtain rfl := hp.2.eq_start
    exact .inl rfl
  | call hi hr =>
    rcases (Timed.answer_cases hr).history with ⟨hhistory, -⟩ | ⟨y, hhistory, -⟩
    · exact .inl hhistory
    · exact .inr ⟨y, hhistory⟩
  | env he =>
    rcases he with ⟨-, p, -, tok, world', -, rfl⟩ | ⟨clock, -, rfl⟩
    · exact .inr ⟨_, rfl⟩
    · exact .inl rfl

/-- One step: while a record stays held under one lease ID, its expiry does not decrease. -/
theorem Setup.expiry_step (hs : S.system.Step a b) (hmono : S.Monotone)
    (hduration : ∀ n, 0 ≤ S.duration n)
    (hfresh : (∀ n, 0 ≤ S.skew n) ∨ FreshIDs S store b.world.history) {key : String}
    {rec rec' : Record} (hrec : Stores S a.world key rec) (hrec' : Stores S b.world key rec')
    (hheld : rec.state = .held) (hheld' : rec'.state = .held) (hid : rec.leaseID = rec'.leaseID) :
    rec.expiresAt ≤ rec'.expiresAt := by
  have hw := (S.reachable_kept hminted h).1
  have hw' := (S.reachable_kept hminted (h.step hs)).1
  rcases S.history_step hs with hhistory | ⟨y, hhistory⟩
  · obtain ⟨e, he, hbody⟩ := hrec
    rw [hw.store, ← hhistory, ← hw'.store] at he
    rw [Stores.unique ⟨e, he, hbody⟩ hrec']
  obtain ⟨e, he, hbody⟩ := hrec
  obtain ⟨e', he', hbody'⟩ := hrec'
  rw [hw.store] at he
  rw [hw'.store, hhistory] at he'
  by_cases hk : y.key = key
  · subst hk
    rw [stored_of_latest (latest_cons_of_eq rfl)] at he'
    cases he'
    have hchron := hw'.chronicle
    rw [hhistory] at hchron hfresh
    cases hchron with
    | cons _ _ hfollows =>
      exact hfollows.expiry_mono hmono hduration hfresh he hbody hbody' hheld hheld' hid
  · rw [stored, latest_cons_of_ne hk, ← stored, he] at he'
    cases he'
    rw [Except.ok.inj (hbody.symm.trans hbody')]

/-- A run: while the stored record stays held under one lease ID, its expiry does not decrease. -/
theorem Setup.expiry_run (hmono : S.Monotone) (hduration : ∀ n, 0 ≤ S.duration n) {key id : String}
    (hfresh : (∀ n, 0 ≤ S.skew n) ∨ FreshIDs S store b.world.history)
    (hab : Relation.ReflTransGen (fun p q => S.system.Step p q ∧ HeldUnder S key id p.world ∧
      HeldUnder S key id q.world) a b) {rec rec' : Record} (hrec : Stores S a.world key rec)
    (hrec' : Stores S b.world key rec') : rec.expiresAt ≤ rec'.expiresAt := by
  induction hab generalizing rec' with
  | refl => rw [hrec.unique hrec']
  | @tail p q hap hpq ih =>
    obtain ⟨hs, ⟨recp, hp, hheldp, hidp⟩, ⟨recq, hq, hheldq, hidq⟩⟩ := hpq
    obtain rfl := hrec'.unique hq
    have hsuffix : p.world.history <:+ q.world.history := by
      rcases S.history_step hs with hhistory | ⟨y, hhistory⟩
      · rw [hhistory]
      · exact hhistory ▸ suffix_cons _ _
    have hbefore : (∀ n, 0 ≤ S.skew n) ∨ FreshIDs S store p.world.history :=
      hfresh.imp_right fun hfresh pre y hpre => hfresh pre y (hpre.trans hsuffix)
    have hpath : Relation.ReflTransGen S.system.Step a p :=
      Relation.ReflTransGen.mono (fun _ _ hstep => hstep.1) _ _ hap
    have hreach := h.trans hpath
    exact Int.le_trans (ih hbefore hp) (S.expiry_step hminted hreach hs hmono hduration hfresh hp hq
      hheldp hheldq (hidp.trans hidq.symm))

/-- The cap: a held record expires no later than three durations after the reading of its holder's
clock with which it was acquired. -/
theorem Setup.expiry_cap (hduration : ∀ n, 0 ≤ S.duration n) {key : String}
    (habsent : store.objects key = none) {rec : Record} (hrec : Stores S a.world key rec)
    (hheld : rec.state = .held) :
    ∃ y ∈ a.world.history, ∃ n t₀ ts₀ rec₀, y.proc = .acquire n ∧ y.key = key ∧
      S.json.unmarshal y.body = .ok rec₀ ∧ rec₀.leaseID = rec.leaseID ∧ y.times = t₀ :: ts₀ ∧
        rec.expiresAt ≤ t₀ + 3 * S.duration n := by
  have hw := (S.reachable_kept hminted h).1
  obtain ⟨e, he, hbody⟩ := hrec
  rw [hw.store] at he
  cases hlast : latest key a.world.history with
  | none =>
    rw [stored_of_latest_eq_none hlast, habsent] at he
    cases he
  | some x =>
    rw [stored_of_latest hlast] at he
    cases he
    have hx := mem_of_latest hlast
    obtain ⟨y, hy, n, t₀, ts₀, htok, hproc, htimes, hle⟩ :=
      hw.chronicle.capped hduration hx hbody hheld
    obtain ⟨o, ho, hotok, -, hokey, -, horec⟩ := hw.chronicle.origin hx
    obtain rfl : o = y := hw.chronicle.eq_of_token_eq ho hy (hotok.trans htok.symm)
    obtain ⟨rec₀, hrec₀, hsame⟩ := horec rec hbody
    exact ⟨o, hy, n, t₀, ts₀, rec₀, hproc, hokey.trans (key_of_latest hlast), hrec₀,
      hsame.leaseID.symm, htimes, hle⟩

end

/-! ### Takeover after a crash -/

/-- The answers that acquisition `n` gets when it runs alone against a store that works: time may
pass before an answer, and a conditional write whose condition holds succeeds. -/
def Setup.Serves (S : Setup) (n : ℕ) (w : Timed) (c : Op) (r : Resp c) (w' : Timed) : Prop :=
  ∃ clock', (clock' = w.clock ∨ S.tick w.clock clock') ∧
    Timed.answer S { w with clock := clock' } (.acquire n) c r w' ∧
    match c, r with
    | .get key, r => r = w.world.store.get key
    | .createIfAbsent key _, r => w.world.store.objects key = none → ∃ tok, r = .ok tok
    | .replaceIfToken key t _, r =>
        (∃ e, w.world.store.objects key = some e ∧ e.token = t) → ∃ tok, r = .ok tok
    | _, _ => True

/-- The protocol of a run alone: every call has an answer. -/
def Setup.alone (S : Setup) (n : ℕ) : Protocol Op Resp Timed where
  allow w c := ∃ r w', S.Serves n w c r w'
  next := S.Serves n

theorem World.exists_lands {w : World} {q : Request} {e : MemEntry}
    (he : w.store.objects q.key = some e) (hq : q.expected = some e.token) :
    ∃ tok world', w.Lands q tok world' := by
  obtain ⟨tok, htok⟩ := Infinite.exists_notMem_finset w.minted.toFinset
  refine ⟨tok, _, fun hmem => htok (List.mem_toFinset.mpr hmem),
    ⟨update w.store.objects q.key (some ⟨q.body, tok⟩)⟩, ?_, rfl⟩
  simp [World.apply, hq, MemoryStore.replaceIfToken, he]

theorem Kept.exists_free {w : Timed} (hw : Kept S w store) : ∃ n, w.world.helds n = none := by
  by_contra hfull
  have hcell (n : ℕ) : ∃ c, w.world.helds n = some c :=
    ne_none_iff_exists'.mp fun hnone => hfull ⟨n, hnone⟩
  choose c hc using hcell
  -- the makers of the leases are distinct, and only finitely many processes have begun
  let f (n : ℕ) : { p // p ∈ w.begun.toFinset } :=
    ⟨(c n).maker, List.mem_toFinset.mpr (hw.cells n (c n) (hc n)).started⟩
  refine not_injective_infinite_finite f fun n n' heq => ?_
  exact hw.makers n (c n) n' (c n') (hc n) (hc n') (congrArg Subtype.val heq)

/-- The record with which acquisition `n` takes `rec` over can be marshalled, whatever its lease ID
and the time that the clock shows from now on. -/
def Setup.Marshals (S : Setup) (n : ℕ) (db : DatabaseID) (clock : ℕ → ℤ) (rec : Record) : Prop :=
  ∀ clock' id, Relation.ReflTransGen S.tick clock clock' → ∃ body, S.json.marshal
    (issued (S.manager (S.site n)) db (clock' (S.site n)) id ((rec.epoch + 1) % 2 ^ 64)) = .ok body

section Alone

variable {n : ℕ} {key : String} {e : MemEntry} {rec : Record} {db : DatabaseID} {w : Timed}

/-- What holds before each call of the takeover: the record is still stored, it has expired on the
clock of the acquisition, and there is room for a lease. -/
structure Setup.Ready (S : Setup) (n : ℕ) (clock : ℕ → ℤ) (key : String) (e : MemEntry)
    (rec : Record) (w : Timed) : Prop where
  later : Relation.ReflTransGen S.tick clock w.clock
  stored : w.world.store.objects key = some e
  expired : rec.expiresAt + S.skew n < w.clock (S.site n)
  free : ∃ id, w.world.helds id = none

/-- The acquisition has taken the record over. -/
def Setup.TookOver (S : Setup) (key : String) (rec : Record) (w : Timed) (res : Except Err Held) :
    Prop :=
  ∃ held rec', res = .ok held ∧ Stores S w key rec' ∧ rec'.state = .held ∧
    rec'.epoch = (rec.epoch + 1) % 2 ^ 64

theorem Setup.Ready.tick (h : S.Ready n clock key e rec w) (hmono : S.Monotone) {clock' : ℕ → ℤ}
    (hclock : clock' = w.clock ∨ S.tick w.clock clock') :
    S.Ready n clock key e rec { w with clock := clock' } := by
  rcases hclock with rfl | htick
  · exact h
  · exact ⟨h.later.tail htick, h.stored, Int.lt_of_lt_of_le h.expired (hmono _ _ htick _), h.free⟩

variable (h : S.Ready n clock key e rec w) (hmono : S.Monotone)
include h hmono

theorem replace_alone {m : Manager} {next : Record} {body : Bytes}
    (hbody : S.json.marshal next = .ok body) (hheld : next.state = .held)
    (hepoch : next.epoch = (rec.epoch + 1) % 2 ^ 64) :
    (replace S.json m key e.token next).Obeys (S.alone n) (S.TookOver key rec) w := by
  unfold replace
  rw [hbody]
  refine .perform ?_ ?_
  · obtain ⟨tok, world', hl⟩ : ∃ tok world', w.world.Lands
        ⟨.acquire n, none, key, some e.token, body⟩ tok world' := World.exists_lands h.stored rfl
    exact ⟨.ok tok, _, w.clock, .inl rfl, .inl ⟨tok, ⟨world', hl, rfl⟩, .inl rfl⟩,
      fun _ => ⟨tok, rfl⟩⟩
  · rintro r w' ⟨clock', hclock, hr, hok⟩
    obtain ⟨tok, rfl⟩ := hok ⟨e, h.stored, rfl⟩
    have hready := h.tick hmono hclock
    obtain ⟨tok', ⟨world', hl, rfl⟩, hr⟩ | ⟨e', he', -⟩ := hr
    · have hstore := hl.store_eq
      have hhelds := hl.helds_eq
      obtain ⟨id, hid⟩ := hready.free
      refine .perform ?_ ?_
      · refine ⟨⟨id, key, next.expiresAt + 2 * m.cfg.duration⟩, _, clock', .inl rfl, ⟨_, ⟨?_, rfl,
          rfl, rfl⟩, rfl⟩, trivial⟩
        exact hhelds ▸ hid
      rintro held w'' ⟨clock'', -, ⟨world'', ⟨-, -, -, rfl⟩, rfl⟩, -⟩
      refine ⟨held, next, rfl, ⟨⟨body, tok'⟩, ?_, S.json.unmarshal_marshal hbody⟩, hheld, hepoch⟩
      simp only [hstore, update_self]
    · cases he'

/-- **Takeover.** An acquisition that runs alone, on a clock past the expiry of the stored record
and the skew allowance, gets an answer to every call and takes the record over with the next
epoch. -/
theorem acquireOnce_alone (hrec : S.json.unmarshal e.body = .ok rec)
    (hdb : rec.databaseID = db.string) (hmarshal : S.Marshals n db clock rec) :
    (acquireOnce S.json (S.manager (S.site n)) db key).Obeys (S.alone n) (S.TookOver key rec)
      w := by
  have hget {w : Timed} (h : S.Ready n clock key e rec w) :
      w.world.store.get key = .ok (e.body, e.token) := by
    simp [MemoryStore.get, h.stored]
  -- a reading of the clock changes nothing that matters
  have hnow {α : Type} {f : ℤ → LeaseM α} {Q : Timed → α → Prop} {w : Timed}
      (h : S.Ready n clock key e rec w)
      (hf : ∀ t w', S.Ready n clock key e rec w' → t = w'.clock (S.site n) →
        (f t).Obeys (S.alone n) Q w') :   ((ask .now : LeaseM ℤ) >>= f).Obeys (S.alone n) Q w := by
    refine .perform ⟨_, _, w.clock, .inl rfl, ⟨⟨_, rfl, rfl⟩, rfl⟩,
      trivial⟩ ?_
    rintro t w' ⟨clock', hclock, ⟨⟨k, hk, rfl⟩, rfl⟩, -⟩
    have hready := h.tick hmono hclock
    cases hk
    exact hf _ _ ⟨hready.later, hready.stored, hready.expired, hready.free⟩ rfl
  unfold acquireOnce
  refine .perform ⟨_, _, w.clock, .inl rfl, ⟨_, ⟨.inl rfl, rfl⟩, rfl⟩,
    rfl⟩ ?_
  rintro r w' ⟨clock', hclock, ⟨world', ⟨-, rfl⟩, rfl⟩, hr⟩
  have hready := h.tick hmono hclock
  simp only at hr
  rw [hget h] at hr
  subst hr
  simp only [hrec]
  rw [if_neg (by simp [hdb])]
  refine hnow hready fun t₁ w₁ hw₁ ht₁ => ?_
  have hexpired : ¬ (rec.state = .held ∧
      ¬ rec.expiresAt < t₁ - (S.manager (S.site n)).cfg.clockSkewAllowance) := by
    rintro ⟨-, hlt⟩
    refine hlt ?_
    have hpast : rec.expiresAt + (S.manager (S.site n)).cfg.clockSkewAllowance < t₁ :=
      ht₁ ▸ hw₁.expired
    omega
  rw [if_neg hexpired]
  unfold newRecord
  simp only [Prog.bind_assoc]
  refine hnow hw₁ fun t₂ w₂ hw₂ ht₂ => ?_
  refine .perform ⟨"", _, w₂.clock, .inl rfl, ⟨_, rfl, rfl⟩, trivial⟩ ?_
  rintro id w₃ ⟨clock₃, hclock₃, ⟨world₃, rfl, rfl⟩, -⟩
  obtain ⟨body, hbody⟩ := hmarshal w₂.clock id hw₂.later
  rw [← ht₂] at hbody
  exact replace_alone (hw₂.tick hmono hclock₃) hmono hbody rfl rfl

end Alone

/-- **Bounded hold and crash takeover.** With clocks that never go back: while the stored record
stays held under one lease ID, its expiry never decreases, if acquisitions have new lease IDs or no
skew allowance is negative; a held record expires at most three durations after the reading of its
holder's clock with which it was acquired, if the key was absent at first; and from every reachable
state, one round of acquisition that runs alone, on a clock past the expiry of the stored record and
the skew allowance, succeeds with the next epoch, if it can marshal the record that it writes. -/
theorem bounded_hold (hminted : ∀ t, store.Tokens t → t ∈ minted) (hmono : S.Monotone)
    (hduration : ∀ n, 0 ≤ S.duration n)
    (h : S.system.Reachable (.initial store minted clock) a) {key : String} {rec : Record}
    (hrec : Stores S a.world key rec) (hheld : rec.state = .held) :
    (∀ id b, Relation.ReflTransGen (fun p q => S.system.Step p q ∧ HeldUnder S key id p.world ∧
      HeldUnder S key id q.world) a b → (∀ n, 0 ≤ S.skew n) ∨ FreshIDs S store b.world.history →
        ∀ rec', Stores S b.world key rec' → rec.expiresAt ≤ rec'.expiresAt) ∧
    (store.objects key = none → ∃ y ∈ a.world.history, ∃ n t₀ ts₀ rec₀, y.proc = .acquire n ∧
      y.key = key ∧ S.json.unmarshal y.body = .ok rec₀ ∧ rec₀.leaseID = rec.leaseID ∧
        y.times = t₀ :: ts₀ ∧ rec.expiresAt ≤ t₀ + 3 * S.duration n) ∧
    ∀ n db, rec.databaseID = db.string → rec.expiresAt + S.skew n < a.world.clock (S.site n) →
      S.Marshals n db a.world.clock rec →
      (acquireOnce S.json (S.manager (S.site n)) db key).Obeys (S.alone n)
        (fun w res => ∃ held rec', res = .ok held ∧ Stores S w key rec' ∧ rec'.state = .held ∧
          rec'.epoch = (rec.epoch + 1) % 2 ^ 64) a.world := by
  refine ⟨fun id b hab hfresh rec' hrec' => ?_, fun habsent => ?_,
    fun n db hdb hclock hmarshal => ?_⟩
  · exact S.expiry_run hminted h hmono hduration hfresh hab hrec hrec'
  · exact S.expiry_cap hminted h hduration habsent hrec hheld
  obtain ⟨e, he, hbody⟩ := hrec
  have hfree := (S.reachable_kept hminted h).1.exists_free
  exact acquireOnce_alone ⟨.refl, he, hclock, hfree⟩ hmono hbody hdb hmarshal

/-- After the takeover the expiry of the record is below its cap. -/
theorem Takeover.second_hold :
    ∃ a rec, Takeover.setup.system.Reachable (.initial ⟨fun _ => none⟩ [] Takeover.clocks) a ∧
      Stores Takeover.setup a.world "db/lease.json" rec ∧ rec.state = .held ∧
        ∃ y ∈ a.world.history, ∃ n t₀ ts₀ rec₀, y.proc = .acquire n ∧ y.key = "db/lease.json" ∧
          Takeover.setup.json.unmarshal y.body = .ok rec₀ ∧ rec₀.leaseID = rec.leaseID ∧
            y.times = t₀ :: ts₀ ∧ rec.expiresAt ≤ t₀ + 3 * Takeover.setup.duration n := by
  have hpool : (Takeover.pool.bind fun a =>
      (a.world.world.store.objects "db/lease.json").map fun e =>
        (Takeover.setup.json.unmarshal e.body).toOption.map Record.state) =
      some (some .held) := by
    decide +kernel
  obtain ⟨a, ha, hstored⟩ := bind_eq_some_iff.mp hpool
  obtain ⟨e, he, hstate⟩ := map_eq_some_iff.mp hstored
  obtain ⟨rec, hrec, hheld⟩ := map_eq_some_iff.mp hstate
  have hreach := (Takeover.setup.interpreter Takeover.tick Takeover.tick_sound).exec_reachable ha
  have hstores : Stores Takeover.setup a.world "db/lease.json" rec := by
    refine ⟨e, he, ?_⟩
    cases hbody : Takeover.setup.json.unmarshal e.body with
    | error err =>
      rw [hbody] at hrec
      cases hrec
    | ok rec' =>
      rw [hbody] at hrec
      rw [some.inj hrec]
  refine ⟨a, rec, hreach, hstores, hheld, ?_⟩
  have hduration (n : ℕ) : Takeover.setup.duration n = 3 := rfl
  exact (bounded_hold Takeover.tokens_minted Takeover.monotone (fun n => by simp [hduration])
    hreach hstores hheld).2.1 rfl

/-! ### Exclusion by clocks -/

/-- A lease for which neither `Release` nor `Abandon` has been called passes the guard of the
runtime: it is not lost, and it is not stale on the clock of its manager. -/
def Guarded (S : Setup) (a : Pool Timed Proc Op Resp Outcome) (n : ℕ) (c : Cell) : Prop :=
  a.world.world.helds n = some c ∧ c.state.lost = false ∧
    (∃ k, a.world.site S (.renew n) = some k ∧
      a.world.clock k < c.state.record.expiresAt - c.manager.cfg.clockSkewAllowance) ∧
    ∀ j, a.procs (.release n j) = none ∧ a.procs (.abandon n j) = none

/-- All clocks are within `d` of each other. -/
def Within (d : ℤ) (clock : ℕ → ℤ) : Prop := ∀ i j, clock i - clock j ≤ d

theorem Setup.reachable_within {d : ℤ} (hclock : Within d clock)
    (htick : ∀ c c', Within d c → S.tick c c' → Within d c')
    (h : S.system.Reachable (.initial store minted clock) a) : Within d a.world.clock := by
  refine System.Reachable.world (I := fun w : Timed => Within d w.clock) hclock ?_ ?_ ?_ h
  · rintro w i p w' hw ⟨-, hp⟩
    obtain rfl := hp.eq_start
    exact hw
  · intro w i c r w' hw hr
    rw [(Timed.answer_cases hr).clock]
    exact hw
  rintro w w' hw (⟨-, p, -, tok, world', -, rfl⟩ | ⟨clock', ht, rfl⟩)
  · exact hw
  · exact htick _ _ hw ht

theorem Kept.eq_of_first_eq {w : Timed} (hw : Kept S w store) {n n' : ℕ} {c c' : Cell}
    (hc : w.world.helds n = some c) (hc' : w.world.helds n' = some c')
    (hfirst : c.first = c'.first) : n = n' := by
  obtain ⟨o, ho, -, -, htok, -, hproc, -⟩ := (hw.cells n c hc).acquired
  obtain ⟨o', ho', -, -, htok', -, hproc', -⟩ := (hw.cells n' c' hc').acquired
  obtain rfl : o = o' := hw.chronicle.eq_of_token_eq ho ho' (by rw [htok, htok', hfirst])
  exact hw.makers n c n' c' hc hc' (hproc.symm.trans hproc')

/-- A lease whose session is no longer that of the stored record does not pass the guard. -/
theorem not_guarded (hminted : ∀ t, store.Tokens t → t ∈ minted) (hmono : S.Monotone) {s : ℤ}
    (hskew : ∀ k, (S.manager k).cfg.clockSkewAllowance = s)
    (h : S.system.Reachable (.initial store minted clock) a)
    (hwithin : Within (2 * s) a.world.clock) {n : ℕ} {c : Cell} {x : Effect}
    (hx : latest c.held.key a.world.history = some x) (hne : x.session ≠ c.first) :
    ¬ Guarded S a n c := by
  rintro ⟨hc, -, ⟨k, hk, hguard⟩, hclosing⟩
  have hw := (S.reachable_kept hminted h).1
  have hb := hw.cells n c hc
  obtain ⟨m, hmaker, hmanager⟩ := hb.maker
  obtain ⟨o, ho, t₀, ts₀, htok, hkey, hproc, -⟩ := hb.acquired
  have hsession : o.session = c.first := by
    obtain ⟨pre, -, hfollows⟩ := hw.chronicle.follows ho
    rw [← htok]
    exact hfollows.session_of_acquire (isAcquire_iff.mpr ⟨m, hproc.trans hmaker⟩)
  rw [← hsession] at hne
  rw [← hkey] at hx
  obtain ⟨v, hv, -, hvs, -, -, hvrec, hvheld⟩ := hb.view
  rcases hw.chronicle.overtaken hmono ho hx hne with ⟨r, hr, hrs, n', j, hrproc⟩ |
    ⟨z, hz, i, hzproc, t, ht, hexpired⟩
  · obtain ⟨c', hc', hs', -⟩ := hw.own r hr n' (by rw [hrproc]; rfl)
    obtain rfl : n' = n := hw.eq_of_first_eq hc' hc (by rw [← hs', hrs, hsession])
    have hbegun := (S.begun_iff h _).mp (hrproc ▸ hw.begun r hr)
    rw [(hclosing j).1] at hbegun
    cases hbegun
  · have hlapsed := hexpired v hv (hvs.trans hsession.symm) _ hvrec hvheld
    obtain ⟨k', hk', hle⟩ := hw.read _ t (hw.times z hz t ht)
    have hle := hle hmono
    have hclocks := hwithin k' k
    rw [Setup.skew, hskew] at hlapsed
    rw [hmanager, hskew] at hguard
    omega

/-- **Exclusion by clocks.** If all managers work with the same skew allowance and their clocks
never go back and differ by at most twice that allowance, then at every instant at most one lease of
a key passes the guard. -/
theorem guard_exclusive (hminted : ∀ t, store.Tokens t → t ∈ minted) (hmono : S.Monotone) {s : ℤ}
    (hskew : ∀ k, (S.manager k).cfg.clockSkewAllowance = s) (hclock : Within (2 * s) clock)
    (htick : ∀ c c', Within (2 * s) c → S.tick c c' → Within (2 * s) c')
    (h : S.system.Reachable (.initial store minted clock) a) {n n' : ℕ} {c c' : Cell}
    (hg : Guarded S a n c) (hg' : Guarded S a n' c') (hkey : c.held.key = c'.held.key) :
    n = n' := by
  have hw := (S.reachable_kept hminted h).1
  have hwithin := S.reachable_within hclock htick h
  by_contra hne
  have hfirst : c.first ≠ c'.first := fun heq => hne (hw.eq_of_first_eq hg.1 hg'.1 heq)
  obtain ⟨o, ho, -, -, -, hokey, -⟩ := (hw.cells n c hg.1).acquired
  obtain ⟨x, hx⟩ := latest_isSome ho hokey
  by_cases hs : x.session = c.first
  · refine not_guarded hminted hmono hskew h hwithin (hkey ▸ hx) ?_ hg'
    exact fun heq => hfirst (hs.symm.trans heq)
  · exact not_guarded hminted hmono hskew h hwithin hx hs hg

/-- After the takeover the second lease passes the guard, and no other one does. -/
theorem Takeover.second_lease_guarded :
    ∃ a c, Takeover.setup.system.Reachable (.initial ⟨fun _ => none⟩ [] Takeover.clocks) a ∧
      Guarded Takeover.setup a 1 c ∧
        ∀ n' c', Guarded Takeover.setup a n' c' → c.held.key = c'.held.key → 1 = n' := by
  have hpool : (Takeover.pool.bind fun a => (a.world.world.helds 1).map fun c =>
      (a.world.begun, a.world.site Takeover.setup (.renew 1), a.world.clock 1, c.state.lost,
        c.state.record.expiresAt, c.manager.cfg.clockSkewAllowance)) =
      some ([.acquire 1, .acquire 0], some 1, 6, false, 9, 1) := by
    decide +kernel
  obtain ⟨a, ha, hcell⟩ := bind_eq_some_iff.mp hpool
  obtain ⟨c, hc, hfields⟩ := map_eq_some_iff.mp hcell
  simp only [Prod.mk.injEq] at hfields
  obtain ⟨hbegun, hsite, hclock, hlost, hexp, hskew⟩ := hfields
  have hreach := (Takeover.setup.interpreter Takeover.tick Takeover.tick_sound).exec_reachable ha
  have hnone (i : Proc) (hi : i ∉ a.world.begun) : a.procs i = none := by
    rw [Takeover.setup.begun_iff hreach] at hi
    simpa using hi
  have hguarded : Guarded Takeover.setup a 1 c := by
    refine ⟨hc, hlost, ⟨1, hsite, ?_⟩, fun j => ⟨hnone _ ?_, hnone _ ?_⟩⟩
    · rw [hclock, hexp, hskew]
      decide
    · simp [hbegun]
    · simp [hbegun]
  refine ⟨a, c, hreach, hguarded, fun n' c' hg' hkey => ?_⟩
  refine guard_exclusive (s := 1) Takeover.tokens_minted Takeover.monotone (fun _ => rfl) ?_ ?_
    hreach hguarded hg' hkey
  · intro i j
    simp only [Takeover.clocks]
    split <;> split <;> decide
  rintro clock _ hwithin ⟨d, hd, rfl⟩ i j
  have hij := hwithin i j
  simp only
  omega

end Walrusd.Lease
