import Walrusd.Lease.Records

/-!
# What lease programs know

The phase of each process asserts something about the world: what an acquirer read and won, which
record a renewal loop renews, what a release has waited for. Every answer to an allowed call keeps
the invariant of the world and what the phases assert.

## Main definitions

* `Phase.Knows` — what the phase of a process asserts about the world.

## Main results

* `Phase.Knows.answer` — one step.
* `Setup.reachable_kept` — the invariant holds in every reachable pool.
-/

namespace Walrusd.Lease

open Program Function List Option

/-! ### What the phases know -/

/-- What an acquirer knows. -/
structure Acquirer.Knows (S : Setup) (w : Timed) (n : ℕ) (m : Manager) (s : Acquirer) : Prop where
  manager : m = S.manager (S.site n)
  times : s.times = w.readings (.acquire n)
  got : ∀ key b t, s.got = some (key, b, t) → w.Holds key t b
  won : ∀ key tok body, s.won = some (key, tok, body) → ∃ y ∈ w.history,
    y.proc = .acquire n ∧ y.token = tok ∧ y.session = tok ∧ y.key = key ∧ y.body = body
  made : ∀ held, s.made = some held →
    ∃ c, w.world.helds held.id = some c ∧ c.held = held ∧ c.maker = .acquire n
  unmade : s.made = none → ∀ h c, w.world.helds h = some c → c.maker ≠ .acquire n

/-- What the renewal loop of the lease `c` knows. -/
structure Keeper.Renewing (S : Setup) (w : Timed) (h : ℕ) (c : Cell) (m : Manager) (s : Keeper) :
    Prop where
  held : c.held = s.held
  manager : c.manager = m
  seen : ∀ rec t, s.seen = some (rec, t) → c.state.record = rec ∧ c.state.version = t
  time : ∀ now, s.time = some now → ∃ ts, w.readings (.renew h) = now :: ts
  order : S.Monotone → ∀ now rec t, s.time = some now → s.seen = some (rec, t) →
    rec.expiresAt ≤ now + m.cfg.duration
  won : ∀ tok body, s.won = some (tok, body) → ∃ y ∈ w.history, y.proc = .renew h ∧
    y.token = tok ∧ y.session = c.first ∧ y.key = c.held.key ∧ y.body = body
  ended : c.state.ended = true → s.finished = true

/-- What a release or an abandonment of the lease `c` knows. -/
structure Keeper.Closing (S : Setup) (w : Timed) (i : Proc) (h : ℕ) (c : Cell) (s : Keeper) :
    Prop where
  held : c.held = s.held
  seen : ∀ rec t, s.seen = some (rec, t) → Bears S w h c t rec
  time : ∀ now, s.time = some now → ∃ ts, w.readings i = now :: ts
  won : s.won.isSome = true → ∃ y ∈ w.history, y.proc = i
  waited : s.waited = true → c.state.ended = true

/-- The process that closes the lease `h`: call `k` of `Release` or of `Abandon`. -/
def closing (releasing : Bool) (h k : ℕ) : Proc :=
  if releasing then .release h k else .abandon h k

/-- What the phase of a process asserts about the world. -/
def Phase.Knows (S : Setup) (w : Timed) (i : Proc) : Phase → Prop
  | .idle => True
  | .acquirer m s => i ∈ w.begun ∧ ∃ n, i = .acquire n ∧ s.Knows S w n m
  | .renewer m s => i ∈ w.begun ∧
      ∃ h c, i = .renew h ∧ w.world.helds h = some c ∧ s.Renewing S w h c m
  | .closer releasing s => i ∈ w.begun ∧
      ∃ h k c, i = closing releasing h k ∧ w.world.helds h = some c ∧ s.Closing S w i h c

section Knows

variable {S : Setup} {store₀ : MemoryStore} {w w' : Timed}
variable {n : ℕ} {m : Manager} {s : Acquirer} {key : String} {body : Bytes} {c : Op} {r : Resp c}

/-- What a process knows stays so when another process, or none, makes a step. -/
theorem Timed.Grows.knows {i : Option Proc} (hg : w.Grows i w') {j : Proc} (hj : some j ≠ i)
    {p : Phase} (hk : p.Knows S w j) : p.Knows S w' j := by
  cases p with
  | idle => trivial
  | acquirer m s =>
    obtain ⟨hbegun, n, rfl, hs⟩ := hk
    refine ⟨hg.begun _ hbegun, n, rfl, hs.manager, ?_, ?_, ?_, ?_, ?_⟩
    · rw [hg.others _ hj]
      exact hs.times
    · exact fun key b t hgot => hg.holds (hs.got key b t hgot)
    · intro key tok body hwon
      obtain ⟨y, hy, hprops⟩ := hs.won key tok body hwon
      exact ⟨y, hg.history y hy, hprops⟩
    · intro held hmade
      obtain ⟨c, hc, hheld, hmaker⟩ := hs.made held hmade
      obtain ⟨c', hc', hsame, -⟩ := hg.cells _ c hc
      exact ⟨c', hc', hsame.held.trans hheld, hsame.maker.trans hmaker⟩
    · intro hmade h c' hc' hmaker
      rcases hg.new h c' hc' with ⟨c, hc, hsame⟩ | hi
      · exact hs.unmade hmade h c hc (hsame.maker.symm.trans hmaker)
      · exact hj (hmaker ▸ hi)
  | renewer m s =>
    obtain ⟨hbegun, h, c, rfl, hc, hs⟩ := hk
    obtain ⟨c', hc', hsame, -, hstate⟩ := hg.cells h c hc
    obtain ⟨hrecord, hversion, hended⟩ := hstate hj
    refine ⟨hg.begun _ hbegun, h, c', rfl, hc', hsame.held.trans hs.held,
      hsame.manager.trans hs.manager, ?_, ?_, hs.order, ?_, ?_⟩
    · rw [hrecord, hversion]
      exact hs.seen
    · rw [hg.others _ hj]
      exact hs.time
    · intro tok body hwon
      obtain ⟨y, hy, hprops⟩ := hs.won tok body hwon
      rw [hsame.first, hsame.held]
      exact ⟨y, hg.history y hy, hprops⟩
    · rw [hended]
      exact hs.ended
  | closer releasing s =>
    obtain ⟨hbegun, h, k, c, hi, hc, hs⟩ := hk
    obtain ⟨c', hc', hsame, hended, -⟩ := hg.cells h c hc
    refine ⟨hg.begun _ hbegun, h, k, c', hi, hc', hsame.held.trans hs.held, ?_, ?_, ?_, ?_⟩
    · exact fun rec t hseen => hg.bears hsame (hs.seen rec t hseen)
    · rw [hg.others _ hj]
      exact hs.time
    · intro hwon
      obtain ⟨y, hy, hproc⟩ := hs.won hwon
      exact ⟨y, hg.history y hy, hproc⟩
    · exact fun hwaited => hended (hs.waited hwaited)

/-- The three things that a step keeps. -/
def Steps (S : Setup) (store₀ : MemoryStore) (w : Timed) (i : Proc) (p : Phase) (w' : Timed) :
    Prop :=
  Kept S w' store₀ ∧ w.Grows (some i) w' ∧ p.Knows S w' i

/-! ### The steps of an acquirer -/

theorem Acquirer.Knows.sent_create (hs : s.Knows S w n m) (hbegun : .acquire n ∈ w.begun)
    (hallow : s.Allows S.json m (.createIfAbsent key body)) :
    Sent S w ⟨.acquire n, none, key, none, body⟩ (w.readings (.acquire n)) := by
  obtain ⟨-, db, t, ts, id, htimes, hbody⟩ := hallow
  rw [hs.manager] at hbody
  exact ⟨.create rfl rfl rfl (hs.times.symm.trans htimes) (S.json.unmarshal_marshal hbody),
    fun _ h => h, hbegun⟩

section

variable (hw : Kept S w store₀) (hs : s.Knows S w n m) (hbegun : .acquire n ∈ w.begun)
include hw hs hbegun

theorem Acquirer.Knows.sent_replace {t : Token}
    (hallow : s.Allows S.json m (.replaceIfToken key t body)) :
    Sent S w ⟨.acquire n, none, key, some t, body⟩ (w.readings (.acquire n)) := by
  obtain ⟨-, b, old, db, t₁, t₂, ts, id, hgot, hold, hdb, htimes, hexpired, hbody⟩ := hallow
  have hreadings := hs.times.symm.trans htimes
  rw [hs.manager] at hbody hexpired
  refine ⟨.replace rfl rfl rfl (hs.got key b t hgot) hold hdb hreadings hexpired
    (fun hmono => ?_) (S.json.unmarshal_marshal hbody), fun _ h => h, hbegun⟩
  have hsorted := hw.sorted hmono (.acquire n)
  rw [hreadings] at hsorted
  exact (pairwise_cons.mp hsorted).1 t₁ mem_cons_self

theorem Acquirer.Knows.write {expected : Option Token} {r : Except StoreErr Token}
    (hsent : Sent S w ⟨.acquire n, none, key, expected, body⟩ (w.readings (.acquire n)))
    (h : w.AnswersWrite ⟨.acquire n, none, key, expected, body⟩ r w') :
    Steps S store₀ w (.acquire n) (.acquirer m (s.afterWrite key body r)) w' := by
  obtain ⟨hw', hg, hok⟩ := hw.answersWrite hsent h
  obtain ⟨hbegun', n', hn, hs'⟩ := hg.knows (p := .acquirer m s) nofun ⟨hbegun, n, rfl, hs⟩
  obtain rfl := Proc.acquire.inj hn
  refine ⟨hw', hg.weaken, hbegun', n, rfl, ?_⟩
  cases r with
  | error e => exact hs'
  | ok tok =>
    refine { hs' with won := ?_ }
    intro key' tok' body' hwon
    obtain ⟨rfl, rfl, rfl⟩ := some.inj hwon
    exact ⟨_, hok tok rfl, rfl, rfl, rfl, rfl, rfl⟩

/-- **A step of an acquirer.** -/
theorem Acquirer.Knows.answer (hallow : s.Allows S.json m c) (h : w.answer S (.acquire n) c r w') :
    Steps S store₀ w (.acquire n) (.acquirer m (s.after c r)) w' := by
  have hsame (hw' : w' = w) : Steps S store₀ w (.acquire n) (.acquirer m s) w' := by
    subst hw'
    exact ⟨hw, .refl, hbegun, n, rfl, hs⟩
  cases c with
  | now =>
    obtain ⟨⟨k, hk, rfl⟩, rfl⟩ := h
    obtain ⟨hw', hg⟩ := hw.now hk hbegun rfl
    refine ⟨hw', hg, hbegun, n, rfl, { hs with times := ?_, got := ?_ }⟩
    · simp [Acquirer.after, hs.times]
    · exact fun key b t hgot => hg.holds (hs.got key b t hgot)
  | get key =>
    obtain ⟨world', ⟨hr, rfl⟩, rfl⟩ := h
    refine ⟨hw, .refl, hbegun, n, rfl, ?_⟩
    cases r with
    | error e => exact hs
    | ok got =>
      obtain ⟨b, t⟩ := got
      refine { hs with got := ?_ }
      intro key' b' t' hgot
      obtain ⟨rfl, rfl, rfl⟩ := some.inj hgot
      obtain ⟨e, he, rfl, rfl⟩ : ∃ e, w.world.store.objects key = some e ∧ e.body = b ∧
          e.token = t := by
        rcases hr with hr | ⟨e, he⟩
        · unfold MemoryStore.get at hr
          split at hr
          · cases hr
          · next e he =>
            cases hr
            exact ⟨e, he, rfl, rfl⟩
        · cases he
      refine ⟨hw.store_minted key e he, fun e' he' _ => ?_⟩
      rw [some.inj (he'.symm.trans he)]
  | createIfAbsent key body => exact hs.write hw hbegun (hs.sent_create hbegun hallow) h
  | replaceIfToken key t body => exact hs.write hw hbegun (hs.sent_replace hw hbegun hallow) h
  | newHeld m' key st maxExpiry =>
    obtain ⟨world', ⟨hfree, hkey, hmax, rfl⟩, rfl⟩ := h
    obtain ⟨rfl, hmade, rec, tok, body, rfl, hwon, hbody, rfl⟩ := hallow
    obtain rfl := hs.manager
    obtain ⟨y, hy, hproc, htok, hsession, hykey, hybody⟩ := hs.won key tok body hwon
    obtain ⟨hw', hg, hcell⟩ := hw.newHeld hbegun (hs.unmade hmade) hy hproc htok hsession hykey
      hybody hbody hfree hkey hmax rfl rfl
    refine ⟨hw', hg, hbegun, n, rfl, { hs with made := ?_, unmade := nofun }⟩
    intro held hheld
    cases hheld
    exact ⟨_, hcell, rfl, rfl⟩
  | snapshot | setRenewed | markLost | awaitStopOrTick | isStopped | closeStop | awaitDone
  | closeDone => exact hallow.elim
  | _ =>
    obtain ⟨world', rfl, rfl⟩ := h
    exact hsame rfl

end

/-! ### The steps of a renewal loop -/

/-- **A step of a renewal loop.** -/
theorem Keeper.Renewing.answer {h : ℕ} {c₀ : Cell} {s : Keeper} (hw : Kept S w store₀)
    (hs : s.Renewing S w h c₀ m) (hbegun : .renew h ∈ w.begun) (hc₀ : w.world.helds h = some c₀)
    (hallow : s.Renews S.json m c) (ha : w.answer S (.renew h) c r w') :
    Steps S store₀ w (.renew h) (.renewer m (s.after c r)) w' := by
  obtain ⟨hfinished, hallow⟩ := hallow
  have hid : s.held.id = h := by rw [← hs.held, (hw.cells h c₀ hc₀).id]
  cases c with
  | now =>
    obtain ⟨⟨k, hk, rfl⟩, rfl⟩ := ha
    obtain ⟨hw', hg⟩ := hw.now hk hbegun rfl
    refine ⟨hw', hg, hbegun, h, c₀, rfl, hc₀, { hs with time := ?_, order := ?_ }⟩
    · intro now hnow
      cases hnow
      exact ⟨w.readings (.renew h), update_self ..⟩
    · -- the record that the lease shows was written with an earlier reading of the same clock
      intro hmono now rec t hnow hseen
      cases hnow
      obtain ⟨rfl, rfl⟩ := hs.seen rec t hseen
      have hb := hw.cells h c₀ hc₀
      obtain ⟨n, hmaker, hmanager⟩ := hb.maker
      obtain ⟨y, hy, -, hsession, -, hproc, hrec, hheld⟩ := hb.view
      obtain ⟨a, hamem, n', t', ts, -, -, hat, hap, htimes, -, hexp, -⟩ :=
        hw.chronicle.expiry_eq hy hrec hheld
      obtain ⟨a', ha'mem, t₀, ts₀, hat', -, hap', -⟩ := hb.acquired
      obtain rfl : a = a' := hw.chronicle.eq_of_token_eq hamem ha'mem
        (hat.trans (hsession.trans hat'.symm))
      obtain rfl : n' = n := Proc.acquire.inj (hap.symm.trans (hap'.trans hmaker))
      have hread := hw.read y.proc t' (hw.times y hy t' (by simp [htimes]))
      obtain ⟨k', hk', hle⟩ := hread
      have hkk : k' = k := by
        have hsite : w.site S y.proc = w.site S (.renew h) := by
          rcases hproc with hproc | hproc
          · rw [hproc, hmaker]
            obtain ⟨held, st, mgr, maker, first⟩ := c₀
            obtain rfl : maker = .acquire n' := hmaker
            simp [Timed.site, hc₀]
          · rw [hproc]
        exact some.inj (hk'.symm.trans (hsite.trans hk))
      subst hkk
      have hle := hle hmono
      have hduration : S.duration n' = m.cfg.duration := by
        rw [← hs.manager, hmanager, Setup.duration]
      omega
  | awaitStopOrTick held interval =>
    obtain ⟨world', ⟨-, rfl⟩, rfl⟩ := ha
    exact ⟨hw, .refl, hbegun, h, c₀, rfl, hc₀, hs⟩
  | snapshot held =>
    obtain ⟨world', ⟨⟨c, hc, rfl⟩, rfl⟩, rfl⟩ := ha
    obtain rfl : held = s.held := hallow
    rw [hid] at hc
    cases hc₀.symm.trans hc
    refine ⟨hw, .refl, hbegun, h, c₀, rfl, hc₀, { hs with
      seen := ?_
      time := by rintro _ ⟨⟩
      order := by rintro - _ _ _ ⟨⟩
      won := by rintro _ _ ⟨⟩ }⟩
    intro rec t hseen
    exact Prod.mk.inj (some.inj hseen)
  | replaceIfToken key t body =>
    obtain ⟨rfl, rec, now, hseen, htime, hcap, hbody⟩ := hallow
    obtain ⟨rfl, rfl⟩ := hs.seen rec t hseen
    obtain ⟨ts, hts⟩ := hs.time now htime
    have hb := hw.cells h c₀ hc₀
    have hsession : w.world.session (.renew h) = some c₀.first := by simp [World.session, hc₀]
    have hsent : Sent S w ⟨.renew h, w.world.session (.renew h), s.held.key,
        some c₀.state.version, body⟩ (w.readings (.renew h)) := by
      refine ⟨.renew rfl hc₀ hsession (by rw [hs.held]) rfl hb.view hts ?_ ?_ ?_, fun _ h => h,
        hbegun⟩
      · rw [hs.manager, hs.held]
        exact hcap
      · rw [hs.manager]
        exact fun hmono => hs.order hmono now _ _ htime hseen
      · rw [hs.manager]
        exact S.json.unmarshal_marshal hbody
    obtain ⟨hw', hg, hok⟩ := hw.answersWrite hsent ha
    obtain ⟨hbegun', h', c', hh, hc', hs'⟩ :=
      hg.knows (p := .renewer m s) (by rintro ⟨⟩) ⟨hbegun, h, c₀, rfl, hc₀, hs⟩
    obtain rfl := Proc.renew.inj hh
    refine ⟨hw', hg.weaken, hbegun', h, c', rfl, hc', ?_⟩
    cases r with
    | error e => exact hs'
    | ok tok =>
      refine { hs' with won := ?_ }
      intro tok' body' hwon
      cases hwon
      obtain ⟨c'', hc'', hsame, -⟩ := hg.cells h c₀ hc₀
      cases hc'.symm.trans hc''
      refine ⟨_, hok tok rfl, rfl, rfl, ?_, ?_, rfl⟩
      · rw [Effect.session_of_some hsession, hsame.first]
      · rw [hsame.held, hs.held]
  | setRenewed held expiresAt version =>
    obtain ⟨world', hupd, rfl⟩ := ha
    simp only [World.answer] at hupd
    obtain ⟨rfl, rec, t, body, hseen, hwon, hbody⟩ := hallow
    obtain ⟨rfl, -⟩ := hs.seen rec t hseen
    obtain ⟨y, hy, hproc, htok, hsession, hykey, hybody⟩ := hs.won version body hwon
    have hrec : S.json.unmarshal y.body = .ok { c₀.state.record with expiresAt } :=
      hybody ▸ S.json.unmarshal_marshal hbody
    have hheld : c₀.state.record.state = .held := by
      refine (hw.chronicle.held_iff hy hrec).mpr ?_
      rw [hproc]
      simp [Proc.IsRelease]
    obtain ⟨hw', hg, hcell⟩ := hw.updates hc₀ hs.held hupd (fun _ h => h)
      (fun hend => .inl hend) (.inr ⟨rfl, y, hy, htok, hsession, hykey, .inr hproc, hrec, hheld⟩)
    exact ⟨hw', hg, hbegun, h, _, rfl, hcell, { hs with
      seen := by rintro _ _ ⟨⟩
      time := by rintro _ ⟨⟩
      order := by rintro - _ _ _ ⟨⟩
      won := by rintro _ _ ⟨⟩ }⟩
  | markLost held =>
    obtain ⟨world', hupd, rfl⟩ := ha
    simp only [World.answer] at hupd
    obtain rfl : held = s.held := hallow
    have hb := hw.cells h c₀ hc₀
    obtain ⟨hw', hg, hcell⟩ := hw.updates hc₀ hs.held hupd (fun _ h => h)
      (fun hend => .inl hend) (.inr ⟨rfl, hb.view⟩)
    exact ⟨hw', hg, hbegun, h, _, rfl, hcell, { hs with }⟩
  | closeDone held =>
    obtain ⟨world', hupd, rfl⟩ := ha
    simp only [World.answer] at hupd
    obtain rfl : held = s.held := hallow
    have hb := hw.cells h c₀ hc₀
    obtain ⟨hw', hg, hcell⟩ := hw.updates hc₀ hs.held hupd (fun _ _ => rfl)
      (fun _ => .inr hbegun) (.inr ⟨rfl, hb.view⟩)
    exact ⟨hw', hg, hbegun, h, _, rfl, hcell, { hs with ended := fun _ => rfl }⟩
  | _ => exact hallow.elim

/-! ### The steps of a release or an abandonment -/

/-- **A step of a release or an abandonment.** -/
theorem Keeper.Closing.answer {releasing : Bool} {h k : ℕ} {i : Proc} {c₀ : Cell} {s : Keeper}
    (hw : Kept S w store₀) (hs : s.Closing S w i h c₀) (hbegun : i ∈ w.begun)
    (hi : i = closing releasing h k) (hc₀ : w.world.helds h = some c₀)
    (hallow : s.Closes S.json releasing c) (ha : w.answer S i c r w') :
    Steps S store₀ w i (.closer releasing (s.after c r)) w' := by
  have hid : s.held.id = h := by rw [← hs.held, (hw.cells h c₀ hc₀).id]
  have hne : i ≠ .renew h := by
    rw [hi]
    cases releasing <;> simp [closing]
  cases c with
  | now =>
    obtain ⟨⟨n, hn, rfl⟩, rfl⟩ := ha
    obtain ⟨hw', hg⟩ := hw.now hn hbegun rfl
    refine ⟨hw', hg, hbegun, h, k, c₀, hi, hc₀, { hs with seen := ?_, time := ?_ }⟩
    · exact fun rec t hseen => hg.bears (.refl c₀) (hs.seen rec t hseen)
    intro now hnow
    cases hnow
    exact ⟨w.readings i, update_self ..⟩
  | notifyWaiters key =>
    obtain ⟨world', rfl, rfl⟩ := ha
    exact ⟨hw, .refl, hbegun, h, k, c₀, hi, hc₀, hs⟩
  | isStopped held =>
    obtain ⟨world', ⟨-, rfl⟩, rfl⟩ := ha
    exact ⟨hw, .refl, hbegun, h, k, c₀, hi, hc₀, hs⟩
  | closeStop held =>
    obtain ⟨world', ⟨-, hupd⟩, rfl⟩ := ha
    obtain rfl : held = s.held := hallow
    obtain ⟨hw', hg, hcell⟩ := hw.updates hc₀ hs.held hupd (fun _ h => h)
      (fun hend => .inl hend) (.inl ⟨hne, fun _ => ⟨rfl, rfl, rfl⟩⟩)
    refine ⟨hw', hg, hbegun, h, k, _, hi, hcell, { hs with seen := ?_ }⟩
    exact fun rec t hseen => hg.bears ⟨rfl, rfl, rfl, rfl⟩ (hs.seen rec t hseen)
  | awaitDone held =>
    obtain ⟨world', ⟨⟨c, hc, hended⟩, rfl⟩, rfl⟩ := ha
    obtain rfl : held = s.held := hallow
    rw [hid] at hc
    cases hc₀.symm.trans hc
    exact ⟨hw, .refl, hbegun, h, k, c₀, hi, hc₀, { hs with waited := fun _ => hended }⟩
  | snapshot held =>
    obtain ⟨world', ⟨⟨c, hc, rfl⟩, rfl⟩, rfl⟩ := ha
    obtain rfl : held = s.held := hallow.1
    rw [hid] at hc
    cases hc₀.symm.trans hc
    refine ⟨hw, .refl, hbegun, h, k, c₀, hi, hc₀, { hs with
      seen := ?_
      time := by rintro _ ⟨⟩
      won := by rintro ⟨⟩ }⟩
    intro rec t hseen
    cases hseen
    exact (hw.cells h c₀ hc₀).view
  | replaceIfToken key t body =>
    obtain ⟨rfl, rfl, rec, now, hseen, htime, hbody⟩ := hallow
    obtain ⟨ts, hts⟩ := hs.time now htime
    have hsession : w.world.session i = some c₀.first := by
      rw [hi]
      simp [closing, World.session, hc₀]
    have hsent : Sent S w ⟨i, w.world.session i, s.held.key, some t, body⟩ (w.readings i) := by
      refine ⟨.release hi hc₀ hsession (by rw [hs.held]) rfl (hs.seen rec t hseen)
        (S.json.unmarshal_marshal hbody), fun _ h => h, hbegun⟩
    obtain ⟨hw', hg, hok⟩ := hw.answersWrite hsent ha
    obtain ⟨hbegun', h', k', c', hi', hc', hs'⟩ :=
      hg.knows (p := .closer true s) (by rintro ⟨⟩) ⟨hbegun, h, k, c₀, hi, hc₀, hs⟩
    refine ⟨hw', hg.weaken, hbegun', h', k', c', hi', hc', ?_⟩
    cases r with
    | error e => exact hs'
    | ok tok => exact { hs' with won := fun _ => ⟨_, hok tok rfl, rfl⟩ }
  | _ => exact hallow.elim

/-- **One step.** Every answer to an allowed call keeps the invariant of the world and what the
phase of the process asserts. -/
theorem Phase.Knows.answer {i : Proc} {p : Phase} (hw : Kept S w store₀) (hk : p.Knows S w i)
    (hallow : p.Allows S.json c) (h : w.answer S i c r w') :
    Steps S store₀ w i (p.after c r) w' := by
  cases p with
  | idle => exact hallow.elim
  | acquirer m s =>
    obtain ⟨hbegun, n, rfl, hs⟩ := hk
    exact hs.answer hw hbegun hallow h
  | renewer m s =>
    obtain ⟨hbegun, n, c₀, rfl, hc₀, hs⟩ := hk
    exact hs.answer hw hbegun hc₀ hallow h
  | closer releasing s =>
    obtain ⟨hbegun, n, k, c₀, hi, hc₀, hs⟩ := hk
    exact hs.answer hw hbegun hi hc₀ hallow h

end Knows

/-! ### Reachable pools -/

section Reachable

variable {S : Setup} {store : MemoryStore} {minted : List Token} {clock : ℕ → ℤ}
  {a : Pool Timed Proc Op Resp Outcome}

/-- What a process returned, as its phase records it. -/
def Concludes : Proc → Phase → Outcome → Prop
  | .acquire _, p, .acquired res => ∃ m, Made m p res
  | .renew _, _, .ended => True
  | .release _ _, p, .released err => Resolved p err
  | .abandon _ _, p, .ended => ∃ s, p = .closer false s ∧ s.waited = true
  | _, _, _ => False

theorem initial_kept (hminted : ∀ t, store.Tokens t → t ∈ minted) :
    Kept S (.initial store minted clock) store where
  chronicle := .nil
  minted _ hy := nomatch hy
  store_minted key e he := hminted _ ⟨key, e, he, rfl⟩
  store _ := rfl
  cells _ _ hc := nomatch hc
  makers _ _ _ _ hc := nomatch hc
  inflight _ hp := nomatch hp
  times _ hy := nomatch hy
  begun _ hy := nomatch hy
  own _ hy := nomatch hy
  sorted _ _ := List.Pairwise.nil
  read _ _ ht := nomatch ht
  unread _ _ := rfl

/-- A started program keeps to the protocol from a phase that asserts only what is so. -/
theorem Begins.conduct {w w' : Timed} {i : Proc} {p : LeaseM Outcome} (hw : Kept S w store)
    (hnew : i ∉ w.begun) (h : Begins S w i p w') :
    ∃ s, p.Obeys (recordProtocol S.json) (Concludes i) s ∧ s.Knows S w' i := by
  have hbegun (i : Proc) : i ∈ (w.start i).begun := mem_cons_self
  have hacquirer (n : ℕ) (hnew : .acquire n ∉ w.begun) :
      (Phase.acquirer (S.manager (S.site n)) {}).Knows S (w.start (.acquire n)) (.acquire n) := by
    refine ⟨hbegun _, n, rfl, rfl, (hw.unread _ hnew).symm, nofun, nofun, nofun, ?_⟩
    intro _ k c hc hmaker
    exact hnew (hmaker ▸ (hw.cells k c hc).started)
  cases h with
  | acquire n rounds db rootPrefix =>
    refine ⟨.acquirer (S.manager (S.site n)) {}, ?_, hacquirer n hnew⟩
    exact (acquireSingleFlight_conduct rounds db _ rfl).bind fun s res h => ⟨_, h⟩
  | acquireKey n rounds db key =>
    refine ⟨.acquirer (S.manager (S.site n)) {}, ?_, hacquirer n hnew⟩
    unfold Lease.acquireKey
    split
    · exact ⟨_, made_error rfl⟩
    · exact (acquireSingleFlight_conduct rounds db key rfl).bind fun s res h => ⟨_, h⟩
  | @renew h c hc rounds =>
    refine ⟨.renewer c.manager { held := c.held }, ?_, hbegun _, h, c, rfl, hc, rfl, rfl, nofun,
      nofun, nofun, nofun, fun hend => absurd ((hw.cells h c hc).ended hend) hnew⟩
    have hloop : (renewLoop S.json c.manager c.held rounds).Keeps (recordProtocol S.json)
        (.renewer c.manager { held := c.held }) :=
      renewLoop_conduct rounds rfl rfl
    exact hloop.bind fun _ _ _ => trivial
  | @release h c hc n =>
    refine ⟨.closer true { held := c.held }, ?_, hbegun _, h, n, c, rfl, hc, rfl, nofun, nofun,
      nofun, nofun⟩
    exact (release_conduct rfl).bind fun s res h => h
  | @abandon h c hc n =>
    refine ⟨.closer false { held := c.held }, ?_, hbegun _, h, n, c, rfl, hc, rfl, nofun, nofun,
      nofun, nofun⟩
    exact (abandon_conduct rfl).bind fun s _ h => ⟨_, h, rfl⟩

/-- **The invariant.** In every reachable pool the world is kept, and every process has a phase that
asserts only what is so and from which its program keeps to the protocol. -/
theorem Setup.reachable_kept (hminted : ∀ t, store.Tokens t → t ∈ minted)
    (h : S.system.Reachable (.initial store minted clock) a) :
    Kept S a.world store ∧ ∀ i, ∃ s : Phase, s.Knows S a.world i ∧
      ∀ p, a.procs i = some p → p.Obeys (recordProtocol S.json) (Concludes i) s := by
  let Inv (w : Timed) (g : Proc → Phase) : Prop := Kept S w store ∧ ∀ i, (g i).Knows S w i
  have hupdate {w w' : Timed} {g : Proc → Phase} {i : Proc} {s : Phase} (hg : w.Grows (some i) w')
      (hInv : Inv w g) (hs : s.Knows S w' i) (j : Proc) : (update g i s j).Knows S w' j := by
    by_cases hj : j = i
    · subst hj
      rw [update_self]
      exact hs
    · rw [update_of_ne hj]
      exact hg.knows (fun heq => hj (some.inj heq)) (hInv.2 j)
  have hstart : ∀ w g i p w', Inv w g → S.system.start w i p w' →
      ∃ s, p.Obeys (recordProtocol S.json) (Concludes i) s ∧ Inv w' (update g i s) := by
    rintro w g i p w' hInv ⟨hnew, hp⟩
    obtain ⟨s, hobeys, hs⟩ := hp.conduct hInv.1 hnew
    obtain rfl := hp.eq_start
    obtain ⟨hkept, hg⟩ := hInv.1.start i
    exact ⟨s, hobeys, hkept, hupdate hg.weaken hInv hs⟩
  have hcall : ∀ w g i c r w', Inv w g → (recordProtocol S.json).allow (g i) c →
      S.system.call w i c r w' →
      ∃ s, (recordProtocol S.json).next (g i) c r s ∧ Inv w' (update g i s) := by
    intro w g i c r w' hInv hallow hr
    obtain ⟨hkept, hg, hs⟩ := (hInv.2 i).answer hInv.1 hallow hr
    exact ⟨_, rfl, hkept, hupdate hg hInv hs⟩
  have henv : ∀ w g w', Inv w g → S.system.env w w' → Inv w' g := by
    rintro w g w' ⟨hw, hknows⟩ (⟨-, p, hp, tok, hl⟩ | ⟨clock, htick, rfl⟩)
    · refine ⟨hw.lands (hw.inflight p hp) hl, fun j => ?_⟩
      exact (Timed.grows_lands hl).knows (some_ne_none j) (hknows j)
    · obtain ⟨hkept, hg⟩ := hw.tick htick
      exact ⟨hkept, fun j => hg.knows (some_ne_none j) (hknows j)⟩
  obtain ⟨g, ⟨hkept, hknows⟩, hobeys⟩ := System.Reachable.invariant (recordProtocol S.json)
    Concludes Inv (fun _ => .idle) ⟨initial_kept hminted, fun _ => trivial⟩ hstart hcall henv h
  exact ⟨hkept, fun i => ⟨g i, hknows i, fun p hp => hobeys i p hp⟩⟩

/-- What an answer leaves alone, and what it may do to the history. -/
structure Timed.Answered (i : Proc) (w w' : Timed) : Prop where
  begun : w'.begun = w.begun
  clock : w'.clock = w.clock
  history : w'.history = w.history ∧ w'.world.store = w.world.store ∨
    ∃ y, w'.history = y :: w.history ∧ y.proc = i

theorem Timed.answer_cases {w w' : Timed} {i : Proc} {c : Op} {r : Resp c}
    (h : w.answer S i c r w') : w.Answered i w' := by
  have hwrite {q : Request} {r : Except StoreErr Token} (h : w.AnswersWrite q r w') :
      w.Answered q.proc w' := by
    rcases h with ⟨tok, ⟨world', -, rfl⟩, -⟩ | ⟨e, -, rfl⟩
    · exact ⟨rfl, rfl, .inr ⟨_, rfl, rfl⟩⟩
    · exact ⟨rfl, rfl, .inl ⟨rfl, rfl⟩⟩
  have hupdates {world' : World} {held : Held} {f : HeldState → HeldState}
      (h : w.world.Updates held f world') (hw' : w' = { w with world := world' }) :
      w.Answered i w' := by
    obtain ⟨c, -, rfl⟩ := h
    subst hw'
    exact ⟨rfl, rfl, .inl ⟨rfl, rfl⟩⟩
  cases c with
  | now =>
    obtain ⟨-, rfl⟩ := h
    exact ⟨rfl, rfl, .inl ⟨rfl, rfl⟩⟩
  | createIfAbsent | replaceIfToken => exact hwrite h
  | setRenewed | markLost | closeDone =>
    obtain ⟨world', hupd, hw'⟩ := h
    simp only [World.answer] at hupd
    exact hupdates hupd hw'
  | closeStop =>
    obtain ⟨world', ⟨-, hupd⟩, hw'⟩ := h
    exact hupdates hupd hw'
  | newHeld =>
    obtain ⟨world', ⟨-, -, -, rfl⟩, rfl⟩ := h
    exact ⟨rfl, rfl, .inl ⟨rfl, rfl⟩⟩
  | get | snapshot | awaitStopOrTick | isStopped | awaitDone =>
    obtain ⟨world', ⟨-, rfl⟩, rfl⟩ := h
    exact ⟨rfl, rfl, .inl ⟨rfl, rfl⟩⟩
  | _ =>
    obtain ⟨world', rfl, rfl⟩ := h
    exact ⟨rfl, rfl, .inl ⟨rfl, rfl⟩⟩

/-- The processes that have begun are those with a program. -/
theorem Setup.begun_iff (h : S.system.Reachable (.initial store minted clock) a) (i : Proc) :
    i ∈ a.world.begun ↔ (a.procs i).isSome = true := by
  induction h with
  | init => simp [Timed.initial]
  | step _ hs ih =>
    cases hs with
    | @start w procs j p w' hj h =>
      obtain rfl := h.2.eq_start
      by_cases hi : i = j
      · subst hi
        simp [Timed.start]
      · simp only [Timed.start, mem_cons, hi, false_or, update_of_ne hi]
        exact ih
    | @call w procs j c k r w' hj h =>
      simp only [(Timed.answer_cases h).begun]
      by_cases hi : i = j
      · subst hi
        simp only [update_self, isSome_some, iff_true]
        exact ih.mpr (by simp [hj])
      · simp only [update_of_ne hi]
        exact ih
    | env h =>
      rcases h with ⟨-, p, -, tok, world', -, rfl⟩ | ⟨clock, -, rfl⟩ <;> exact ih

end Reachable

end Walrusd.Lease
