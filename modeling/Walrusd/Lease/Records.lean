import Walrusd.Lease.Chronicle

/-!
# The records of a lease run

The invariant of the world with clocks: the history is a `Chronicle`, every lease stems from an
acquisition of the history, its state shows a record that was stored for it, and every request in
flight will, if it takes effect, follow the history.

## Main definitions

* `Bears`, `Backs`, `Fit`, `Kept`.
* `Timed.Grows` — what a step leaves of the world.

## Main results

* `Kept.follows` — a fitting request that takes effect follows the history.
* `Kept.answersWrite`, `Kept.now`, `Kept.updates`, `Kept.newHeld` — the invariant survives each kind
  of answer.
-/

namespace Walrusd.Lease

open Program Function List Option

/-! ### What is known -/

/-- If the record of `key` has the token `t`, its body is `b`. -/
def Timed.Holds (w : Timed) (key : String) (t : Token) (b : Bytes) : Prop :=
  t ∈ w.world.minted ∧ ∀ e, w.world.store.objects key = some e → e.token = t → e.body = b

section Definitions

variable (S : Setup) (w : Timed)

/-- The record `rec` was stored under the token `t` for the lease `c`, by its acquisition or its
renewal loop. -/
def Bears (h : ℕ) (c : Cell) (t : Token) (rec : Record) : Prop :=
  ∃ y ∈ w.history, y.token = t ∧ y.session = c.first ∧ y.key = c.held.key ∧
    (y.proc = c.maker ∨ y.proc = .renew h) ∧ S.json.unmarshal y.body = .ok rec ∧
    rec.state = .held

/-- The lease `c` stems from an acquisition, whose time fixes its cap, and its state shows a
record that was stored for it. -/
structure Backs (h : ℕ) (c : Cell) : Prop where
  id : c.held.id = h
  maker : ∃ n, c.maker = .acquire n ∧ c.manager = S.manager (S.site n)
  started : c.maker ∈ w.begun
  view : Bears S w h c c.state.version c.state.record
  acquired : ∃ a ∈ w.history, ∃ t₀ ts₀, a.token = c.first ∧ a.key = c.held.key ∧
    a.proc = c.maker ∧ a.times = t₀ :: ts₀ ∧ c.held.maxExpiry = t₀ + 3 * c.manager.cfg.duration
  ended : c.state.ended = true → .renew h ∈ w.begun

/-- A request does what its program computed: `ts` are the readings of the clock that its process
had made when it sent it. -/
inductive Fit (q : Request) (ts : List ℤ) : Prop
  | create {n : ℕ} {db : DatabaseID} {t : ℤ} {ts' : List ℤ} {id : String}
      (proc : q.proc = .acquire n) (session : q.session = none) (expected : q.expected = none)
      (times : ts = t :: ts')
      (body : S.json.unmarshal q.body = .ok (issued (S.manager (S.site n)) db t id 1))
  | replace {n : ℕ} {db : DatabaseID} {t : Token} {b : Bytes} {old : Record} {t₁ t₂ : ℤ}
      {ts' : List ℤ} {id : String} (proc : q.proc = .acquire n) (session : q.session = none)
      (expected : q.expected = some t) (read : w.Holds q.key t b)
      (replaced : S.json.unmarshal b = .ok old) (database : old.databaseID = db.string)
      (times : ts = t₂ :: t₁ :: ts') (expired : old.state = .held → old.expiresAt < t₁ - S.skew n)
      (order : S.Monotone → t₁ ≤ t₂)
      (body : S.json.unmarshal q.body =
        .ok (issued (S.manager (S.site n)) db t₂ id ((old.epoch + 1) % 2 ^ 64)))
  | renew {h : ℕ} {c : Cell} {t : Token} {rec : Record} {now : ℤ} {ts' : List ℤ}
      (proc : q.proc = .renew h) (cell : w.world.helds h = some c)
      (session : q.session = some c.first) (key : q.key = c.held.key)
      (expected : q.expected = some t) (bears : Bears S w h c t rec) (times : ts = now :: ts')
      (cap : now + c.manager.cfg.duration ≤ c.held.maxExpiry)
      (order : S.Monotone → rec.expiresAt ≤ now + c.manager.cfg.duration)
      (body : S.json.unmarshal q.body = .ok { rec with expiresAt := now + c.manager.cfg.duration })
  | release {h k : ℕ} {c : Cell} {t : Token} {rec : Record} {now : ℤ}
      (proc : q.proc = .release h k) (cell : w.world.helds h = some c)
      (session : q.session = some c.first) (key : q.key = c.held.key)
      (expected : q.expected = some t) (bears : Bears S w h c t rec)
      (body : S.json.unmarshal q.body = .ok { rec with state := .released, expiresAt := now })

/-- A request that a process has sent. -/
structure Sent (q : Request) (ts : List ℤ) : Prop where
  fit : Fit S w q ts
  times : ∀ t ∈ ts, t ∈ w.readings q.proc
  begun : q.proc ∈ w.begun

/-- The process works for the lease `h`. -/
def Proc.WorksFor (h : ℕ) : Proc → Prop
  | .acquire _ => False
  | .renew h' | .release h' _ | .abandon h' _ => h' = h

/-- The invariant of the world. -/
structure Kept (store₀ : MemoryStore) : Prop where
  chronicle : Chronicle S store₀ w.history
  minted : ∀ y ∈ w.history, y.token ∈ w.world.minted
  store_minted : ∀ key e, w.world.store.objects key = some e → e.token ∈ w.world.minted
  store : ∀ key, w.world.store.objects key = stored store₀ key w.history
  cells : ∀ h c, w.world.helds h = some c → Backs S w h c
  makers : ∀ h c h' c', w.world.helds h = some c → w.world.helds h' = some c' →
    c.maker = c'.maker → h = h'
  inflight : ∀ p ∈ w.world.inflight.zip w.sent, Sent S w p.1 p.2
  times : ∀ y ∈ w.history, ∀ t ∈ y.times, t ∈ w.readings y.proc
  begun : ∀ y ∈ w.history, y.proc ∈ w.begun
  own : ∀ y ∈ w.history, ∀ h, y.proc.WorksFor h →
    ∃ c, w.world.helds h = some c ∧ y.session = c.first ∧ y.key = c.held.key
  sorted : S.Monotone → ∀ i, (w.readings i).Pairwise (· ≥ ·)
  read : ∀ i, ∀ t ∈ w.readings i, ∃ k, w.site S i = some k ∧ (S.Monotone → t ≤ w.clock k)
  unread : ∀ i, i ∉ w.begun → w.readings i = []

end Definitions

/-! ### Worlds that grow -/

/-- Two states of one lease. -/
structure Cell.Same (c' c : Cell) : Prop where
  held : c'.held = c.held
  manager : c'.manager = c.manager
  maker : c'.maker = c.maker
  first : c'.first = c.first

theorem Cell.Same.refl (c : Cell) : c.Same c := ⟨rfl, rfl, rfl, rfl⟩

/-- What a step of the process `i`, or of none, leaves of the world. -/
structure Timed.Grows (i : Option Proc) (w w' : Timed) : Prop where
  history : ∀ y ∈ w.history, y ∈ w'.history
  holds : ∀ {key t b}, w.Holds key t b → w'.Holds key t b
  readings : ∀ j, ∀ t ∈ w.readings j, t ∈ w'.readings j
  others : ∀ j, some j ≠ i → w'.readings j = w.readings j
  begun : ∀ j ∈ w.begun, j ∈ w'.begun
  cells : ∀ h c, w.world.helds h = some c → ∃ c', w'.world.helds h = some c' ∧ c'.Same c ∧
    (c.state.ended = true → c'.state.ended = true) ∧
    (some (.renew h) ≠ i → c'.state.record = c.state.record ∧
      c'.state.version = c.state.version ∧ c'.state.ended = c.state.ended)
  new : ∀ h c', w'.world.helds h = some c' →
    (∃ c, w.world.helds h = some c ∧ c'.Same c) ∨ some c'.maker = i

section Grows

variable {S : Setup} {w w' : Timed} {i : Option Proc}

theorem Timed.Grows.of_eq (hhistory : w'.history = w.history)
    (hminted : w'.world.minted = w.world.minted) (hstore : w'.world.store = w.world.store)
    (hhelds : w'.world.helds = w.world.helds) (hreadings : w'.readings = w.readings)
    (hbegun : ∀ j ∈ w.begun, j ∈ w'.begun) :
    w.Grows i w' where
  history y hy := hhistory ▸ hy
  holds h := by
    unfold Timed.Holds
    rw [hminted, hstore]
    exact h
  readings j t ht := hreadings ▸ ht
  others j _ := by rw [hreadings]
  begun := hbegun
  cells h c hc := ⟨c, hhelds ▸ hc, .refl c, id, fun _ => ⟨rfl, rfl, rfl⟩⟩
  new h c hc := .inl ⟨c, hhelds ▸ hc, .refl c⟩

theorem Timed.Grows.refl : w.Grows i w := .of_eq rfl rfl rfl rfl rfl fun _ h => h

theorem Timed.Grows.weaken (h : w.Grows none w') : w.Grows i w' where
  history := h.history
  holds := h.holds
  readings := h.readings
  others j _ := h.others j nofun
  begun := h.begun
  cells k c hc := by
    obtain ⟨c', hc', hsame, hended, hstate⟩ := h.cells k c hc
    exact ⟨c', hc', hsame, hended, fun _ => hstate nofun⟩
  new k c' hc' := .inl ((h.new k c' hc').resolve_right nofun)

theorem Timed.Grows.site (h : w.Grows i w') {j : Proc} {k : ℕ} (hk : w.site S j = some k) :
    w'.site S j = some k := by
  have hcell (n : ℕ) (hn : w.site S (.renew n) = some k) : w'.site S (.renew n) = some k := by
    simp only [Timed.site] at hn ⊢
    split at hn
    · next held st m n first hc =>
      obtain ⟨⟨held', st', m', maker', first'⟩, hc', ⟨-, -, rfl, -⟩, -⟩ := h.cells _ _ hc
      rw [hc']
      exact hn
    · cases hn
  cases j with
  | acquire n => exact hk
  | renew n | release n _ | abandon n _ => exact hcell n hk

theorem Timed.Grows.bears (hg : w.Grows i w') {h : ℕ} {c c' : Cell} (hsame : c'.Same c) {t : Token}
    {rec : Record} (hb : Bears S w h c t rec) : Bears S w' h c' t rec := by
  obtain ⟨y, hy, ht, hs, hk, hp, hrec⟩ := hb
  exact ⟨y, hg.history y hy, ht, hs.trans hsame.first.symm,
    hk.trans (congrArg Held.key hsame.held).symm, by rwa [hsame.maker], hrec⟩

theorem Timed.Grows.backs (hg : w.Grows i w') {h : ℕ} {c c' : Cell} (hsame : c'.Same c)
    (hb : Backs S w h c) (hview : Bears S w' h c' c'.state.version c'.state.record)
    (hended : c'.state.ended = true → .renew h ∈ w'.begun) : Backs S w' h c' where
  id := by rw [hsame.held, hb.id]
  maker := by rw [hsame.maker, hsame.manager]; exact hb.maker
  started := by rw [hsame.maker]; exact hg.begun _ hb.started
  view := hview
  acquired := by
    rw [hsame.first, hsame.held, hsame.maker, hsame.manager]
    obtain ⟨a, ha, hprops⟩ := hb.acquired
    exact ⟨a, hg.history a ha, hprops⟩
  ended := hended

theorem Timed.Grows.fit (hg : w.Grows i w') {q : Request} {ts : List ℤ} (hq : Fit S w q ts) :
    Fit S w' q ts := by
  cases hq with
  | create proc session expected times body => exact .create proc session expected times body
  | replace proc session expected read replaced database times expired order body =>
    exact .replace proc session expected (hg.holds read) replaced database times expired order body
  | @renew h c t rec now ts' proc cell session key expected bears times cap order body =>
    obtain ⟨c', hc', hsame, -⟩ := hg.cells _ _ cell
    refine .renew proc hc' (by rw [hsame.first, session]) (by rw [hsame.held, key]) expected
      (hg.bears hsame bears) times ?_ ?_ ?_
    · rw [hsame.manager, hsame.held]
      exact cap
    · rw [hsame.manager]
      exact order
    · rw [hsame.manager]
      exact body
  | release proc cell session key expected bears body =>
    obtain ⟨c', hc', hsame, -⟩ := hg.cells _ _ cell
    exact .release proc hc' (by rw [hsame.first, session]) (by rw [hsame.held, key]) expected
      (hg.bears hsame bears) body

theorem Timed.Grows.sent (hg : w.Grows i w') {q : Request} {ts : List ℤ} (hq : Sent S w q ts) :
    Sent S w' q ts :=
  ⟨hg.fit hq.fit, fun t ht => hg.readings _ t (hq.times t ht), hg.begun _ hq.begun⟩

end Grows

/-! ### The invariant of the world -/

section Kept

variable {S : Setup} {store₀ : MemoryStore} {w w' : Timed} {i : Option Proc}
variable {q : Request} {ts : List ℤ} {tok : Token}

/-- The parts of the invariant that do not mention the history or the store survive every step
that only grows the world. -/
theorem Timed.Grows.own (hg : w.Grows i w') {y : Effect} {h : ℕ}
    (ho : ∃ c, w.world.helds h = some c ∧ y.session = c.first ∧ y.key = c.held.key) :
    ∃ c, w'.world.helds h = some c ∧ y.session = c.first ∧ y.key = c.held.key := by
  obtain ⟨c, hc, hs, hk⟩ := ho
  obtain ⟨c', hc', hsame, -⟩ := hg.cells h c hc
  exact ⟨c', hc', hs.trans hsame.first.symm, hk.trans (congrArg Held.key hsame.held).symm⟩

/-- **A fitting request follows the history.** -/
theorem Kept.follows (hw : Kept S w store₀) {world' : World} (hq : Fit S w q ts)
    (hl : w.world.Lands q tok world') : Follows S store₀ w.history ⟨q, tok, ts⟩ := by
  obtain ⟨hfresh, store', happly, -⟩ := hl
  unfold World.apply at happly
  -- the effect that bears the expected token is the last one of its key
  have hlast {h : ℕ} {c : Cell} {t : Token} {rec : Record} (key : q.key = c.held.key)
      (expected : q.expected = some t) (bears : Bears S w h c t rec) :
      ∃ x, latest q.key w.history = some x ∧ x.session = c.first ∧
        S.json.unmarshal x.body = .ok rec ∧ rec.state = .held := by
    rw [expected] at happly
    obtain ⟨⟨e, he, htok⟩, -, -⟩ := MemoryStore.replaceIfToken_ok happly
    obtain ⟨y, hy, ht, hs, hk, -, hrec, hheld⟩ := bears
    obtain ⟨x, hx⟩ := latest_isSome hy (hk.trans key.symm)
    rw [hw.store, stored_of_latest hx] at he
    cases he
    obtain rfl : x = y := hw.chronicle.eq_of_token_eq (mem_of_latest hx) hy (htok.trans ht.symm)
    exact ⟨x, hx, hs, hrec, hheld⟩
  cases hq with
  | create proc session expected times body =>
    rw [expected] at happly
    obtain ⟨habsent, -, -⟩ := MemoryStore.createIfAbsent_ok happly
    exact .created proc (Effect.session_of_none session) (by rw [← hw.store, habsent]) times body
  | replace proc session expected read replaced database times expired order body =>
    rw [expected] at happly
    obtain ⟨⟨e, he, htok⟩, -, -⟩ := MemoryStore.replaceIfToken_ok happly
    have hbody := read.2 e he htok
    exact .taken proc (Effect.session_of_none session) (by rw [← hw.store, he])
      (by rw [hbody, replaced]) database times expired order body
  | renew proc cell session key expected bears times cap order body =>
    obtain ⟨x, hx, hs, hrec, hheld⟩ := hlast key expected bears
    have hc := hw.cells _ _ cell
    obtain ⟨n, hmaker, hmanager⟩ := hc.maker
    obtain ⟨a, ha, t₀, ts₀, hat, -, hap, hats, hmax⟩ := hc.acquired
    have hduration : S.duration n = _ := congrArg (fun m : Manager => m.cfg.duration) hmanager.symm
    refine .renewed proc hx ((Effect.session_of_some session).trans hs.symm) hrec hheld times
      ⟨ha, hat.trans (Effect.session_of_some session).symm, hap.trans hmaker, hats⟩ ?_ ?_ ?_
    · rw [hduration, ← hmax]
      exact cap
    · rw [hduration]
      exact order
    · rw [hduration]
      exact body
  | release proc cell session key expected bears body =>
    obtain ⟨x, hx, hs, hrec, hheld⟩ := hlast key expected bears
    exact .released proc hx ((Effect.session_of_some session).trans hs.symm) hrec hheld body

theorem Timed.grows_lands (h : w.Lands q ts tok w') : w.Grows none w' := by
  obtain ⟨world', hl, rfl⟩ := h
  have hhelds := hl.helds_eq
  have hstore := hl.store_eq
  obtain ⟨hfresh, store', -, hworld⟩ := hl
  have hminted : world'.minted = tok :: w.world.minted := by rw [hworld]
  refine ⟨fun y hy => mem_cons_of_mem _ hy, ?_, fun _ _ h => h, fun _ _ => rfl, fun _ h => h,
    fun h c hc => ⟨c, hhelds ▸ hc, .refl c, id, fun _ => ⟨rfl, rfl, rfl⟩⟩,
    fun h c hc => .inl ⟨c, hhelds ▸ hc, .refl c⟩⟩
  rintro key t b ⟨ht, hb⟩
  refine ⟨hminted ▸ mem_cons_of_mem _ ht, fun e he het => ?_⟩
  rw [hstore] at he
  by_cases hk : key = q.key
  · subst hk
    rw [update_self, some.injEq] at he
    subst he
    obtain rfl : tok = t := het
    exact absurd ht hfresh
  · rw [update_of_ne hk] at he
    exact hb e he het

variable (hw : Kept S w store₀)
include hw

/-- The invariant survives a request that takes effect. -/
theorem Kept.lands (hq : Sent S w q ts) (h : w.Lands q ts tok w') : Kept S w' store₀ := by
  have hg := Timed.grows_lands h
  obtain ⟨world', hl, rfl⟩ := h
  have hfollows := hw.follows hq.fit hl
  have hhelds := hl.helds_eq
  have hstore := hl.store_eq
  obtain ⟨hfresh, store', -, hworld⟩ := hl
  have hminted : world'.minted = tok :: w.world.minted := by rw [hworld]
  have hinflight : world'.inflight = w.world.inflight := by rw [hworld]
  constructor
  · refine .cons hw.chronicle (fun x hx heq => hfresh ?_) hfollows
    obtain rfl : x.token = tok := heq
    exact hw.minted x hx
  · intro y hy
    rw [hminted]
    rcases mem_cons.mp hy with rfl | hy
    · exact mem_cons_self
    · exact mem_cons_of_mem _ (hw.minted y hy)
  · intro key e he
    rw [hstore] at he
    rw [hminted]
    by_cases hk : key = q.key
    · subst hk
      rw [update_self, some.injEq] at he
      subst he
      exact mem_cons_self
    · rw [update_of_ne hk] at he
      exact mem_cons_of_mem _ (hw.store_minted key e he)
  · intro key
    rw [hstore]
    by_cases hk : key = q.key
    · subst hk
      rw [update_self]
      have hlast : latest q.key (⟨q, tok, ts⟩ :: w.history) = some ⟨q, tok, ts⟩ :=
        latest_cons_of_eq rfl
      exact (stored_of_latest hlast).symm
    · rw [update_of_ne hk, hw.store]
      simp only [stored]
      rw [latest_cons_of_ne (fun heq : q.key = key => hk heq.symm)]
  · intro k c hc
    rw [hhelds] at hc
    have hb := hw.cells k c hc
    exact hg.backs (.refl c) hb (hg.bears (.refl c) hb.view) hb.ended
  · intro k c k' c' hc hc'
    rw [hhelds] at hc hc'
    exact hw.makers k c k' c' hc hc'
  · intro p hp
    rw [hinflight] at hp
    exact hg.sent (hw.inflight p hp)
  · intro y hy
    rcases mem_cons.mp hy with rfl | hy
    · exact hq.times
    · exact hw.times y hy
  · intro y hy
    rcases mem_cons.mp hy with rfl | hy
    · exact hq.begun
    · exact hw.begun y hy
  · intro y hy k hk
    refine hg.own ?_
    rcases mem_cons.mp hy with rfl | hy
    · have hk : q.proc.WorksFor k := hk
      cases hq.fit with
      | create proc | replace proc =>
        rw [proc] at hk
        exact hk.elim
      | renew proc cell session key | release proc cell session key =>
        rw [proc] at hk
        obtain rfl := hk
        exact ⟨_, cell, Effect.session_of_some session, key⟩
    · exact hw.own y hy k hk
  · exact hw.sorted
  · intro j t ht
    obtain ⟨k, hk, hle⟩ := hw.read j t ht
    exact ⟨k, hg.site hk, hle⟩
  · exact hw.unread

/-- The invariant survives every answer to a conditional write, and a success is an effect. -/
theorem Kept.answersWrite {r : Except StoreErr Token} (hq : Sent S w q (w.readings q.proc))
    (h : w.AnswersWrite q r w') :
    Kept S w' store₀ ∧ w.Grows none w' ∧
      ∀ tok, r = .ok tok → ⟨q, tok, w.readings q.proc⟩ ∈ w'.history := by
  rcases h with ⟨tok, hl, hr⟩ | ⟨e, rfl, rfl⟩
  · refine ⟨hw.lands hq hl, Timed.grows_lands hl, ?_⟩
    rintro t rfl
    obtain ⟨world', -, rfl⟩ := hl
    rcases hr with hr | ⟨e, he⟩
    · rw [Except.ok.inj hr]
      exact mem_cons_self
    · cases he
  · have hg : w.Grows none { w with
        world := { w.world with inflight := q :: w.world.inflight }
        sent := w.readings q.proc :: w.sent } := .of_eq rfl rfl rfl rfl rfl fun _ h => h
    refine ⟨{ hw with cells := ?_, inflight := ?_ }, hg, nofun⟩
    · intro k c hc
      have hb := hw.cells k c hc
      exact hg.backs (.refl c) hb (hg.bears (.refl c) hb.view) hb.ended
    intro p hp
    rw [zip_cons_cons] at hp
    rcases mem_cons.mp hp with rfl | hp
    · exact hg.sent hq
    · exact hg.sent (hw.inflight p hp)

theorem Kept.now {j : Proc} {k : ℕ} (hk : w.site S j = some k) (hj : j ∈ w.begun)
    (h : w' = { w with readings := update w.readings j (w.clock k :: w.readings j) }) :
    Kept S w' store₀ ∧ w.Grows (some j) w' := by
  subst h
  have hmem (p : Proc) (t : ℤ) (ht : t ∈ w.readings p) :
      t ∈ update w.readings j (w.clock k :: w.readings j) p := by
    by_cases hp : p = j
    · subst hp
      rw [update_self]
      exact mem_cons_of_mem _ ht
    · rwa [update_of_ne hp]
  have hg : w.Grows (some j)
      { w with readings := update w.readings j (w.clock k :: w.readings j) } := by
    refine ⟨fun _ h => h, id, hmem, fun p hp => ?_, fun _ h => h,
      fun h c hc => ⟨c, hc, .refl c, id, fun _ => ⟨rfl, rfl, rfl⟩⟩,
      fun h c hc => .inl ⟨c, hc, .refl c⟩⟩
    exact update_of_ne (fun heq => hp (congrArg some heq)) ..
  refine ⟨{ hw with
    cells := ?_
    inflight := ?_
    times := ?_
    sorted := ?_
    read := ?_
    unread := ?_ }, hg⟩
  · intro h c hc
    have hb := hw.cells h c hc
    exact hg.backs (.refl c) hb (hg.bears (.refl c) hb.view) hb.ended
  · exact fun p hp => hg.sent (hw.inflight p hp)
  · exact fun y hy t ht => hmem _ t (hw.times y hy t ht)
  · intro hmono p
    by_cases hp : p = j
    · subst hp
      simp only [update_self]
      refine pairwise_cons.mpr ⟨fun t ht => ?_, hw.sorted hmono p⟩
      obtain ⟨k', hk', hle⟩ := hw.read p t ht
      cases hk.symm.trans hk'
      exact hle hmono
    · simp only [update_of_ne hp]
      exact hw.sorted hmono p
  · intro p t ht
    have hold (ht : t ∈ w.readings p) :
        ∃ k', w.site S p = some k' ∧ (S.Monotone → t ≤ w.clock k') := hw.read p t ht
    by_cases hp : p = j
    · subst hp
      simp only [update_self] at ht
      rcases mem_cons.mp ht with rfl | ht
      · exact ⟨k, hk, fun _ => Int.le_refl _⟩
      · exact hold ht
    · simp only [update_of_ne hp] at ht
      exact hold ht
  · intro p hp
    have hne : p ≠ j := fun heq => hp (heq ▸ hj)
    simp only [update_of_ne hne]
    exact hw.unread p hp

/-- A critical section of a lease that leaves its record and token alone, or leaves in it a record
that was stored for it. -/
theorem Kept.updates {j : Proc} {held : Held} {f : HeldState → HeldState} {c₀ : Cell} {h₀ : ℕ}
    (hc₀ : w.world.helds h₀ = some c₀) (hheld : c₀.held = held) {world' : World}
    (h : w.world.Updates held f world') (hended : ∀ st, st.ended = true → (f st).ended = true)
    (hnew : (f c₀.state).ended = true → c₀.state.ended = true ∨ .renew h₀ ∈ w.begun)
    (hf : (j ≠ .renew h₀ ∧ ∀ st, (f st).record = st.record ∧ (f st).version = st.version ∧
        (f st).ended = st.ended) ∨
      j = .renew h₀ ∧ Bears S w h₀ c₀ (f c₀.state).version (f c₀.state).record) :
    Kept S { w with world := world' } store₀ ∧ w.Grows (some j) { w with world := world' } ∧
      world'.helds h₀ = some { c₀ with state := f c₀.state } := by
  have hid : held.id = h₀ := by rw [← hheld, (hw.cells h₀ c₀ hc₀).id]
  obtain ⟨c, hc, rfl⟩ := h
  rw [hid] at hc ⊢
  obtain rfl : c₀ = c := some.inj (hc₀.symm.trans hc)
  clear hc
  -- every lease is one of the old world, and only the state of `h₀` has changed
  have hold (h : ℕ) (c' : Cell)
      (hc' : update w.world.helds h₀ (some { c₀ with state := f c₀.state }) h = some c') :
      ∃ c, w.world.helds h = some c ∧ c'.Same c ∧
        (h = h₀ ∧ c'.state = f c.state ∨ c'.state = c.state) := by
    by_cases hh : h = h₀
    · subst hh
      rw [update_self, some.injEq] at hc'
      subst hc'
      exact ⟨c₀, hc₀, ⟨rfl, rfl, rfl, rfl⟩, .inl ⟨rfl, rfl⟩⟩
    · rw [update_of_ne hh] at hc'
      exact ⟨c', hc', .refl c', .inr rfl⟩
  have hg : w.Grows (some j) { w with world := { w.world with
      helds := update w.world.helds h₀ (some { c₀ with state := f c₀.state }) } } := by
    refine ⟨fun _ h => h, id, fun _ _ h => h, fun _ _ => rfl, fun _ h => h, fun h c hc => ?_,
      fun h c' hc' => .inl ?_⟩
    · by_cases hh : h = h₀
      · subst hh
        obtain rfl : c = c₀ := some.inj (hc.symm.trans hc₀)
        refine ⟨_, update_self .., ⟨rfl, rfl, rfl, rfl⟩, hended _, fun hne => ?_⟩
        rcases hf with ⟨-, hf⟩ | ⟨rfl, -⟩
        · exact hf _
        · exact absurd rfl hne
      · exact ⟨c, (update_of_ne hh ..).trans hc, .refl c, id, fun _ => ⟨rfl, rfl, rfl⟩⟩
    · obtain ⟨c, hc, hsame, -⟩ := hold h c' hc'
      exact ⟨c, hc, hsame⟩
  refine ⟨{ hw with
    cells := ?_
    makers := ?_
    inflight := ?_
    own := ?_
    read := ?_ }, hg, update_self ..⟩
  · intro h c' hc'
    obtain ⟨c, hc, hsame, ⟨rfl, hstate⟩ | hstate⟩ := hold h c' hc'
    · obtain rfl : c = c₀ := some.inj (hc.symm.trans hc₀)
      have hb := hw.cells h c hc
      refine hg.backs hsame hb (hg.bears hsame ?_) fun hend => ?_
      · rw [hstate]
        rcases hf with ⟨-, hf⟩ | ⟨-, hbears⟩
        · rw [(hf c.state).1, (hf c.state).2.1]
          exact hb.view
        · exact hbears
      · rw [hstate] at hend
        exact (hnew hend).elim hb.ended id
    · have hb := hw.cells h c hc
      refine hg.backs hsame hb (hg.bears hsame ?_) ?_
      · rw [hstate]
        exact hb.view
      · rw [hstate]
        exact hb.ended
  · intro h c h' c' hc hc' hmaker
    obtain ⟨d, hd, hsame, -⟩ := hold h c hc
    obtain ⟨d', hd', hsame', -⟩ := hold h' c' hc'
    exact hw.makers h d h' d' hd hd' (by rw [← hsame.maker, ← hsame'.maker, hmaker])
  · exact fun p hp => hg.sent (hw.inflight p hp)
  · exact fun y hy h hh => hg.own (hw.own y hy h hh)
  · intro p t ht
    obtain ⟨k, hk, hle⟩ := hw.read p t ht
    exact ⟨k, hg.site hk, hle⟩

/-- An acquirer wraps the record of its last write. -/
theorem Kept.newHeld {n : ℕ} {held : Held} {key : String} {rec : Record} {body : Bytes} {y : Effect}
    (hn : .acquire n ∈ w.begun) (hnone : ∀ h c, w.world.helds h = some c → c.maker ≠ .acquire n)
    (hy : y ∈ w.history) (hproc : y.proc = .acquire n) (htok : y.token = tok)
    (hsession : y.session = tok) (hykey : y.key = key) (hybody : y.body = body)
    (hbody : S.json.marshal rec = .ok body) (hfree : w.world.helds held.id = none)
    (hkey : held.key = key) (hmax : held.maxExpiry = rec.expiresAt + 2 * S.duration n) {c : Cell}
    (hc : c = ⟨held, ⟨rec, tok, false, false, false⟩, S.manager (S.site n), .acquire n, tok⟩)
    (h : w' = { w with world := { w.world with helds := update w.world.helds held.id (some c) } }) :
    Kept S w' store₀ ∧ w.Grows (some (.acquire n)) w' ∧ w'.world.helds held.id = some c := by
  subst h
  have hupd (h : ℕ) (c' : Cell) (hc' : update w.world.helds held.id (some c) h = some c') :
      (h = held.id ∧ c' = c) ∨ w.world.helds h = some c' := by
    by_cases hh : h = held.id
    · subst hh
      rw [update_self, some.injEq] at hc'
      exact .inl ⟨rfl, hc'.symm⟩
    · rw [update_of_ne hh] at hc'
      exact .inr hc'
  have hg : w.Grows (some (.acquire n)) { w with world := { w.world with
      helds := update w.world.helds held.id (some c) } } := by
    refine ⟨fun _ h => h, id, fun _ _ h => h, fun _ _ => rfl, fun _ h => h, fun h c' hc' => ?_,
      fun h c' hc' => ?_⟩
    · have hh : h ≠ held.id := by
        rintro rfl
        rw [hfree] at hc'
        cases hc'
      exact ⟨c', (update_of_ne hh ..).trans hc', .refl c', id, fun _ => ⟨rfl, rfl, rfl⟩⟩
    · rcases hupd h c' hc' with ⟨-, rfl⟩ | hc'
      · exact .inr (by rw [hc])
      · exact .inl ⟨c', hc', .refl c'⟩
  have hunmarshal : S.json.unmarshal y.body = .ok rec := hybody ▸ S.json.unmarshal_marshal hbody
  have hheld : rec.state = .held := by
    refine (hw.chronicle.held_iff hy hunmarshal).mpr ?_
    rw [hproc]
    exact nofun
  refine ⟨{ hw with
    cells := ?_
    makers := ?_
    inflight := ?_
    own := ?_
    read := ?_ }, hg, update_self ..⟩
  · intro h c' hc'
    rcases hupd h c' hc' with ⟨rfl, rfl⟩ | hc'
    · subst hc
      have hview : Bears S w held.id ⟨held, ⟨rec, tok, false, false, false⟩,
          S.manager (S.site n), .acquire n, tok⟩ tok rec :=
        ⟨y, hy, htok, hsession, hykey.trans hkey.symm, .inl hproc, hunmarshal, hheld⟩
      obtain ⟨a, ha, n', t, ts, -, -, hat, hap, htimes, -, hexp, -⟩ :=
        hw.chronicle.expiry_eq hy hunmarshal hheld
      obtain rfl : a = y := hw.chronicle.eq_of_token_eq ha hy (hat.trans (hsession.trans htok.symm))
      obtain rfl : n' = n := Proc.acquire.inj (hap.symm.trans hproc)
      refine ⟨rfl, ⟨n', rfl, rfl⟩, hn, hg.bears (.refl _) hview, ?_, nofun⟩
      refine ⟨a, ha, t, ts, htok, hykey.trans hkey.symm, hproc, htimes, ?_⟩
      change held.maxExpiry = t + 3 * S.duration n'
      rw [hmax, hexp]
      omega
    · have hb := hw.cells h c' hc'
      exact hg.backs (.refl c') hb (hg.bears (.refl c') hb.view) hb.ended
  · intro h₁ c₁ h₂ c₂ hc₁ hc₂ hmaker
    rcases hupd h₁ c₁ hc₁ with ⟨rfl, rfl⟩ | hd₁ <;> rcases hupd h₂ c₂ hc₂ with ⟨rfl, rfl⟩ | hd₂
    · rfl
    · refine absurd hmaker.symm ?_
      rw [hc]
      exact hnone h₂ c₂ hd₂
    · refine absurd hmaker ?_
      rw [hc]
      exact hnone h₁ c₁ hd₁
    · exact hw.makers h₁ c₁ h₂ c₂ hd₁ hd₂ hmaker
  · exact fun p hp => hg.sent (hw.inflight p hp)
  · exact fun y hy h hh => hg.own (hw.own y hy h hh)
  · intro p t ht
    obtain ⟨k, hk, hle⟩ := hw.read p t ht
    exact ⟨k, hg.site hk, hle⟩

theorem Kept.start (j : Proc) : Kept S (w.start j) store₀ ∧ w.Grows none (w.start j) := by
  have hg : w.Grows none (w.start j) := .of_eq rfl rfl rfl rfl rfl fun _ h => mem_cons_of_mem _ h
  refine ⟨{ hw with
    cells := ?_
    inflight := ?_
    begun := ?_
    unread := ?_ }, hg⟩
  · intro h c hc
    have hb := hw.cells h c hc
    exact hg.backs (.refl c) hb (hg.bears (.refl c) hb.view) fun hend => hg.begun _ (hb.ended hend)
  · exact fun p hp => hg.sent (hw.inflight p hp)
  · exact fun y hy => hg.begun _ (hw.begun y hy)
  · exact fun p hp => hw.unread p fun hmem => hp (hg.begun p hmem)

theorem Kept.tick {clock : ℕ → ℤ} (h : S.tick w.clock clock) :
    Kept S { w with clock } store₀ ∧ w.Grows none { w with clock } := by
  have hg : w.Grows none { w with clock } := .of_eq rfl rfl rfl rfl rfl fun _ h => h
  refine ⟨{ hw with
    cells := ?_
    inflight := ?_
    read := ?_ }, hg⟩
  · intro h c hc
    have hb := hw.cells h c hc
    exact hg.backs (.refl c) hb (hg.bears (.refl c) hb.view) hb.ended
  · exact fun p hp => hg.sent (hw.inflight p hp)
  intro p t ht
  obtain ⟨k, hk, hle⟩ := hw.read p t ht
  exact ⟨k, hk, fun hmono => Int.le_trans (hle hmono) (hmono _ _ h k)⟩

end Kept

end Walrusd.Lease
