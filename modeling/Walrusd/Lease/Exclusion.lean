import Walrusd.Lease.Fencing

/-!
# A released lease was never interrupted

The token in the store belongs to the one acquisition that may still write. Renewals rotate the
token and takeovers replace it, so a lease that could be released with its own token had the key
for itself from its acquisition on. The argument uses no clock: expiry decides only when a
takeover is attempted.

A run without clocks is what clocks that may move anywhere leave of a run with clocks, so the
history of its writes is a `Chronicle`.

## Main results

* `exists_timed` — every run of `system` is a run with clocks.
* `release_exclusive` — between the write of an acquisition and the write of its successful release
  no acquisition of the key took effect.
* `released_disjoint` — two released acquisitions of one key are disjoint.
-/

namespace Walrusd.Lease

open Program Function List

/-! ### Clocks for a run without clocks -/

/-- Acquisition `n` works with the manager `manager n`, the clocks may move anywhere, and a write
may take effect after its call was answered. -/
def free (json : RecordJson) (manager : ℕ → Manager) : Setup where
  json := json
  manager := manager
  site := id
  tick := fun _ _ => True
  late := True

/-- An effect as a fenced write. -/
def Effect.entry (y : Effect) : Fence.Write String Token Proc := World.entry y.request y.token

/-- The log of the world is its history, and the readings of every request in flight are known. -/
structure Timed.Mirrors (w : Timed) : Prop where
  log : w.world.log = w.history.map Effect.entry
  sent : w.sent.length = w.world.inflight.length

section Timing

variable {S : Setup} {json : RecordJson} {store : MemoryStore} {minted : List Token}
  {clock : ℕ → ℤ} {manager : ℕ → Manager} {w w' : Timed} {i : Proc} {c : Op} {r : Resp c}

theorem Timed.Mirrors.lands (hm : w.Mirrors) {q : Request} {ts : List ℤ} {tok : Token}
    (h : w.Lands q ts tok w') : w'.Mirrors := by
  obtain ⟨world', ⟨-, store', -, rfl⟩, rfl⟩ := h
  exact ⟨congrArg (_ :: ·) hm.log, hm.sent⟩

/-- A process that issues a call has a clock. -/
theorem Setup.site_of_call (hminted : ∀ t, store.Tokens t → t ∈ minted)
    {a : Pool Timed Proc Op Resp Outcome} (h : S.system.Reachable (.initial store minted clock) a)
    {k : Resp c → LeaseM Outcome} (hi : a.procs i = some (.call c k)) :
    ∃ n, a.world.site S i = some n := by
  obtain ⟨hw, hknows⟩ := S.reachable_kept hminted h
  obtain ⟨p, hp, hobeys⟩ := hknows i
  have hkeeper {n : ℕ} {cell : Cell} (hc : a.world.world.helds n = some cell) :
      ∃ k, a.world.site S (.renew n) = some k := by
    obtain ⟨k, hmaker, -⟩ := (hw.cells n cell hc).maker
    obtain ⟨held, state, m, maker, first⟩ := cell
    obtain rfl : maker = .acquire k := hmaker
    exact ⟨S.site k, by simp [Timed.site, hc]⟩
  cases p with
  | idle => exact (hobeys _ hi).1.elim
  | acquirer m s =>
    obtain ⟨-, n, rfl, -⟩ := hp
    exact ⟨_, rfl⟩
  | renewer m s =>
    obtain ⟨-, n, cell, rfl, hc, -⟩ := hp
    exact hkeeper hc
  | closer releasing s =>
    obtain ⟨-, n, k, cell, rfl, hc, -⟩ := hp
    cases releasing <;> exact hkeeper hc

/-- Whatever answers a call in the world, clocks can be set that answer it so. -/
theorem exists_answer (hm : w.Mirrors) {n : ℕ} (hsite : w.site S i = some n) {world' : World}
    (h : w.world.answer i c r world') : ∃ clock w', Timed.answer S { w with clock } i c r w' ∧
      w'.world = world' ∧ w'.Mirrors := by
  have hwrite {q : Request} {r : Except StoreErr Token} (h : w.world.AnswersWrite q r world') :
      ∃ clock w', Timed.AnswersWrite { w with clock } q r w' ∧ w'.world = world' ∧ w'.Mirrors := by
    rcases h with ⟨tok, hl, hr⟩ | ⟨e, he, rfl⟩
    · exact ⟨w.clock, _, .inl ⟨tok, ⟨world', hl, rfl⟩, hr⟩, rfl, hm.lands ⟨world', hl, rfl⟩⟩
    · exact ⟨w.clock, _, .inr ⟨e, he, rfl⟩, rfl, hm.log, congrArg (· + 1) hm.sent⟩
  cases c with
  | now =>
    obtain rfl : world' = w.world := h
    exact ⟨fun _ => r, _, ⟨⟨n, hsite, rfl⟩, rfl⟩, rfl, hm.log, hm.sent⟩
  | createIfAbsent | replaceIfToken => exact hwrite h
  | setRenewed | markLost | closeDone =>
    simp only [World.answer] at h
    obtain ⟨cell, hc, rfl⟩ := h
    exact ⟨w.clock, _, ⟨_, ⟨cell, hc, rfl⟩, rfl⟩, rfl, hm.log, hm.sent⟩
  | closeStop =>
    obtain ⟨hopen, cell, hc, rfl⟩ := h
    exact ⟨w.clock, _, ⟨_, ⟨hopen, cell, hc, rfl⟩, rfl⟩, rfl, hm.log, hm.sent⟩
  | newHeld =>
    obtain ⟨hfree, hkey, hexpiry, rfl⟩ := h
    exact ⟨w.clock, _, ⟨_, ⟨hfree, hkey, hexpiry, rfl⟩, rfl⟩, rfl, hm.log, hm.sent⟩
  | get | snapshot | awaitStopOrTick | isStopped | awaitDone =>
    obtain ⟨hr, rfl⟩ := h
    exact ⟨w.clock, w, ⟨_, ⟨hr, rfl⟩, rfl⟩, rfl, hm⟩
  | _ =>
    obtain rfl : world' = w.world := h
    exact ⟨w.clock, w, ⟨_, rfl, rfl⟩, rfl, hm⟩

/-- **Every run is a run with clocks**, for any managers that agree with those of the acquisitions
that have started. -/
theorem exists_timed (hminted : ∀ t, store.Tokens t → t ∈ minted)
    {a : Pool World Proc Op Resp Outcome} (h : (system json).Reachable (.initial store minted) a) :
    ∃ manager : ℕ → Manager, ∀ manager' : ℕ → Manager,
      (∀ n, (a.procs (.acquire n)).isSome = true → manager' n = manager n) →
      ∃ w : Timed, (free json manager').system.Reachable (.initial store minted fun _ => 0)
        ⟨w, a.procs⟩ ∧ w.world = a.world ∧ w.Mirrors := by
  induction h with
  | init => exact ⟨fun _ => newManager "" defaultConfig none, fun _ _ => ⟨_, .init, rfl, rfl, rfl⟩⟩
  | step _ hs ih =>
    obtain ⟨manager, hlift⟩ := ih
    have hkeep {procs : Proc → Option (LeaseM Outcome)} {i j : Proc} {p : LeaseM Outcome}
        (hj : (procs j).isSome = true) : (update procs i (some p) j).isSome = true :=
      imp_update (P := fun o => Option.isSome o = true) (fun _ => rfl) hj
    cases hs with
    | @start w procs i p w' hi hp =>
      have hbegin {manager' : ℕ → Manager} {t : Timed} (ht : (free json manager').system.Reachable
          (.initial store minted fun _ => 0) ⟨t, procs⟩) (hm : t.Mirrors)
          (hb : Begins (free json manager') t i p (t.start i)) :
          ∃ t' : Timed, (free json manager').system.Reachable (.initial store minted fun _ => 0)
            ⟨t', update procs i (some p)⟩ ∧ t'.world = t.world ∧ t'.Mirrors := by
        have hnew : i ∉ t.begun := fun hmem => by
          simpa [hi] using (Setup.begun_iff ht i).mp hmem
        exact ⟨t.start i, ht.step (.start hi ⟨hnew, hb⟩), rfl, hm.log, hm.sent⟩
      have hnamed {n : ℕ} {m : Manager} {manager' : ℕ → Manager} (hn : i = .acquire n)
          (hagree : ∀ k, (update procs i (some p) (.acquire k)).isSome = true →
            manager' k = update manager n m k) (k : ℕ)
          (hk : (procs (.acquire k)).isSome = true) : manager' k = manager k := by
        have hne : k ≠ n := by
          rintro rfl
          rw [← hn, hi] at hk
          cases hk
        rw [hagree k (hkeep hk), update_of_ne hne]
      have hsame {manager' : ℕ → Manager} (hagree : ∀ n,
          (update procs i (some p) (.acquire n)).isSome = true → manager' n = manager n) :=
        hlift manager' fun n hn => hagree n (hkeep hn)
      cases hp with
      | acquire n m rounds db rootPrefix | acquireKey n m rounds db key =>
        refine ⟨update manager n m, fun manager' hagree => ?_⟩
        obtain ⟨t, ht, rfl, hm⟩ := hlift manager' (hnamed rfl hagree)
        obtain rfl : manager' n = m := by simpa using hagree n (by simp)
        first
          | exact hbegin ht hm (.acquire t n rounds db rootPrefix)
          | exact hbegin ht hm (.acquireKey t n rounds db key)
      | renew hc rounds =>
        refine ⟨manager, fun manager' hagree => ?_⟩
        obtain ⟨t, ht, rfl, hm⟩ := hsame hagree
        exact hbegin ht hm (.renew hc rounds)
      | release hc n =>
        refine ⟨manager, fun manager' hagree => ?_⟩
        obtain ⟨t, ht, rfl, hm⟩ := hsame hagree
        exact hbegin ht hm (.release hc n)
      | abandon hc n =>
        refine ⟨manager, fun manager' hagree => ?_⟩
        obtain ⟨t, ht, rfl, hm⟩ := hsame hagree
        exact hbegin ht hm (.abandon hc n)
    | @call w procs i c k r w' hi hr =>
      refine ⟨manager, fun manager' hagree => ?_⟩
      obtain ⟨t, ht, rfl, hm⟩ := hlift manager' fun n hn => hagree n (hkeep hn)
      obtain ⟨n, hsite⟩ := Setup.site_of_call hminted ht hi
      obtain ⟨clock, t', hr', hw', hm'⟩ := exists_answer hm hsite hr
      have htick := ht.step (.env (.inr ⟨clock, trivial, rfl⟩))
      exact ⟨t', htick.step (.call hi hr'), hw', hm'⟩
    | env he =>
      refine ⟨manager, fun manager' hagree => ?_⟩
      obtain ⟨t, ht, rfl, hm⟩ := hlift manager' hagree
      obtain ⟨q, hq, tok, hl⟩ := he
      rw [← map_fst_zip hm.sent.ge] at hq
      obtain ⟨⟨q, ts⟩, hmem, rfl⟩ := mem_map.mp hq
      exact ⟨_, ht.step (.env (.inl ⟨trivial, _, hmem, tok, _, hl, rfl⟩)), rfl,
        hm.lands ⟨_, hl, rfl⟩⟩

end Timing

/-! ### Reachable pools -/

section Reachable

variable {json : RecordJson} {store : MemoryStore} {minted : List Token}
  {a : Pool World Proc Op Resp Outcome}
variable {n k : ℕ} {held : Held}

/-- A session that was taken over before the effects `post` made none of them. -/
theorem Chronicle.silenced {S : Setup} {post pre : List Effect} {z a : Effect}
    (h : Chronicle S store (post ++ z :: pre)) (ha : a ∈ pre) (hz : z.session = z.token) :
    ∀ y ∈ z :: post, y.key = z.key → y.session ≠ a.token := by
  cases h.suffix (suffix_append post (z :: pre)) with
  | cons hpre fresh hfollows =>
    have hne : z.session ≠ a.token := fun heq => fresh a ha (heq.symm.trans hz)
    have hclosed : Closed z.key a.token (z :: pre) :=
      ⟨z, latest_cons_of_eq rfl, fun heq => absurd heq hne⟩
    intro y hy hk
    rcases mem_cons.mp hy with rfl | hy
    · exact hne
    · exact (h.closed_append (mem_cons_of_mem _ ha) hclosed).1 y hy hk

/-- Of two sessions of a key, what the one that began first has written precedes the other. -/
theorem Chronicle.precedes {S : Setup} {post pre : List Effect} {z a y : Effect}
    (h : Chronicle S store (post ++ z :: pre)) (ha : a ∈ pre) (hz : z.session = z.token)
    (hy : y ∈ post ++ z :: pre) (hk : y.key = z.key) (hs : y.session = a.token) :
    [z, y].Sublist (post ++ z :: pre) := by
  have hsilent := h.silenced ha hz
  have hpre : y ∈ pre := by
    rcases mem_append.mp hy with hy | hy
    · exact absurd hs (hsilent y (mem_cons_of_mem _ hy) hk)
    refine (mem_cons.mp hy).resolve_left ?_
    rintro rfl
    exact hsilent y mem_cons_self hk hs
  exact ((singleton_sublist.mpr hpre).cons_cons z).trans (sublist_append_right post _)

/-- The writes of an acquisition and of its release: the write with which process `n` acquired the
lease `held`, and the write with which call `k` of `Release` released it. -/
structure ReleasedBy (w : World) (n k : ℕ) (held : Held)
    (acq rel : Fence.Write String Token Proc) : Prop where
  acq_proc : acq.proc = .acquire n
  acq_key : acq.key = held.key
  acq_first : ∃ c, w.helds held.id = some c ∧ c.held = held ∧ c.first = acq.token
  rel_proc : rel.proc = .release held.id k
  rel_key : rel.key = held.key

/-- A lease that was acquired and released without an error has its two writes in the history. -/
theorem released_effects (hminted : ∀ t, store.Tokens t → t ∈ minted) {S : Setup} {w : Timed}
    {clock : ℕ → ℤ} {procs : Proc → Option (LeaseM Outcome)}
    (h : S.system.Reachable (.initial store minted clock) ⟨w, procs⟩)
    (hacq : procs (.acquire n) = some (.done (.acquired (.ok held))))
    (hrel : procs (.release held.id k) = some (.done (.released none))) :
    ∃ x ∈ w.history, ∃ y ∈ w.history, ReleasedBy w.world n k held x.entry y.entry ∧
      x.session = x.token ∧ y.session = x.token := by
  obtain ⟨hkept, hknows⟩ := S.reachable_kept hminted h
  obtain ⟨p, hp, hobeys⟩ := hknows (.acquire n)
  obtain ⟨m, s, rfl, hmade⟩ : ∃ m, Made m p (.ok held) := hobeys _ hacq
  obtain ⟨-, n', hn, hs⟩ := hp
  obtain rfl := Proc.acquire.inj hn
  obtain ⟨c, hc, rfl, hmaker⟩ := hs.made held hmade
  obtain ⟨x, hx, t₀, ts₀, htok, hxkey, hxproc, -⟩ := (hkept.cells _ c hc).acquired
  obtain ⟨y, hy, hproc⟩ := S.effect_of_released hminted h hrel
  have hworks : y.proc.WorksFor c.held.id := hproc ▸ rfl
  obtain ⟨c', hc', hys, hykey⟩ := hkept.own y hy c.held.id hworks
  cases hc.symm.trans hc'
  have hacquired := hxproc.trans hmaker
  obtain ⟨pre, -, hfollows⟩ := hkept.chronicle.follows hx
  exact ⟨x, hx, y, hy, ⟨hacquired, hxkey, ⟨c, hc, rfl, htok.symm⟩, hproc, hykey⟩,
    hfollows.session_of_acquire (isAcquire_iff.mpr ⟨_, hacquired⟩), hys.trans htok.symm⟩

variable (hminted : ∀ t, store.Tokens t → t ∈ minted)
  (h : (system json).Reachable (World.initial store minted) a)
include hminted h

variable (hacq : a.procs (.acquire n) = some (.done (.acquired (.ok held))))
  (hrel : a.procs (.release held.id k) = some (.done (.released none)))
include hacq hrel

/-- **A released lease was never interrupted.** Between the write of an acquisition and the write
of its successful release, no acquisition of the key took effect in the store. -/
theorem release_exclusive :
    ∃ acq rel post mid pre, ReleasedBy a.world n k held acq rel ∧
      a.world.log = post ++ rel :: (mid ++ acq :: pre) ∧
      ∀ e ∈ mid, e.key = held.key → ∀ n', e.proc ≠ .acquire n' := by
  obtain ⟨manager, hlift⟩ := exists_timed hminted h
  obtain ⟨w, hw, hworld, hm⟩ := hlift manager fun _ _ => rfl
  have hchron := (Setup.reachable_kept hminted hw).1.chronicle
  obtain ⟨x, hx, y, hy, hby, hown, hs⟩ := released_effects hminted hw hacq hrel
  rw [← hworld, hm.log]
  -- a release comes after the acquisition of its session
  obtain ⟨post, rest, hrest⟩ := append_of_mem hy
  rw [hrest] at hchron hx ⊢
  obtain ⟨o, ho, htok, -⟩ := (hchron.suffix (suffix_append post _)).origin mem_cons_self
  obtain rfl : o = x := hchron.eq_of_token_eq (mem_append_right post ho) hx (htok.trans hs)
  have hne : o ≠ y := by
    rintro rfl
    cases hby.acq_proc.symm.trans hby.rel_proc
  obtain ⟨mid, pre, rfl⟩ := append_of_mem ((mem_cons.mp ho).resolve_left hne)
  refine ⟨o.entry, y.entry, post.map Effect.entry, mid.map Effect.entry, pre.map Effect.entry, hby,
    by simp, fun e he hk n' hn' => ?_⟩
  obtain ⟨z, hz, rfl⟩ := mem_map.mp he
  obtain ⟨later, earlier, rfl⟩ := append_of_mem hz
  have hsplit : post ++ y :: (later ++ z :: earlier ++ o :: pre) =
      (post ++ y :: later) ++ z :: (earlier ++ o :: pre) := by simp
  rw [hsplit] at hchron
  obtain ⟨_, -, hfollows⟩ := hchron.follows (y := z) (by simp)
  refine hchron.silenced (by simp) (hfollows.session_of_acquire (isAcquire_iff.mpr ⟨n', hn'⟩)) y
    (by simp) ?_ hs
  exact hby.rel_key.trans hk.symm

/-- **Released acquisitions are disjoint.** Of two acquisitions of one key that were both
released, one was released before the other took effect. -/
theorem released_disjoint {n' k' : ℕ} {held' : Held}
    (hacq' : a.procs (.acquire n') = some (.done (.acquired (.ok held'))))
    (hrel' : a.procs (.release held'.id k') = some (.done (.released none))) (hn : n ≠ n')
    (hkey : held.key = held'.key) :
    ∃ acq rel acq' rel', ReleasedBy a.world n k held acq rel ∧
      ReleasedBy a.world n' k' held' acq' rel' ∧
      (Fence.Before a.world.log rel acq' ∨ Fence.Before a.world.log rel' acq) := by
  obtain ⟨manager, hlift⟩ := exists_timed hminted h
  obtain ⟨w, hw, hworld, hm⟩ := hlift manager fun _ _ => rfl
  have hchron := (Setup.reachable_kept hminted hw).1.chronicle
  obtain ⟨x, hx, y, hy, hby, hown, hs⟩ := released_effects hminted hw hacq hrel
  obtain ⟨x', hx', y', hy', hby', hown', hs'⟩ := released_effects hminted hw hacq' hrel'
  rw [← hworld, hm.log]
  refine ⟨x.entry, y.entry, x'.entry, y'.entry, hby, hby', ?_⟩
  have hne : x' ≠ x := by
    rintro rfl
    exact hn (Proc.acquire.inj (hby.acq_proc.symm.trans hby'.acq_proc))
  have hyk : y.key = x'.key := hby.rel_key.trans (hkey.trans hby'.acq_key.symm)
  have hyk' : y'.key = x.key := hby'.rel_key.trans (hkey.symm.trans hby.acq_key.symm)
  obtain ⟨post, pre, hpre⟩ := append_of_mem hx
  rw [hpre] at hchron hx' hy hy' ⊢
  rcases mem_append.mp hx' with hx' | hx'
  · obtain ⟨later, earlier, rfl⟩ := append_of_mem hx'
    rw [append_assoc, cons_append] at hchron hy ⊢
    exact .inl ((hchron.precedes (by simp) hown' hy hyk hs).map Effect.entry)
  · have hmem := (mem_cons.mp hx').resolve_left hne
    exact .inr ((hchron.precedes hmem hown hy' hyk' hs').map Effect.entry)

end Reachable

end Walrusd.Lease
