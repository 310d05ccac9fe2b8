import Walrusd.Lifecycle.Tended

/-!
# When a VFS is unregistered

`Database.Close` unregisters the VFSs of a database that nobody holds any more. The references of
the registry count the calls of the runtime, and the eviction by which the teardown begins closes
the cached sessions. Two kinds of users are outside of both: the files that the host has opened
through a DSN, and the sessions that another goroutine has taken out of the read cache and has not
closed yet.

## Main results

* `unregistered_idle_iff` — a VFS that is about to be unregistered is idle exactly if there are no
  users of these two kinds.
* `unregistered_in_use` — both kinds occur.
-/

namespace Walrusd.Lifecycle

open Program Walrusd.Runtime List

variable {ι B : Type} [DecidableEq ι]

/-- The programs of the calls of one runtime. -/
def Calls (json : Litestream.ManifestJson B) (cfg : Config) (p : LifeM B Unit) : Prop :=
  ∃ api rounds, p = Api.program json cfg rounds api

variable {json : Litestream.ManifestJson B} {cfg : Config} {a : Pool (World ι) ι (Act B) Rsp Unit}

/-- Nobody holds an entry whose teardown has begun. -/
theorem not_held_of_torn (h : (system (Calls json cfg)).Reachable (.new cfg) a) :
    ∀ e ∈ a.world.roster.torn, ∀ j, (j, e) ∉ a.world.roster.holders := by
  have hcustody (p : LifeM B Unit) (hp : Calls json cfg p) :
      p.Obeys custody (fun s _ => s.todo = []) .empty := by
    obtain ⟨api, rounds, rfl⟩ := hp
    exact api.custody json cfg rounds
  obtain ⟨g, hkept, -, -⟩ := reachable_kept hcustody h
  intro e he j hj
  have hzero : (a.world.roster.holders.map Prod.snd).count e = 0 := by
    rw [← hkept.refs e]
    exact ((hkept.dead e).mpr (.inl he)).2
  exact count_eq_zero.mp hzero (mem_map_of_mem hj)

theorem reachable_tended (h : (system (Calls json cfg)).Reachable (.new cfg) a) :
    ∃ g, Tended a.world.roster a.world.stock g ∧
      ∀ i p, a.procs i = some p → p.Obeys ward (fun t _ => t.Calm none none) (g i) := by
  have hstart (w : World ι) (g : ι → Ward) (i : ι) (p : LifeM B Unit) (w' : World ι)
      (_ : ∀ e ∈ w.roster.torn, ∀ j, (j, e) ∉ w.roster.holders)
      (htended : Tended w.roster w.stock g) (hg : g i = .calm none none none)
      (hs : Calls json cfg p ∧ w' = w) :
      ∃ t, p.Obeys ward (fun t _ => t.Calm none none) t ∧
        Tended w'.roster w'.stock (Function.update g i t) := by
    obtain ⟨⟨api, rounds, rfl⟩, rfl⟩ := hs
    refine ⟨g i, ?_, htended.update_self i⟩
    rw [hg]
    exact api.ward json cfg rounds
  have hcall (w : World ι) (g : ι → Ward) (i : ι) (c : Act B) (r : Rsp c) (w' : World ι)
      (hfree : ∀ e ∈ w.roster.torn, ∀ j, (j, e) ∉ w.roster.holders)
      (htended : Tended w.roster w.stock g) (hallow : (g i).Allows c)
      (hc : ∃ ch, w.answer i c ch = some (r, w')) :
      ∃ t, (t = (g i).step c r ∧ (g i).Learns c r) ∧
        Tended w'.roster w'.stock (Function.update g i t) := by
    obtain ⟨ch, hw⟩ := hc
    obtain ⟨hlearn, hnext⟩ := htended.answer hfree hallow hw
    exact ⟨_, ⟨rfl, hlearn⟩, hnext⟩
  have henv (w : World ι) (g : ι → Ward) (w' : World ι)
      (_ : ∀ e ∈ w.roster.torn, ∀ j, (j, e) ∉ w.roster.holders)
      (htended : Tended w.roster w.stock g) (he : ∃ m, w.move m = some w') :
      Tended w'.roster w'.stock g := by
    obtain ⟨m, hm⟩ := he
    exact htended.move hm
  obtain ⟨g, htended, hobeys, -⟩ := h.invariant_knowing ward (fun _ t _ => t.Calm none none)
    (fun w g => Tended w.roster w.stock g) (fun _ => .calm none none none)
    (fun b hb => not_held_of_torn hb) (new_tended cfg) hstart hcall henv
  exact ⟨g, htended, hobeys⟩

/-- **Unregistering a VFS.** In every interleaving of reads, writes, compaction passes, `ReadDSN`
and `Close` calls with each other and with the host: when a goroutine is about to unregister a VFS,
it has no active file and all its sessions have finished closing, if and only if the host has no
file open through it and every session that another goroutine took out of the read cache has
finished closing. -/
theorem unregistered_idle_iff (h : (system (Calls json cfg)).Reachable (.new cfg) a) {i : ι}
    {v : VFS} {k : Rsp (.unregisterVFS v : Act B) → LifeM B Unit}
    (hi : a.procs i = some (.call (.unregisterVFS v) k)) :
    a.world.stock.Idle v ↔ v ∉ a.world.stock.hostFiles ∧
      ∀ j s x, (j, s) ∈ a.world.stock.removed → j ≠ i → a.world.stock.session s = some x →
        x.vfs = v → x.phase = .finished := by
  obtain ⟨g, htended, hobeys⟩ := reachable_tended h
  obtain ⟨htearing, htaken⟩ : (g i).tearing = some v.entry ∧ (g i).taken = [] := (hobeys i _ hi).1
  have htorn := htended.tearing i _ htearing
  have hactive := htended.active v
  constructor
  · rintro ⟨hzero, hfinished⟩
    refine ⟨fun hhost => ?_, fun j s x _ _ hs hv => hfinished s x hs hv⟩
    have hpos := count_pos_iff.mpr hhost
    omega
  · rintro ⟨hhost, hremoved⟩
    have hfinished (s : Sess) (x : Session ι) (hs : a.world.stock.session s = some x)
        (hv : x.vfs = v) : x.phase = .finished := by
      by_contra hphase
      rcases htended.cover s x hs hphase with ⟨c, hc, rfl⟩ | ⟨j, b, hj⟩ | ⟨j, hj⟩
      · obtain ⟨y, hy, -, -, hnot⟩ := htended.cached c hc
        obtain rfl : x = y := Option.some.inj (hs.symm.trans hy)
        rw [hv] at hnot
        exact hnot htorn
      · obtain ⟨y, hy, -, -, hheld, -⟩ := htended.mine j s b hj
        obtain rfl : x = y := Option.some.inj (hs.symm.trans hy)
        rw [hv] at hheld
        exact not_held_of_torn h _ htorn j (htended.held j _ hheld)
      · have hji : j ≠ i := by
          rintro rfl
          rw [htaken] at hj
          cases hj
        exact hphase (hremoved j s x (htended.taken j s hj).1 hji hs hv)
    refine ⟨?_, hfinished⟩
    have hfiles : (a.world.stock.files.map Prod.snd).count v = 0 := by
      refine count_eq_zero.mpr fun hmem => ?_
      obtain ⟨⟨s, v'⟩, hfile, rfl⟩ := mem_map.mp hmem
      obtain ⟨x, hs, hv, hphase⟩ := htended.opened s v' hfile
      rw [hfinished s x hs hv] at hphase
      rcases hphase with hphase | hphase <;> cases hphase
    rw [hactive, hfiles, count_eq_zero.mpr hhost]

namespace Teardown

/-- The VFS that a step unregisters. -/
def unregisters : Act B → Option VFS
  | .unregisterVFS v => some v
  | _ => none

theorem eq_of_unregisters {c : Act B} {v : VFS} (h : unregisters c = some v) :
    c = .unregisterVFS v := by
  cases c <;> cases h
  rfl

/-- Room for one database. -/
def config : Config := { defaultConfig with maxReadInstances := 1 }

/-- An empty profile. -/
def profile : Profile := ⟨"", "", "", "", "", ""⟩

/-- The entry of the database `a`, which is registered first. -/
def entry : DatabaseEntry := ⟨databaseKey ⟨"a"⟩ profile, 1⟩

/-- Answers by which a read finds no manifest, and a file in the replica. -/
def answers : (c : Op (Option Litestream.ManifestDocument)) → Resp c
  | .ltxFiles _ _ => .ok [⟨0, 1, 1, 0, 0⟩]
  | c => c.uneventful

/-- The moves of a script. -/
abbrev Moves := List (Move ℕ Api (Choice (Option Litestream.ManifestDocument)) HostMove)

/-- The pools of a script. -/
abbrev State := Pool (World ℕ) ℕ (Act (Option Litestream.ManifestDocument)) Rsp Unit

/-- A goroutine makes steps that succeed. -/
def steps (i n : ℕ) : Moves := List.replicate n (.call i .ok)

/-- A call that opens or closes nothing. -/
def other (i : ℕ) : Moves := [.call i (.other answers)]

/-- The pool that a script reaches. -/
def pool (moves : Moves) : Option State :=
  (interpreter (Api.program .plain config 2) fun api => ⟨api, 2, rfl⟩ :
    Interpreter (system (Calls .plain config)) _ _ _).exec (.new config) moves

/-- The host gets the DSN of `a`. -/
def dsn : Moves := .start 0 (.readDSN ⟨"a"⟩ profile none) :: steps 0 4

/-- The DSN of `b` is asked for, and the entry of `a` has to make room. -/
def evicted (n : ℕ) : Moves := .start 1 (.readDSN ⟨"b"⟩ profile none) :: steps 1 n

/-- The host opens the DSN before that. -/
def hostOpen : Moves := dsn ++ [.env (.open entry)] ++ evicted 5

/-- A read caches its session. -/
def cached : Moves :=
  .start 0 (.read ⟨"a"⟩ profile none) :: steps 0 3 ++ other 0 ++ other 0 ++ other 0 ++ steps 0 2 ++
    other 0 ++ steps 0 3

/-- `ReadDSN` gets the entry of a cached session, `Close` takes the session out of the cache, and
the entry is released before the session is closed. -/
def sessionOpen : Moves :=
  cached ++ .start 1 (.readDSN ⟨"a"⟩ profile none) :: steps 1 2 ++
    .start 2 .close :: steps 2 2 ++ steps 1 4

/-- What a goroutine unregisters, and who uses the VFS of `entry`. -/
structure View where
  unregistered : Option VFS
  activeFiles : ℕ
  hostFiles : List VFS
  removed : List (ℕ × Sess)
  session : Option (VFS × Phase)
  deriving DecidableEq

/-- The view of the goroutine `1`. -/
def view (a : State) : View where
  unregistered := (a.pending 1).bind unregisters
  activeFiles := a.world.stock.activeFiles (.read entry)
  hostFiles := a.world.stock.hostFiles
  removed := a.world.stock.removed
  session := (a.world.stock.session 0).map fun x => (x.vfs, x.phase)

theorem of_view {moves : Moves} {o : View} (h : (pool moves).map view = some o)
    (ho : o.unregistered = some (.read entry)) :
    ∃ a k, (system (Calls .plain config)).Reachable (.new config) a ∧
      a.procs 1 = some (.call (.unregisterVFS (.read entry)) k) ∧ view a = o := by
  obtain ⟨a, ha, rfl⟩ := Option.map_eq_some_iff.mp h
  obtain ⟨c, hc, hv⟩ := Option.bind_eq_some_iff.mp ho
  obtain rfl := eq_of_unregisters hv
  obtain ⟨k, hk⟩ := Pool.procs_of_pending hc
  exact ⟨a, k, Interpreter.exec_reachable _ ha, hk, rfl⟩

/-- Nothing uses the VFS of a database whose teardown has closed its cached session. -/
theorem unregistered_idle : ∃ a : State, ∃ k,
    a.procs 1 = some (.call (.unregisterVFS (.read entry)) k) ∧ a.world.stock.Idle (.read entry) ∧
      (a.world.stock.session 0).map (fun x => (x.vfs, x.phase)) =
        some (.read entry, .finished) := by
  have hview : (pool (cached ++ evicted 12)).map view =
      some ⟨some (.read entry), 0, [], [(1, 0)], some (.read entry, .finished)⟩ := by
    decide +kernel
  obtain ⟨a, k, ha, hk, heq⟩ := of_view hview rfl
  have hhost : a.world.stock.hostFiles = [] := congrArg View.hostFiles heq
  have hremoved : a.world.stock.removed = [(1, 0)] := congrArg View.removed heq
  refine ⟨a, k, hk, (unregistered_idle_iff ha hk).mpr ⟨?_, ?_⟩, congrArg View.session heq⟩
  · rw [hhost]
    exact not_mem_nil
  rw [hremoved]
  intro j s x hmem hj
  exact absurd (Prod.mk.inj (mem_singleton.mp hmem)).1 hj

end Teardown

open Teardown in
/-- A VFS is unregistered while a file that the host opened is active, and also while a cached
session is open that `Close` has still to close. -/
theorem unregistered_in_use :
    (∃ a : State, ∃ k, (system (Calls .plain config)).Reachable (.new config) a ∧
      a.procs 1 = some (.call (.unregisterVFS (.read entry)) k) ∧
      a.world.stock.activeFiles (.read entry) = 1) ∧
    ∃ a : State, ∃ k x, (system (Calls .plain config)).Reachable (.new config) a ∧
      a.procs 1 = some (.call (.unregisterVFS (.read entry)) k) ∧
      a.world.stock.session 0 = some x ∧ x.vfs = .read entry ∧ x.phase = .opened := by
  constructor
  · have hview : (pool hostOpen).map view =
        some ⟨some (.read entry), 1, [.read entry], [], none⟩ := by decide +kernel
    obtain ⟨a, k, ha, hk, heq⟩ := of_view hview rfl
    exact ⟨a, k, ha, hk, congrArg View.activeFiles heq⟩
  · have hview : (pool sessionOpen).map view =
        some ⟨some (.read entry), 1, [], [(2, 0)], some (.read entry, .opened)⟩ := by
      decide +kernel
    obtain ⟨a, k, ha, hk, heq⟩ := of_view hview rfl
    obtain ⟨x, hx, hxs⟩ := Option.map_eq_some_iff.mp (congrArg View.session heq)
    obtain ⟨hv, hphase⟩ := Prod.mk.inj hxs
    exact ⟨a, k, x, ha, hk, hx, hv, hphase⟩

end Walrusd.Lifecycle
