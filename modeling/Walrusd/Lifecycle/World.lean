import Walrusd.Lifecycle.Api
import Walrusd.Program.Script

/-!
# One process with its databases, sessions and VFSs

The state that the steps of `Walrusd.Lifecycle.Api` act on: the registry of databases, the read
cache, the sessions and their files, and the registered VFSs. A host may open a DSN that it was
given, through the VFS that the DSN names, and close its files again, at any time. How a step that
can fail turns out is the choice of the world.

Three records are kept beside the state: who holds a reference on which entry, which teardowns have
begun, and which goroutine has taken which session out of the cache.

## Main definitions

* `World`, `World.answer`, `World.move`.
* `system` — the goroutines that run given programs in this world.
* `interpreter`.
-/

namespace Walrusd.Lifecycle

open Program Walrusd.Runtime Function

/-! ### The state -/

/-- How far `Session.Close` has come: not begun, begun, with the connection closed, finished. -/
inductive Phase
  | opened | closing | disconnected | finished
  deriving DecidableEq, Repr

/-- A session on a VFS. The lock and the flag `closed` are those of the `cachedReadSession`. -/
structure Session (ι : Type) where
  vfs : VFS
  opener : ι
  phase : Phase
  lock : Option ι
  closed : Bool

/-- The registry, the references that were taken and not yet released, and the entries whose
teardown has begun. -/
structure Roster (ι : Type) where
  registry : Registry
  holders : List (ι × DatabaseEntry)
  torn : List DatabaseEntry

/-- The read cache, the sessions, the VFSs and the files opened through them. `files` are the files
of sessions whose connection is open, each with its VFS, `hostFiles` the VFSs of the files that the
host has open, and `dsns` the databases whose DSN the host has. -/
structure Stock (ι : Type) where
  clock : ℤ
  cache : Cache Sess
  session : Sess → Option (Session ι)
  sessionSeq : ℕ
  files : List (Sess × VFS)
  activeFiles : VFS → ℕ
  registered : List VFS
  writeVFS : List DatabaseEntry
  dsns : List DatabaseEntry
  hostFiles : List VFS
  removed : List (ι × Sess)

/-- The world of the goroutines. -/
structure World (ι : Type) where
  roster : Roster ι
  stock : Stock ι

variable {ι B : Type} [DecidableEq ι]

/-- The roster of a new runtime. -/
def Roster.new (cfg : Config) : Roster ι := ⟨.new cfg.maxReadInstances, [], []⟩

/-- A new runtime has opened nothing. -/
def Stock.new (cfg : Config) : Stock ι where
  clock := 0
  cache := .new cfg.maxReadInstances cfg.readInstanceIdleTTL
  session _ := none
  sessionSeq := 0
  files := []
  activeFiles _ := 0
  registered := []
  writeVFS := []
  dsns := []
  hostFiles := []
  removed := []

/-- The world of a new runtime. -/
def World.new (cfg : Config) : World ι := ⟨.new cfg, .new cfg⟩

/-- Nothing uses the VFS: it has no active files, and every session opened on it has finished
closing. -/
def Stock.Idle (k : Stock ι) (v : VFS) : Prop :=
  k.activeFiles v = 0 ∧ ∀ s x, k.session s = some x → x.vfs = v → x.phase = .finished

/-! ### Answers -/

/-- How a step turns out. -/
inductive Choice (B : Type)
  | ok
  | fail (err : Err)
  | other (answers : (c : Op B) → Resp c)

/-- The error of a step that fails. -/
def Choice.err : Choice B → Option Err
  | .fail err => some err
  | _ => none

namespace Roster

/-- The caller holds the entry that `database` returns. -/
def database (t : Roster ι) (i : ι) (key : String) (registration : Option Err) :
    Except Err (DatabaseEntry × List DatabaseEntry) × Roster ι :=
  match t.registry.database key registration with
  | (.ok out, r) => (.ok out, { t with registry := r, holders := (i, out.1) :: t.holders })
  | (.error err, r) => (.error err, { t with registry := r })

/-- The caller holds the entry once less. -/
def releaseDatabase (t : Roster ι) (i : ι) (e : DatabaseEntry) : Option Bool × Roster ι :=
  match t.registry.releaseDatabase e with
  | none => (none, t)
  | some (b, r) => (some b, { t with registry := r, holders := t.holders.erase (i, e) })

/-- `Close` takes no reference. -/
def close (t : Roster ι) : Option (List DatabaseEntry) × Roster ι :=
  (t.registry.close.1, { t with registry := t.registry.close.2 })

/-- The teardown of an entry begins. -/
def teardown (t : Roster ι) (e : DatabaseEntry) : Roster ι := { t with torn := e :: t.torn }

end Roster

namespace Stock

/-- The VFS of an entry that `database` returns is registered. -/
def register (k : Stock ι) : Except Err (DatabaseEntry × List DatabaseEntry) → Stock ι
  | .ok (e, _) => { k with registered := k.registered.insert (.read e) }
  | .error _ => k

/-- The cache becomes `c`; the caller has taken the sessions `gone` out of it. -/
def takeOut (k : Stock ι) (i : ι) (gone : List Sess) (c : Cache Sess) : Stock ι :=
  { k with cache := c, removed := gone.map (fun s => (i, s)) ++ k.removed }

/-- The session `s` becomes `x`. -/
def setSession (k : Stock ι) (s : Sess) (x : Session ι) : Stock ι :=
  { k with session := update k.session s (some x) }

/-- A connection is opened on the VFS. -/
def openSession (k : Stock ι) (i : ι) (v : VFS) : Stock ι :=
  { k with
    session := update k.session k.sessionSeq (some ⟨v, i, .opened, none, false⟩)
    sessionSeq := k.sessionSeq + 1
    files := (k.sessionSeq, v) :: k.files
    activeFiles := update k.activeFiles v (k.activeFiles v + 1) }

/-- The connection of the session is closed, and with it its file. -/
def closeFile (k : Stock ι) (s : Sess) (v : VFS) : Stock ι :=
  if (s, v) ∈ k.files then
    { k with
      files := k.files.erase (s, v)
      activeFiles := update k.activeFiles v (k.activeFiles v - 1) }
  else k

/-- What the steps that leave the registry alone do. -/
def answer (k : Stock ι) (i : ι) : (c : Act B) → Choice B → Option (Rsp c × Stock ι)
  | .accessKey, ch | .ensureBufferRoot _, ch | .enableWrite _, ch | .forgetFile _, ch
  | .discardBuffers _, ch => some (ch.err, k)
  | .cacheGet key, _ =>
    let out := k.cache.get key k.clock
    some ((out.1, out.2.1), k.takeOut i out.2.1 out.2.2)
  | .cachePut s, _ =>
    match k.session s with
    | none => none
    | some x =>
      let out := k.cache.putLocked x.vfs.entry.key s k.clock
      some (out.1, k.takeOut i out.1.gone out.2)
  | .cacheEvict key, _ =>
    let out := k.cache.evict key
    some (out.1, k.takeOut i out.1 out.2)
  | .cacheClose, _ => some (k.cache.drain.1, k.takeOut i k.cache.drain.1 k.cache.drain.2)
  | .lock s, _ =>
    match k.session s with
    | none => none
    | some x =>
      if x.lock.isSome then none else some (x.closed, k.setSession s { x with lock := some i })
  | .setClosed s, _ =>
    match k.session s with
    | none => none
    | some x => some ((), k.setSession s { x with closed := true })
  | .unlock s, _ =>
    match k.session s with
    | none => none
    | some x => some ((), k.setSession s { x with lock := none })
  | .ensureWriteVFS e, ch =>
    if e ∈ k.writeVFS then some (none, k)
    else
      match ch.err with
      | some err => some (some err, k)
      | none => some (none,
          { k with writeVFS := e :: k.writeVFS, registered := k.registered.insert (.write e) })
  | .connect v, ch =>
    match ch.err with
    | some err => some (.error err, k)
    | none => if v ∈ k.registered then some (.ok k.sessionSeq, k.openSession i v) else none
  | .markClosed s, ch =>
    match k.session s with
    | none => none
    | some x =>
      if x.phase = .opened then some ((false, ch.err), k.setSession s { x with phase := .closing })
      else some ((true, none), k)
  | .closeConn s, ch =>
    match k.session s with
    | none => none
    | some x => some (ch.err, (k.closeFile s x.vfs).setSession s { x with phase := .disconnected })
  | .unregisterSession s, _ =>
    match k.session s with
    | none => none
    | some x => some ((), k.setSession s { x with phase := .finished })
  | .writeVFSName e, _ => some (decide (e ∈ k.writeVFS), k)
  | .unregisterVFS v, ch =>
    match ch.err with
    | some err => some (some err, k)
    | none => some (none, { k with registered := k.registered.erase v })
  | .returnDSN e, _ => some ((), { k with dsns := e :: k.dsns })
  | .other c, .other answers => some (answers c, k)
  | _, _ => none

end Stock

/-- The answer to a step of the goroutine `i`. -/
def World.answer (w : World ι) (i : ι) : (c : Act B) → Choice B → Option (Rsp c × World ι)
  | .database key, ch =>
    let out := w.roster.database i key ch.err
    some (out.1, ⟨out.2, w.stock.register out.1⟩)
  | .releaseDatabase e, _ =>
    let out := w.roster.releaseDatabase i e
    some (out.1, { w with roster := out.2 })
  | .close, _ => some (w.roster.close.1, { w with roster := w.roster.close.2 })
  | .teardown e, _ =>
    let out := w.stock.cache.evict e.key
    some (out.1, ⟨w.roster.teardown e, w.stock.takeOut i out.1 out.2⟩)
  | c, ch => (w.stock.answer i c ch).map fun out => (out.1, { w with stock := out.2 })

/-! ### Moves of the host -/

/-- Time passes, or the host opens a DSN or closes a file. -/
inductive HostMove
  | tick (d : ℕ)
  | open (e : DatabaseEntry)
  | close (v : VFS)

/-- A move of the host. The file of a DSN is opened through the read VFS, which must be
registered. -/
def Stock.move (k : Stock ι) : HostMove → Option (Stock ι)
  | .tick d => some { k with clock := k.clock + d }
  | .open e =>
    if e ∈ k.dsns ∧ VFS.read e ∈ k.registered then
      some { k with
        hostFiles := .read e :: k.hostFiles
        activeFiles := update k.activeFiles (.read e) (k.activeFiles (.read e) + 1) }
    else none
  | .close v =>
    if v ∈ k.hostFiles then
      some { k with
        hostFiles := k.hostFiles.erase v
        activeFiles := update k.activeFiles v (k.activeFiles v - 1) }
    else none

/-- A move of the host in the world. -/
def World.move (w : World ι) (m : HostMove) : Option (World ι) :=
  (w.stock.move m).map fun k => { w with stock := k }

/-! ### Systems -/

variable {α : Type}

/-- Goroutines that run the programs of `starts`, interleaved in any way with each other and with
the host. -/
def system (starts : LifeM B α → Prop) : System (World ι) ι (Act B) Rsp α where
  start w _ p w' := starts p ∧ w' = w
  call w i c r w' := ∃ ch, w.answer i c ch = some (r, w')
  env w w' := ∃ m, w.move m = some w'

/-- The programs that a script starts are given by `program`. -/
def interpreter {σ : Type} {starts : LifeM B α → Prop} (program : σ → LifeM B α)
    (hprogram : ∀ x, starts (program x)) :
    Interpreter (system (ι := ι) starts) σ (Choice B) HostMove where
  start w _ x := some (program x, w)
  call w i c ch := w.answer i c ch
  env w m := w.move m
  start_sound h := by
    cases h
    exact ⟨hprogram _, rfl⟩
  call_sound h := ⟨_, h⟩
  env_sound h := ⟨_, h⟩

/-- The steps that touch the registry. -/
def Act.registers : Act B → Bool
  | .database _ | .releaseDatabase _ | .close | .teardown _ => true
  | _ => false

theorem World.answer_stock {w w' : World ι} {i : ι} {c : Act B} {ch : Choice B} {r : Rsp c}
    (hc : c.registers = false) (h : w.answer i c ch = some (r, w')) :
    w'.roster = w.roster ∧ w.stock.answer i c ch = some (r, w'.stock) := by
  have hmap : (w.stock.answer i c ch).map (fun out => (out.1, { w with stock := out.2 })) =
      some (r, w') := by
    cases c <;> first | exact h | cases hc
  obtain ⟨out, hout, heq⟩ := Option.map_eq_some_iff.mp hmap
  cases heq
  exact ⟨rfl, hout⟩

omit [DecidableEq ι] in
theorem World.move_stock {w w' : World ι} {m : HostMove} (h : w.move m = some w') :
    w'.roster = w.roster ∧ w.stock.move m = some w'.stock := by
  obtain ⟨k, hk, rfl⟩ := Option.map_eq_some_iff.mp h
  exact ⟨rfl, hk⟩

end Walrusd.Lifecycle
