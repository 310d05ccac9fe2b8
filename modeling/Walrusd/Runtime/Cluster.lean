import Walrusd.Cache
import Walrusd.Program.Script
import Walrusd.Runtime.Track

/-!
# A cluster of processes on one database

The world of the runs in which any number of nodes write, compact and read one database: object
storage, the write lease and the compaction lease, one read cache per node, and time.

* A call that takes the context of its process takes effect before the deadline or not at all.
  Calls on a fresh context (the flush, and the releases of failed attempts and passes) take effect
  at any time.
* A lease is a cell with a holder and an expiry, which the node of the holder computed from its own
  clock. It changes hands when it is released, or when it has expired by the clock of the new
  holder, minus the skew allowance. Renewals may fail; they are moves of the world.
* Any listing, commit, flush, upload, merge or deletion may fail, also after its effect.

The world also remembers what happened to it: the record of every process, and stamps of the events
that statements about whole runs refer to. No answer depends on this past.

## Main definitions

* `Setup`, `Cluster`, `Cluster.Answers`.
* `clusterSystem`, and its executable part `clusterInterpreter`.
-/

namespace Walrusd.Runtime

open Program Litestream Function

/-! ### Nodes -/

/-- A node: its configuration, and by how much its clock is ahead. -/
structure Node where
  cfg : Config
  clock : ℤ

namespace Node

variable (n : Node)

/-- The time limit of a write attempt or a read; `none` when there is no limit. -/
def requestTimeout : Option ℤ :=
  if 0 < n.cfg.requestTimeout then some n.cfg.requestTimeout else none

/-- The time limit of a pass. -/
def passTimeout : ℤ :=
  if n.cfg.compaction.timeout ≤ 0 then 30 * second else n.cfg.compaction.timeout

/-- The duration of the write lease. -/
def duration : ℤ := n.cfg.lease.duration

/-- The duration of the compaction lease. -/
def passDuration : ℤ :=
  max n.cfg.lease.duration (n.cfg.compaction.timeout + n.cfg.lease.clockSkewAllowance + 2 * second)

/-- The skew allowance. -/
def skew : ℤ := n.cfg.lease.clockSkewAllowance

end Node

/-- `New` accepts the configuration. -/
def Config.Accepted (cfg : Config) : Prop :=
  cfg.lease.clockSkewAllowance + cfg.requestTimeout < cfg.lease.duration

instance (cfg : Config) : Decidable cfg.Accepted := inferInstanceAs (Decidable (_ < _))

/-- What the nodes share, and the nodes. -/
structure Setup (B : Type) where
  json : ManifestJson B
  desc : Descriptor
  /-- The key of the database in the read caches. -/
  key : String
  nodes : ℕ → Node

/-! ### Leases -/

/-- A lease: its holder and its expiry. -/
structure Cell where
  holder : Option ℕ
  expiresAt : ℤ
  deriving DecidableEq, Repr

/-- What a call does to a lease. -/
inductive LeaseAction
  | none
  | acquired
  | notAcquired
  | released
  | notReleased
  deriving DecidableEq, Repr

namespace Cell

/-- The lease can be acquired, by a clock that reads `now`. -/
def Free (cell : Cell) (now skew : ℤ) : Prop :=
  cell.holder = none ∨ cell.expiresAt < now - skew

instance (cell : Cell) (now skew : ℤ) : Decidable (cell.Free now skew) :=
  inferInstanceAs (Decidable (_ ∨ _))

/-- The process `i` has acquired the lease until `earliest` or later. -/
def Acquired (cell : Cell) (i : ℕ) (now skew earliest : ℤ) (cell' : Cell) : Prop :=
  cell.Free now skew ∧ cell'.holder = some i ∧ earliest ≤ cell'.expiresAt

instance (cell : Cell) (i : ℕ) (now skew earliest : ℤ) (cell' : Cell) :
    Decidable (cell.Acquired i now skew earliest cell') := inferInstanceAs (Decidable (_ ∧ _ ∧ _))

/-- The process `i` has released the lease. -/
def Released (cell : Cell) (i : ℕ) (cell' : Cell) : Prop :=
  cell.holder = some i ∧ cell' = { cell with holder := none }

instance (cell : Cell) (i : ℕ) (cell' : Cell) : Decidable (cell.Released i cell') :=
  inferInstanceAs (Decidable (_ ∧ _))

/-- The lease after a call. A call that reports an error may have taken effect. -/
def Step (cell : Cell) (i : ℕ) (now skew earliest : ℤ) : LeaseAction → Cell → Prop
  | .none, cell' => cell' = cell
  | .acquired, cell' => cell.Acquired i now skew earliest cell'
  | .notAcquired, cell' => cell' = cell ∨ cell.Acquired i now skew earliest cell'
  | .released, cell' => cell.Released i cell'
  | .notReleased, cell' => cell' = cell ∨ cell.Released i cell'

instance (cell : Cell) (i : ℕ) (now skew earliest : ℤ) (action : LeaseAction) (cell' : Cell) :
    Decidable (cell.Step i now skew earliest action cell') := by
  unfold Step
  split <;> infer_instance

end Cell

/-- What a call does to the write lease. -/
def writeAction {B : Type} : (c : Op B) → Resp c → LeaseAction
  | .acquire _ _, .ok _ => .acquired
  | .acquire _ _, .error _ => .notAcquired
  | .release _ _, none => .released
  | .release _ _, some _ => .notReleased
  | _, _ => .none

/-- What a call does to the compaction lease. -/
def passAction {B : Type} : (c : Op B) → Resp c → LeaseAction
  | .acquireKey _ _, .ok _ => .acquired
  | .acquireKey _ _, .error _ => .notAcquired
  | .releaseKey _, none => .released
  | .releaseKey _, some _ => .notReleased
  | _, _ => .none

/-- The calls that take the context of their process. -/
def Op.bound {B : Type} : Op B → Bool
  | .acquire _ _ | .acquireKey _ _ | .release _ true | .manifestGet | .manifestPut _
  | .initReplica | .ltxFiles _ _ | .deleteLTXFiles _ _ | .compact _ _ | .openWrite _ | .openRead _
  | .commit _ => true
  | _ => false

/-- The answer reports an error; only calls that take a context matter. -/
def Op.failed {B : Type} : (c : Op B) → Resp c → Bool
  | .acquire _ _, .error _ | .acquireKey _ _, .error _ | .release _ _, some _
  | .manifestGet, .error _ | .manifestPut _, some _ | .initReplica, some _
  | .ltxFiles _ _, .error _ | .deleteLTXFiles _ _, some _ | .compact _ _, .error _
  | .openWrite _, .error _ | .openRead _, .error _ | .commit _, some _ => true
  | _, _ => false

/-! ### The world -/

/-- When something happened: how many calls had been answered, and the time. -/
structure Stamp where
  step : ℕ
  time : ℤ
  deriving DecidableEq, Repr

/-- A running or finished program: its node, when it was started, and its deadline. -/
structure Task where
  node : ℕ
  started : Stamp
  deadline : Option ℤ
  deriving DecidableEq, Repr

/-- A call that deleted objects. -/
structure Deletion (B : Type) where
  proc : ℕ
  time : ℤ
  site : Site
  gone : List FileInfo
  /-- The manifests stored until then. -/
  versions : List (ℤ × B)

/-- A read callback that was run, and the file list of the session that it was run on. -/
structure Run where
  proc : ℕ
  files : List FileInfo
  deriving DecidableEq, Repr

/-- What happened so far. -/
structure Past (B : Type) where
  /-- The number of answered calls. -/
  steps : ℕ
  tracks : ℕ → Track
  /-- When a process last read the manifest. -/
  readAt : ℕ → Stamp
  /-- When a process last stored the manifest. -/
  postedAt : ℕ → Stamp
  /-- When a write released its lease to acknowledge. -/
  settledAt : ℕ → Option Stamp
  /-- When the manifest was read that a read session was opened on. -/
  plannedAt : Sess → Stamp
  /-- When a write of a node last evicted cached reads or was acknowledged. -/
  markedAt : ℕ → Stamp
  /-- The manifest after every PUT, with its time, the last one first. -/
  versions : List (ℤ × B)
  deletions : List (Deletion B)
  runs : List Run

/-- The world of the runs on one database. -/
structure Cluster (B : Type) where
  storage : Storage B
  now : ℤ
  tasks : ℕ → Option Task
  writeLease : Cell
  passLease : Cell
  /-- The read cache of every node; sessions of other databases are `none`. -/
  caches : ℕ → Cache (Option Sess)
  past : Past B

/-- Close sessions. -/
def Storage.closeAll {B : Type} (st : Storage B) (closed : List (Option Sess)) : Storage B :=
  closed.reduceOption.foldl (fun st h => st.setSession h none) st

namespace Cluster

variable {B : Type} (P : Setup B) (w : Cluster B)

/-- A new database on a replica. -/
def initial (rep : Replica B) : Cluster B where
  storage := .initial rep
  now := 0
  tasks _ := none
  writeLease := ⟨none, 0⟩
  passLease := ⟨none, 0⟩
  caches n := .new (P.nodes n).cfg.maxReadInstances (P.nodes n).cfg.readInstanceIdleTTL
  past :=
    { steps := 0, tracks := fun _ => { role := .read }, readAt := fun _ => ⟨0, 0⟩,
      postedAt := fun _ => ⟨0, 0⟩, settledAt := fun _ => none, plannedAt := fun _ => ⟨0, 0⟩,
      markedAt := fun _ => ⟨0, 0⟩, versions := [], deletions := [], runs := [] }

/-- The record of a process. -/
def track (i : ℕ) : Track := w.past.tracks i

/-- The files of the stored manifest; `none` when there is no manifest that decodes. -/
def manifest : Option (List FileInfo) :=
  w.storage.replica.manifest.bind fun data => (decodeManifest P.json data).toOption

/-- The node of a task. -/
def node (T : Task) : Node := P.nodes T.node

/-- The time on the clock of a task's node. -/
def localNow (T : Task) : ℤ := w.now + (P.nodes T.node).clock

/-- The deadline of a task has not passed. -/
def Live (T : Task) : Prop := ∀ t ∈ T.deadline, w.now ≤ t

instance (T : Task) : Decidable (w.Live T) := inferInstanceAs (Decidable (∀ t ∈ T.deadline, _))

/-- The process may still use its context. -/
abbrev Alive (i : ℕ) : Prop := ∃ T, w.tasks i = some T ∧ w.Live T

/-- The present moment. -/
def stamp : Stamp := ⟨w.past.steps, w.now⟩

/-- The sessions that a call on the read cache of a task's node closes, and the cache after it. -/
def cacheCall (T : Task) : Op B → List (Option Sess) × Cache (Option Sess)
  | .cacheGet => ((w.caches T.node).get P.key (w.localNow P T)).2
  | .cachePut h => (w.caches T.node).put P.key (some h) (w.localNow P T)
  | .evict => (w.caches T.node).evict P.key
  | _ => ([], w.caches T.node)

/-- The answers that do not concern the storage or the leases. A listing names valid files of its
level, and a merge finds nothing to do only when it has no sources. -/
def credible (i : ℕ) (T : Task) : (c : Op B) → Resp c → Bool
  | .now, t => t = w.localNow P T
  | .ctxErr, none => w.Live T
  | .expiresAt _, t => w.writeLease.holder = some i → t ≤ w.writeLease.expiresAt
  | .cacheGet, h => h = ((w.caches T.node).get P.key (w.localNow P T)).1.join
  | .ltxFiles _ level, .ok files => files.all fun f => f.key.Valid ∧ f.level = level
  | .compact level files, .error e => e.is .noCompaction → mergeSources level files = []
  | .runRead h, r => (w.storage.sessions h).isSome || r.any fun e => e.is .readSessionClosed
  | _, _ => true

/-- The past after a call. -/
def remember (i : ℕ) (T : Task) (c : Op B) (r : Resp c) (st : Storage B) : Past B :=
  let past := { w.past with
    steps := w.past.steps + 1
    tracks := update w.past.tracks i ((w.track i).step P.json c r) }
  match c, r with
  | .manifestGet, _ => { past with readAt := update past.readAt i w.stamp }
  | .manifestPut _, _ =>
    { past with
      postedAt := update past.postedAt i w.stamp
      versions := (st.replica.manifest.map (w.now, ·)).toList ++ past.versions }
  | .deleteLTXFiles site _, _ =>
    let gone := w.storage.replica.infos.filter fun f => ¬ HasKey st.replica.infos f.key
    { past with deletions := ⟨i, w.now, site, gone, past.versions⟩ :: past.deletions }
  | .evict, _ =>
    if (w.track i).role = .write then
      { past with markedAt := update past.markedAt T.node w.stamp }
    else past
  | .release _ true, none =>
    { past with
      settledAt := update past.settledAt i (some w.stamp)
      markedAt := update past.markedAt T.node w.stamp }
  | .openRead _, .ok h =>
    { past with plannedAt := update past.plannedAt h (past.readAt i) }
  | .runRead h, _ =>
    match w.storage.sessions h with
    | some ses => { past with runs := ⟨i, ses.client.files⟩ :: past.runs }
    | none => past
  | .runEmpty, _ => { past with runs := ⟨i, []⟩ :: past.runs }
  | _, _ => past

/-- The world after a call that left the storage `st` and the leases `write` and `pass`. -/
def after (i : ℕ) (T : Task) (c : Op B) (r : Resp c) (st : Storage B) (write pass : Cell) :
    Cluster B where
  storage := st.closeAll (w.cacheCall P T c).1
  now := w.now
  tasks := w.tasks
  writeLease := write
  passLease := pass
  caches := update w.caches T.node (w.cacheCall P T c).2
  past := w.remember P i T c r st

/-- The write lease after a call of the process `i`. -/
def WriteStep (i : ℕ) (T : Task) (c : Op B) (r : Resp c) (write : Cell) : Prop :=
  let n := P.nodes T.node
  w.writeLease.Step i (w.now + n.clock) n.skew (T.started.time + n.clock + n.duration)
    (writeAction c r) write

/-- The compaction lease after a call of the process `i`. -/
def PassStep (i : ℕ) (T : Task) (c : Op B) (r : Resp c) (pass : Cell) : Prop :=
  let n := P.nodes T.node
  w.passLease.Step i (w.now + n.clock) n.skew (T.started.time + n.clock + n.passDuration)
    (passAction c r) pass

instance (i : ℕ) (T : Task) (c : Op B) (r : Resp c) (write : Cell) :
    Decidable (w.WriteStep P i T c r write) := inferInstanceAs (Decidable (Cell.Step ..))

instance (i : ℕ) (T : Task) (c : Op B) (r : Resp c) (pass : Cell) :
    Decidable (w.PassStep P i T c r pass) := inferInstanceAs (Decidable (Cell.Step ..))

/-- The protocol allows the process to make the call. -/
abbrev Permits (i : ℕ) (c : Op B) : Prop := (w.track i).Allows P.json c

/-- The answers to a call of the process `i`, and the world after them. After its deadline a call
that takes the context fails and has no effect. -/
def Answers (i : ℕ) (c : Op B) (r : Resp c) (w' : Cluster B) : Prop :=
  ∃ T st write pass, w.tasks i = some T ∧ w.credible P i T c r = true ∧
    w.storage.Answers c r st ∧ w.WriteStep P i T c r write ∧ w.PassStep P i T c r pass ∧
    (c.bound = true → w.Live T ∨
      (c.failed r = true ∧ st = w.storage ∧ write = w.writeLease ∧ pass = w.passLease)) ∧
    w' = w.after P i T c r st write pass

/-! ### Starts and moves -/

/-- A program to start on a node. -/
inductive Launch
  | write (node : ℕ) (key : String)
  | compaction (node : ℕ)
  | read (node : ℕ)
  deriving DecidableEq, Repr

/-- What a program returns. -/
inductive Outcome
  | wrote (res : Except Err WriteResult)
  | passed
  | read (err : Option Err)

namespace Launch

/-- The node. -/
def node : Launch → ℕ
  | .write n _ | .compaction n | .read n => n

/-- The record that the program starts with. -/
def role : Launch → Role
  | .write _ _ => .write
  | .compaction n => .compaction (effectiveThreshold (P.nodes n).cfg.compaction.threshold)
  | .read _ => .read

/-- The time limit. -/
def timeout : Launch → Option ℤ
  | .write n _ | .read n => (P.nodes n).requestTimeout
  | .compaction n => some (P.nodes n).passTimeout

/-- The program. -/
def program : Launch → RuntimeM B Outcome
  | .write n key => Outcome.wrote <$> withWriteAttempt P.json (P.nodes n).cfg P.desc key
  | .compaction n => (fun _ => Outcome.passed) <$> runCompaction P.json (P.nodes n).cfg P.desc
  | .read _ => Outcome.read <$> withRead P.json P.desc none

end Launch

/-- The process `i` starts a program. -/
def launch (i : ℕ) (l : Launch) : Cluster B :=
  { w with
    tasks := update w.tasks i (some ⟨l.node, w.stamp, (l.timeout P).map (w.now + ·)⟩)
    past := { w.past with tracks := update w.past.tracks i { role := l.role P } } }

/-- A use of the read cache for another database. -/
inductive CacheUse
  | get
  | put
  | evict
  deriving DecidableEq, Repr

/-- The world moves by itself: time passes, a lease is renewed, or a node uses its read cache for
another database. -/
inductive Event
  | tick (now : ℤ)
  | renewWrite (expiresAt : ℤ)
  | renewPass (expiresAt : ℤ)
  | cache (node : ℕ) (key : String) (use : CacheUse)
  deriving DecidableEq, Repr

/-- The effect of a use of a cache for another database: the closed sessions and the cache. -/
def CacheUse.apply (use : CacheUse) (c : Cache (Option Sess)) (key : String) (now : ℤ) :
    List (Option Sess) × Cache (Option Sess) :=
  match use with
  | .get => (c.get key now).2
  | .put => c.put key none now
  | .evict => c.evict key

/-- The world after a move. -/
def move : Event → Option (Cluster B)
  | .tick now => if w.now ≤ now then some { w with now } else none
  | .renewWrite expiresAt =>
    if w.writeLease.holder.isSome ∧ w.writeLease.expiresAt ≤ expiresAt then
      some { w with writeLease := { w.writeLease with expiresAt } }
    else none
  | .renewPass expiresAt =>
    if w.passLease.holder.isSome ∧ w.passLease.expiresAt ≤ expiresAt then
      some { w with passLease := { w.passLease with expiresAt } }
    else none
  | .cache node key use =>
    if key = P.key then none
    else
      let used := use.apply (w.caches node) key (w.now + (P.nodes node).clock)
      some { w with
        storage := w.storage.closeAll used.1
        caches := update w.caches node used.2 }

end Cluster

open Cluster in
/-- Any number of processes write, compact and read one database. -/
def clusterSystem {B : Type} (P : Setup B) : System (Cluster B) ℕ (Op B) Resp Outcome where
  start w i p w' := w.tasks i = none ∧ ∃ l : Launch, p = l.program P ∧ w' = w.launch P i l
  call w i c r w' := w.Answers P i c r w'
  env w w' := ∃ e, w.move P e = some w'

/-! ### Executable runs -/

namespace Cluster

variable {B : Type} (P : Setup B) (w : Cluster B)

/-- An answer to a call, and the storage and the leases after it. -/
structure Candidate (c : Op B) where
  resp : Resp c
  storage : Storage B
  write : Cell
  pass : Cell

/-- A candidate that leaves the storage and the leases alone. -/
def candidate {c : Op B} (r : Resp c) : Candidate c := ⟨r, w.storage, w.writeLease, w.passLease⟩

/-- The candidate that a choice selects. `wrote` gives the expiry of an acquired lease or the
number of a pass; every other call outside the storage succeeds or fails. -/
def propose (i : ℕ) (T : Task) : (c : Op B) → Storage.Choice → Option (Candidate c)
  | .database, .ok => some (w.candidate (.ok ()))
  | .acquire _ _, .wrote t => some ⟨.ok ⟨i, "", t⟩, w.storage, ⟨some i, t⟩, w.passLease⟩
  | .acquire _ _, .fail e => some (w.candidate (.error e))
  | .acquireKey _ _, .wrote t => some ⟨.ok ⟨i, "", t⟩, w.storage, w.writeLease, ⟨some i, t⟩⟩
  | .acquireKey _ _, .fail e => some (w.candidate (.error e))
  | .release _ _, .ok =>
    some ⟨none, w.storage, { w.writeLease with holder := none }, w.passLease⟩
  | .release _ _, .fail e => some (w.candidate (some e))
  | .releaseKey _, .ok =>
    some ⟨none, w.storage, w.writeLease, { w.passLease with holder := none }⟩
  | .releaseKey _, .fail e => some (w.candidate (some e))
  | .lost _, .ok => some (w.candidate false)
  | .expiresAt _, .ok => some (w.candidate w.writeLease.expiresAt)
  | .now, .ok => some (w.candidate (w.localNow P T))
  | .ctxErr, .ok => some (w.candidate none)
  | .cacheGet, .ok =>
    some (w.candidate ((w.caches T.node).get P.key (w.localNow P T)).1.join)
  | .loadOrStorePending, .ok | .sendJob, .ok => some (w.candidate true)
  | .addPass, .wrote n => some (w.candidate n)
  | .releaseDatabase, .ok | .abandon _, .ok | .cachePut _, .ok | .evict, .ok
  | .deletePending, .ok => some (w.candidate ())
  | c, ch => (w.storage.reply c ch).map fun a => ⟨a.1, a.2, w.writeLease, w.passLease⟩

theorem propose_answers {i : ℕ} {T : Task} {c : Op B} {ch : Storage.Choice} {a : Candidate c}
    (h : w.propose P i T c ch = some a) : w.storage.Answers c a.resp a.storage := by
  cases c with
  | database | acquire | acquireKey | release | releaseKey | lost | expiresAt | now | ctxErr
  | cacheGet | loadOrStorePending | sendJob | addPass | releaseDatabase | abandon | cachePut | evict
  | deletePending => cases ch <;> cases h <;> rfl
  | _ =>
    obtain ⟨⟨r, st⟩, hr, rfl⟩ := Option.map_eq_some_iff.mp h
    exact Storage.reply_answers hr

/-- The answer to a call under a choice, and the world after it. -/
def reply (i : ℕ) (c : Op B) (ch : Storage.Choice) : Option (Resp c × Cluster B) :=
  match w.tasks i with
  | none => none
  | some T =>
    match w.propose P i T c ch with
    | none => none
    | some a =>
      if w.credible P i T c a.resp = true ∧ w.WriteStep P i T c a.resp a.write ∧
          w.PassStep P i T c a.resp a.pass ∧ (c.bound = true → w.Live T) then
        some (a.resp, w.after P i T c a.resp a.storage a.write a.pass)
      else none

theorem reply_answers {i : ℕ} {c : Op B} {ch : Storage.Choice} {r : Resp c} {w' : Cluster B}
    (h : w.reply P i c ch = some (r, w')) : w.Answers P i c r w' := by
  unfold reply at h
  split at h
  · cases h
  · next T hT =>
    split at h
    · cases h
    · next a ha =>
      split at h
      · next hok =>
        cases h
        exact ⟨T, a.storage, a.write, a.pass, hT, hok.1, w.propose_answers P ha, hok.2.1,
          hok.2.2.1, fun hb => .inl (hok.2.2.2 hb), rfl⟩
      · cases h

end Cluster

open Cluster in
/-- The runs of a cluster that scripts describe. -/
def clusterInterpreter {B : Type} (P : Setup B) :
    Interpreter (clusterSystem P) Launch Storage.Choice Event where
  start w i l := if w.tasks i = none then some (l.program P, w.launch P i l) else none
  call w i c ch := w.reply P i c ch
  env w e := w.move P e
  start_sound := by
    intro w i l p w' h
    split at h
    · next hi =>
      cases h
      exact ⟨hi, l, rfl, rfl⟩
    · cases h
  call_sound := fun h => reply_answers P _ h
  env_sound := fun h => ⟨_, h⟩

namespace Script

/-- The moves of a script. -/
abbrev Moves := List (Move ℕ Cluster.Launch Storage.Choice Cluster.Event)

/-- Calls that succeed. -/
def oks (n : ℕ) : List Storage.Choice := List.replicate n .ok

/-- The calls of the process `i`. -/
def calls (i : ℕ) (choices : List Storage.Choice) : Moves := choices.map (.call i)

/-- A write up to its flush, on a replica with a manifest: the lease lasts until `expiry`, and the
file is created at `createdAt`. -/
def flushed (expiry createdAt : ℤ) : List Storage.Choice :=
  [.ok, .wrote expiry] ++ oks 2 ++ oks 8 ++ oks 3 ++ [.ok, .wrote createdAt] ++ oks 4

/-- A write on a replica with a manifest. -/
def write (expiry createdAt : ℤ) : List Storage.Choice := flushed expiry createdAt ++ oks 6

/-- The first write, which lists all levels to store a manifest. -/
def firstWrite (expiry createdAt : ℤ) : List Storage.Choice :=
  [.ok, .wrote expiry] ++ oks 1 ++ oks 8 ++ oks 3 ++ [.ok, .wrote createdAt] ++ oks 4 ++ oks 10 ++
    oks 5

end Script

end Walrusd.Runtime
