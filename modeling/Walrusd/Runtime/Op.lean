import Walrusd.Lease.Manager
import Walrusd.Litestream.Manifest
import Walrusd.Runtime.TXID

/-!
# The calls of the runtime

The write, read and compaction programs of `runtime/runtime.go` and the methods of
`litestream.Database` that they use are programs over the calls of this file. A call is one
external step: one operation of the lease manager, the manifest store, the replica client, a
SQLite session or the read cache. Metrics are left out: no modelled function reads them.

## Main definitions

* `Op`, `Resp`, `RuntimeM`.
-/

namespace Walrusd.Runtime

open Program Litestream

/-- A handle on a SQLite session. -/
abbrev Sess := ℕ

/-- The function that lists a level or deletes files; a call carries it so that runs can be told
apart. -/
inductive Site
  | tail
  | build
  | probe
  | sources
  | garbage
  deriving DecidableEq, Repr

/-- The calls. The contents of the manifest object have type `B`. -/
inductive Op (B : Type)
  | database
  | releaseDatabase
  | acquire (db : DatabaseID) (rootPrefix : String)
  | acquireKey (db : DatabaseID) (key : String)
  | release (held : Lease.Held) (cancellable : Bool)
  | releaseKey (held : Lease.Held)
  | abandon (held : Lease.Held)
  | lost (held : Lease.Held)
  | expiresAt (held : Lease.Held)
  | now
  | ctxErr
  | manifestGet
  | manifestPut (data : B)
  | initReplica
  | ltxFiles (site : Site) (level : ℕ)
  | deleteLTXFiles (site : Site) (files : List FileInfo)
  | compact (level : ℕ) (files : List FileInfo)
  | openWrite (files : Option (List FileInfo))
  | beginImmediate (s : Sess)
  | execSchema (s : Sess)
  | selectTXID (s : Sess) (key : String)
  | callback (s : Sess)
  | pos (s : Sess)
  | insertKey (s : Sess) (key txid : String)
  | commit (s : Sess)
  | rollback (s : Sess)
  | setWriteDisabled (s : Sess)
  | txid (s : Sess)
  | manifestFiles (s : Sess)
  | closeSession (s : Sess)
  | cacheGet
  | cachePut (s : Sess)
  | evict
  | openRead (files : Option (List FileInfo))
  | runRead (s : Sess)
  | closeRead (s : Sess)
  | openEmpty
  | runEmpty
  | loadOrStorePending
  | sendJob
  | deletePending
  | addPass

/-- The responses. `Option Err` is a Go error, `none` being nil. -/
@[reducible] def Resp {B : Type} : Op B → Type
  | .database => Except Err Unit
  | .acquire _ _ | .acquireKey _ _ => Except Err Lease.Held
  | .lost _ | .loadOrStorePending | .sendJob => Bool
  | .expiresAt _ | .now | .addPass => ℤ
  | .manifestGet => Except Err B
  | .ltxFiles _ _ => Except Err (List FileInfo)
  | .compact _ _ => Except Err FileInfo
  | .openWrite _ | .openRead _ => Except Err Sess
  | .selectTXID _ _ => Except Err (Option String)
  | .pos _ => Except Err ℕ
  | .txid _ => Except Err String
  | .manifestFiles _ => Option (List FileInfo)
  | .cacheGet => Option Sess
  | .release _ _ | .releaseKey _ | .ctxErr | .manifestPut _ | .initReplica | .deleteLTXFiles _ _
  | .beginImmediate _ | .execSchema _ | .callback _ | .insertKey _ _ _ | .commit _
  | .setWriteDisabled _ | .runRead _ | .openEmpty | .runEmpty => Option Err
  | .releaseDatabase | .abandon _ | .rollback _ | .closeSession _ | .cachePut _ | .evict
  | .closeRead _ | .deletePending => Unit

/-- An uneventful answer: there is no manifest, no file, no cached session and no lease to have, and
nothing else fails. -/
def Op.uneventful {B : Type} : (c : Op B) → Resp c
  | .database => .ok ()
  | .acquire _ _ | .acquireKey _ _ => .error (.other "unavailable")
  | .lost _ | .loadOrStorePending | .sendJob => false
  | .expiresAt _ | .now | .addPass => (0 : ℤ)
  | .manifestGet => .error .manifestNotFound
  | .ltxFiles _ _ => .ok []
  | .compact _ _ => .error .noCompaction
  | .openWrite _ | .openRead _ | .pos _ => .ok (0 : ℕ)
  | .selectTXID _ _ => .ok none
  | .txid _ => .ok ""
  | .manifestFiles _ | .cacheGet | .release _ _ | .releaseKey _ | .ctxErr | .manifestPut _
  | .initReplica | .deleteLTXFiles _ _ | .beginImmediate _ | .execSchema _ | .callback _
  | .insertKey _ _ _ | .commit _ | .setWriteDisabled _ | .runRead _ | .openEmpty | .runEmpty => none
  | .releaseDatabase | .abandon _ | .rollback _ | .closeSession _ | .cachePut _ | .evict
  | .closeRead _ | .deletePending => ()

/-- The component that a call concerns. -/
inductive Kind
  | registry | lease | clock | manifestGet | manifestPut | listing | delete | compact | session
  | cache | queue
  deriving DecidableEq, Repr

/-- The component of a call. -/
def Op.kind {B : Type} : Op B → Kind
  | .database | .releaseDatabase => .registry
  | .acquire _ _ | .acquireKey _ _ | .release _ _ | .releaseKey _ | .abandon _ => .lease
  | .lost _ | .expiresAt _ | .now | .ctxErr => .clock
  | .manifestGet => .manifestGet
  | .manifestPut _ => .manifestPut
  | .initReplica | .ltxFiles _ _ => .listing
  | .deleteLTXFiles _ _ => .delete
  | .compact _ _ => .compact
  | .openWrite _ | .beginImmediate _ | .execSchema _ | .selectTXID _ _ | .callback _ | .pos _
  | .insertKey _ _ _ | .commit _ | .rollback _ | .setWriteDisabled _ | .txid _
  | .manifestFiles _ | .closeSession _ => .session
  | .cacheGet | .cachePut _ | .evict | .openRead _ | .runRead _ | .closeRead _ | .openEmpty
  | .runEmpty => .cache
  | .loadOrStorePending | .sendJob | .deletePending | .addPass => .queue

/-- The calls that can change the replica. -/
def Op.touches {B : Type} : Op B → Bool
  | .manifestPut _ | .deleteLTXFiles _ _ | .compact _ _ | .commit _ | .setWriteDisabled _ => true
  | _ => false

/-- The calls that can change the replica or a session. -/
def Op.alters {B : Type} : Op B → Bool
  | .openWrite _ | .openRead _ | .insertKey _ _ _ | .rollback _ | .closeSession _ | .closeRead _ =>
    true
  | c => c.touches

/-- The calls by which a failed attempt cleans up. -/
def Op.cleansUp {B : Type} : Op B → Bool
  | .release _ false | .abandon _ | .rollback _ | .closeSession _ => true
  | _ => false

variable {B : Type} {c : Op B} {k : Kind}

theorem Op.touches_of_cleansUp (hc : c.cleansUp = true) : c.touches = false := by
  cases c <;> first | rfl | cases hc

/-- The calls of a compaction pass that holds the compaction lease. -/
def Op.merges {B : Type} : Op B → Bool
  | .acquire _ _ | .release _ _ | .now | .manifestGet | .manifestPut _ | .initReplica
  | .ltxFiles _ _ | .deleteLTXFiles _ _ | .compact _ _ | .addPass => true
  | _ => false

/-- The calls of a compaction pass on a registered database. -/
def Op.compacts {B : Type} : Op B → Bool
  | .acquire _ _ | .acquireKey _ _ | .release _ _ | .releaseKey _ | .now | .manifestGet
  | .manifestPut _ | .initReplica | .ltxFiles _ _ | .deleteLTXFiles _ _ | .compact _ _
  | .addPass => true
  | _ => false

/-- The components by which manifests are read, rebuilt and stored. -/
def Kind.indexing : Kind → Bool
  | .manifestGet | .manifestPut | .listing => true
  | _ => false

/-- The components whose calls change neither the replica nor a session. -/
def Kind.quiet : Kind → Bool
  | .registry | .lease | .clock | .manifestGet | .listing | .queue => true
  | _ => false

theorem Op.alters_of_kind (hc : c.kind = k) (hk : k.quiet = true) : c.alters = false := by
  subst hc
  cases c <;> first | rfl | cases hk

theorem Op.touches_of_kind (hc : c.kind = k) (hk : k.quiet = true) : c.touches = false := by
  subst hc
  cases c <;> first | rfl | cases hk

/-- The components all of whose calls a compaction pass may make. -/
def Kind.compacting : Kind → Bool
  | .manifestGet | .manifestPut | .listing | .compact => true
  | _ => false

theorem Op.merges_of_kind (hc : c.kind = k) (hk : k.compacting = true) : c.merges = true := by
  subst hc
  cases c <;> first | rfl | cases hk

theorem Op.compacts_of_merges (hc : c.merges = true) : c.compacts = true := by
  cases c <;> first | rfl | cases hc

/-- Programs of the runtime. -/
abbrev RuntimeM (B : Type) := Prog (Op B) Resp

/-- Issue one call. -/
abbrev ask {B : Type} (c : Op B) : RuntimeM B (Resp c) := perform c

end Walrusd.Runtime
