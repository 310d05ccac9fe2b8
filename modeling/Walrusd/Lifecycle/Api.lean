import Walrusd.Cache
import Walrusd.Lifecycle.Registry
import Walrusd.Program.Handler
import Walrusd.Runtime.Compaction
import Walrusd.Runtime.Read

/-!
# Opening and closing databases, sessions and VFSs

The functions that register and tear down databases (`runtime/runtime.go`), the read cache as its
callers see it (`cache/cache.go`), and the ways to open and close sessions and databases
(`litestream/session.go`, `litestream/bridge.go`), as programs over the steps that one lock or one
external call makes atomic. `enact` carries out the calls of the read, write and compaction
programs by these functions, so that `WithRead`, `WithWrite` and the compaction passes are run here
with every step at which another goroutine can come in between.

## Main definitions

* `Act`, `Rsp` — the steps.
* `database`, `releaseDatabase`, `teardownDatabase`, `close`.
* `enact`, `Api.program`.
-/

namespace Walrusd.Lifecycle

open Program Walrusd.Runtime

/-- The VFSs that are registered for a database: one for reads, and one for writes. A name that a
registration draws belongs to one of them only, so the VFS stands for its name. -/
inductive VFS
  | read (e : DatabaseEntry)
  | write (e : DatabaseEntry)
  deriving DecidableEq, Repr

/-- The database of a VFS. -/
def VFS.entry : VFS → DatabaseEntry
  | .read e | .write e => e

/-- Whether a VFS is the one for reads. -/
def VFS.isRead : VFS → Bool
  | .read _ => true
  | .write _ => false

/-- The steps. `database`, `releaseDatabase` and `close` are the critical sections of the functions
of these names; `teardown` is the eviction by which `teardownDatabase` begins; `lock` and `unlock`
are the lock of a cached session, and `setClosed` sets its flag; `markClosed` to
`unregisterSession` are the steps of `Session.Close`. A call that opens or closes nothing is
`other`. -/
inductive Act (B : Type)
  | accessKey
  | database (key : String)
  | releaseDatabase (e : DatabaseEntry)
  | close
  | panic
  | spin
  | teardown (e : DatabaseEntry)
  | cacheGet (key : String)
  | cachePut (s : Sess)
  | cacheEvict (key : String)
  | cacheClose
  | lock (s : Sess)
  | setClosed (s : Sess)
  | unlock (s : Sess)
  | ensureWriteVFS (e : DatabaseEntry)
  | ensureBufferRoot (e : DatabaseEntry)
  | connect (v : VFS)
  | enableWrite (s : Sess)
  | markClosed (s : Sess)
  | closeConn (s : Sess)
  | forgetFile (s : Sess)
  | unregisterSession (s : Sess)
  | discardBuffers (v : VFS)
  | writeVFSName (e : DatabaseEntry)
  | unregisterVFS (v : VFS)
  | returnDSN (e : DatabaseEntry)
  | other (c : Op B)

/-- The responses. A panic and an exhausted loop have none. `markClosed` says whether the session
was closed before, and otherwise the error of a write mode left on. -/
@[reducible] def Rsp {B : Type} : Act B → Type
  | .accessKey | .ensureWriteVFS _ | .ensureBufferRoot _ | .enableWrite _ | .closeConn _
  | .forgetFile _ | .discardBuffers _ | .unregisterVFS _ => Option Err
  | .database _ => Except Err (DatabaseEntry × List DatabaseEntry)
  | .releaseDatabase _ => Option Bool
  | .close => Option (List DatabaseEntry)
  | .panic | .spin => Empty
  | .teardown _ | .cacheEvict _ | .cacheClose => List Sess
  | .cacheGet _ => Option Sess × List Sess
  | .cachePut _ => Cache.PutRound Sess
  | .lock _ | .writeVFSName _ => Bool
  | .setClosed _ | .unlock _ | .unregisterSession _ | .returnDSN _ => Unit
  | .connect _ => Except Err Sess
  | .markClosed _ => Bool × Option Err
  | .other c => Resp c

/-- Programs over the steps. -/
abbrev LifeM (B : Type) := Prog (Act B) Rsp

/-- Make one step. -/
abbrev act {B : Type} (c : Act B) : LifeM B (Rsp c) := perform c

variable {B : Type}

/-! ### Sessions -/

/-- `Session.Close`. -/
def sessionClose (s : Sess) : LifeM B (List Err) := do
  let marked : Bool × Option Err ← act (.markClosed s)
  if marked.1 then return []
  else
    let conn : Option Err ← act (.closeConn s)
    let buffers : Option Err ← act (.forgetFile s)
    act (.unregisterSession s)
    return marked.2.toList ++ conn.toList ++ buffers.toList

/-- `cachedReadSession.Close`. -/
def cachedClose (s : Sess) : LifeM B (List Err) := do
  let closed : Bool ← act (.lock s)
  if closed then
    act (.unlock s)
    return []
  else
    act (.setClosed s)
    let errs ← sessionClose s
    act (.unlock s)
    return errs

/-- `cachedReadSession.run`. -/
def cachedRun (s : Sess) : LifeM B (Option Err) := do
  let closed : Bool ← act (.lock s)
  if closed then
    act (.unlock s)
    return some .readSessionClosed
  else
    let ran : Option Err ← act (.other (.runRead s))
    act (.unlock s)
    return ran

/-- Close the instances that an operation took out of the cache: their errors. -/
def closeInstances : List Sess → LifeM B (List (List Err))
  | [] => return []
  | s :: rest => do
    let errs ← cachedClose s
    let more ← closeInstances rest
    return errs :: more

/-- `OpenReadWithManifest`. -/
def openRead (e : DatabaseEntry) : LifeM B (Except Err Sess) := act (.connect (.read e))

/-- `OpenWriteWithManifest`. -/
def openWrite (e : DatabaseEntry) : LifeM B (Except Err Sess) := do
  let vfs : Option Err ← act (.ensureWriteVFS e)
  match vfs with
  | some err => return .error err
  | none =>
    let root : Option Err ← act (.ensureBufferRoot e)
    match root with
    | some err => return .error err
    | none =>
      let conn : Except Err Sess ← act (.connect (.write e))
      match conn with
      | .error err =>
        let _ : Option Err ← act (.discardBuffers (.write e))
        return .error err
      | .ok s =>
        let enabled : Option Err ← act (.enableWrite s)
        match enabled with
        | none => return .ok s
        | some err =>
          let _ : Option Err ← act (.closeConn s)
          act (.unregisterSession s)
          let _ : Option Err ← act (.discardBuffers (.write e))
          return .error err

/-! ### The read cache -/

/-- `Cache.Get`. -/
def readsGet (key : String) : LifeM B (Option Sess) := do
  let got : Option Sess × List Sess ← act (.cacheGet key)
  let _ ← closeInstances got.2
  return got.1

/-- `Cache.Put`, for at most `n` rounds. -/
def readsPut : ℕ → Sess → LifeM B Unit
  | 0, _ => do
    let never : Empty ← act .spin
    nomatch never
  | n + 1, s => do
    let round : Cache.PutRound Sess ← act (.cachePut s)
    match round with
    | .stored replaced =>
      let _ ← closeInstances replaced.toList
      return ()
    | .full oldest =>
      let _ ← cachedClose oldest
      readsPut n s
    | .refused =>
      let _ ← cachedClose s
      return ()

/-- `Cache.Evict`. -/
def readsEvict (key : String) : LifeM B Unit := do
  let gone : List Sess ← act (.cacheEvict key)
  let _ ← closeInstances gone
  return ()

/-- `Cache.Close`: the first error. -/
def readsClose : LifeM B (List Err) := do
  let gone : List Sess ← act .cacheClose
  let errs ← closeInstances gone
  return (errs.find? fun e => !e.isEmpty).getD []

/-! ### Databases -/

/-- `Database.Close`. -/
def databaseClose (e : DatabaseEntry) : LifeM B (List Err) := do
  let readBuffers : Option Err ← act (.discardBuffers (.read e))
  let write : Bool ← act (.writeVFSName e)
  let writeBuffers : Option Err ←
    (if write then act (.discardBuffers (.write e)) else pure none : LifeM B (Option Err))
  let readVFS : Option Err ← act (.unregisterVFS (.read e))
  let writeVFS : Option Err ←
    (if write then act (.unregisterVFS (.write e)) else pure none : LifeM B (Option Err))
  return readBuffers.toList ++ writeBuffers.toList ++ readVFS.toList ++ writeVFS.toList

/-- `teardownDatabase`. -/
def teardownDatabase (e : DatabaseEntry) : LifeM B (List Err) := do
  let gone : List Sess ← act (.teardown e)
  let _ ← closeInstances gone
  databaseClose e

/-- Tear down the entries that a critical section handed out. -/
def teardownAll : List DatabaseEntry → LifeM B (List Err)
  | [] => return []
  | e :: rest => do
    let errs ← teardownDatabase e
    let more ← teardownAll rest
    return errs ++ more

/-- `database`. -/
def database (key : String) : LifeM B (Except Err DatabaseEntry) := do
  let credentials : Option Err ← act .accessKey
  match credentials with
  | some err => return .error (.wrap .configurationInvalid "resolve credentials" "" err)
  | none =>
    let entered : Except Err (DatabaseEntry × List DatabaseEntry) ← act (.database key)
    match entered with
    | .error err => return .error err
    | .ok (e, evicted) =>
      let _ ← teardownAll evicted
      return .ok e

/-- `releaseDatabase`. -/
def releaseDatabase (e : DatabaseEntry) : LifeM B Unit := do
  let shouldClose : Option Bool ← act (.releaseDatabase e)
  match shouldClose with
  | none =>
    let never : Empty ← act .panic
    nomatch never
  | some false => return ()
  | some true =>
    let _ ← teardownDatabase e
    return ()

/-- `Close`. -/
def close : LifeM B (List Err) := do
  let dbs : Option (List DatabaseEntry) ← act .close
  match dbs with
  | none => return []
  | some dbs =>
    let errs ← readsClose
    let more ← teardownAll dbs
    return errs ++ more

/-- `ReadDSN`: the host gets the name of the read VFS. `identity` is the error of an invalid
database ID. -/
def readDSN (db : DatabaseID) (key : String) (identity : Option Err) :
    LifeM B (Except Err DatabaseEntry) :=
  match identity with
  | some err => return .error (.wrap .invalidArgument "database id" "" err)
  | none => do
    match ← database key with
    | .error err => return .error (err.withDatabase db.ID)
    | .ok e =>
      releaseDatabase e
      act (.returnDSN e)
      return .ok e

/-! ### Reads, writes and compaction passes -/

/-- Carry out a call of the runtime's programs on the database of the key `key`, whose entry the
handler keeps once it has it. A loop of `Put` is followed for `rounds` rounds. -/
def enact (key : String) (rounds : ℕ) (e : DatabaseEntry) :
    (c : Op B) → LifeM B (Resp c × DatabaseEntry)
  | .database => do
    match ← database key with
    | .error err => return (.error err, e)
    | .ok e => return (.ok (), e)
  | .releaseDatabase => do
    releaseDatabase e
    return ((), e)
  | .cacheGet => do
    let hit ← readsGet key
    return (hit, e)
  | .cachePut s => do
    readsPut rounds s
    return ((), e)
  | .evict => do
    readsEvict key
    return ((), e)
  | .openRead _ => do
    let opened ← openRead e
    return (opened, e)
  | .runRead s => do
    let ran ← cachedRun s
    return (ran, e)
  | .closeRead s => do
    let _ ← cachedClose s
    return ((), e)
  | .openWrite _ => do
    let opened ← openWrite e
    return (opened, e)
  | .closeSession s => do
    let _ ← sessionClose s
    return ((), e)
  | c => do
    let r ← act (.other c)
    return (r, e)

/-- The entry that a handler keeps before it has one; no registration draws the number `0`. -/
def noEntry : DatabaseEntry := ⟨"", 0⟩

/-- The calls of the runtime, each on a database and its storage profile. A write is one attempt;
`WithWrite` makes its attempts one after the other. -/
inductive Api
  | read (db : DatabaseID) (profile : Profile) (identity : Option Err)
  | write (db : DatabaseID) (profile : Profile) (idempotencyKey : String)
  | compact (db : DatabaseID) (profile : Profile)
  | readDSN (db : DatabaseID) (profile : Profile) (identity : Option Err)
  | close

/-- The program of a call. -/
def Api.program (json : Litestream.ManifestJson B) (cfg : Config) (rounds : ℕ) :
    Api → LifeM B Unit
  | .read db profile identity => do
    let _ ← (withRead json ⟨db, profile.rootPrefix⟩ identity).handle
      (enact (databaseKey db profile) rounds) noEntry
    return ()
  | .write db profile idempotencyKey => do
    let _ ← (withWriteAttempt json cfg ⟨db, profile.rootPrefix⟩ idempotencyKey).handle
      (enact (databaseKey db profile) rounds) noEntry
    return ()
  | .compact db profile => do
    let _ ← (runCompaction json cfg ⟨db, profile.rootPrefix⟩).handle
      (enact (databaseKey db profile) rounds) noEntry
    return ()
  | .readDSN db profile identity => do
    let _ ← Lifecycle.readDSN db (databaseKey db profile) identity
    return ()
  | .close => do
    let _ ← Lifecycle.close
    return ()

end Walrusd.Lifecycle
