import Walrusd.Litestream.Database

/-!
# One write attempt

`withWriteAttempt` of `runtime/runtime.go`: acquire the write lease, read and if need be repair the
manifest, open a write session, run the mutation and its idempotency record in one transaction,
flush, store the manifest, and release the lease. The function is cut into its stages; a stage that
fails resolves the lease by `failWithLease`, `flushFailure` or `Abandon` before it returns, as the
source does.

## Main definitions

* `Config`, `Descriptor`, `WriteResult`.
* `withWriteAttempt` and its stages.
-/

namespace Walrusd.Runtime

open Program Litestream

/-! ### Configuration -/

/-- `CompactionConfig`, without the fields that no modelled function reads. -/
structure CompactionConfig where
  enabled : Bool
  threshold : ℤ
  retention : ℤ
  timeout : ℤ
  deriving DecidableEq, Repr

/-- `Config`, without the fields that no modelled function reads. -/
structure Config where
  lease : Lease.Config
  requestTimeout : ℤ
  readInstanceIdleTTL : ℤ
  maxReadInstances : ℤ
  compaction : CompactionConfig
  deriving DecidableEq, Repr

/-- `DefaultConfig`. -/
def defaultConfig : Config where
  lease := Lease.defaultConfig
  requestTimeout := 20 * second
  readInstanceIdleTTL := 60 * second
  maxReadInstances := 200
  compaction :=
    { enabled := true, threshold := 8, retention := 600 * second, timeout := 30 * second }

/-- The part of a database descriptor that the programs read. -/
structure Descriptor where
  id : DatabaseID
  rootPrefix : String
  deriving DecidableEq, Repr

/-- The result of a successful write. -/
structure WriteResult where
  txid : String
  deduplicated : Bool
  deriving DecidableEq, Repr

section Attempt

variable {B : Type} (json : ManifestJson B) (cfg : Config) (d : Descriptor) (key : String)

/-! ### Ways to fail -/

/-- Release the lease, on a context that cannot be cancelled, and report the cause. -/
def failWithLease (held : Lease.Held) (cause : Err) : RuntimeM B (Except Err WriteResult) := do
  let _ : Option Err ← ask (.release held false)
  return .error cause

/-- Leave the lease to expire and report an unconfirmed flush. -/
def flushFailure (held : Lease.Held) (cause : Err) : RuntimeM B (Except Err WriteResult) := do
  ask (.abandon held)
  if cause.classOf = some .conflict then
    return .error (.wrap .conflict "litestream writer conflict during flush" "" cause)
  else return .error (.wrap .flushFailed "remote LTX flush not confirmed" "" cause)

/-- Close the session and report an unconfirmed flush. -/
def closeAndFail (held : Lease.Held) (s : Sess) (cause : Err) :
    RuntimeM B (Except Err WriteResult) := do
  ask (.closeSession s)
  flushFailure held cause

/-- Roll back, close the session, and fail with the lease released. -/
def failTransaction (held : Lease.Held) (s : Sess) (cause : Err) :
    RuntimeM B (Except Err WriteResult) := do
  ask (.rollback s)
  ask (.closeSession s)
  failWithLease held cause

/-- Close the session, leave the lease to expire, and fail. -/
def closeAndAbandon (held : Lease.Held) (s : Sess) (cause : Err) :
    RuntimeM B (Except Err WriteResult) := do
  ask (.closeSession s)
  ask (.abandon held)
  return .error cause

/-- `leaseStale`: the lease ran past its expiry minus the skew allowance, or was observed lost. -/
def leaseStale (held : Lease.Held) : RuntimeM B Bool := do
  let lost : Bool ← ask (.lost held)
  if lost then return true
  else
    let now : ℤ ← ask .now
    let expiresAt : ℤ ← ask (.expiresAt held)
    return !decide (now < expiresAt - cfg.lease.clockSkewAllowance)

/-- A Go slice of files; `none` is nil. -/
abbrev Slice := Option (List FileInfo)

/-- The slice that results from appending files to nil. -/
def appended (files : List FileInfo) : Slice := if files.isEmpty then none else some files

@[simp] theorem getD_appended (files : List FileInfo) : (appended files).getD [] = files := by
  cases files <;> rfl

/-! ### Session calls -/

/-- `lookupIdempotent`: the recorded TXID of the key, or the empty text. -/
def lookupIdempotent (s : Sess) : RuntimeM B (Except Err String) := do
  let prepared : Option Err ← ask (.execSchema s)
  match prepared with
  | some e => return .error (.wrap (classifySQLError e) "prepare idempotency table" "" e)
  | none =>
    let row : Except Err (Option String) ← ask (.selectTXID s key)
    match row with
    | .error e => return .error (.wrap (classifySQLError e) "read idempotency result" "" e)
    | .ok none => return .ok ""
    | .ok (some txid) => return .ok txid

/-- `recordIdempotent`: store the key's result inside the transaction. -/
def recordIdempotent (s : Sess) (txid : String) : RuntimeM B (Option Err) := do
  let inserted : Option Err ← ask (.insertKey s key txid)
  match inserted with
  | some e => return some (.wrap (classifySQLError e) "record idempotency result" "" e)
  | none => return none

/-- `NextTXID`: the text of the TXID that the session's flush will write. -/
def nextTXID (s : Sess) : RuntimeM B (Except Err String) := do
  let pos : Except Err ℕ ← ask (.pos s)
  match pos with
  | .error e => return .error e
  | .ok n => return .ok (formatTXID ((n + 1) % 2 ^ 64))

/-- `DisableWrite`: the flush barrier. -/
def disableWrite (s : Sess) : RuntimeM B (Option Err) := do
  let flushed : Option Err ← ask (.setWriteDisabled s)
  match flushed with
  | some e => return some (.annotated "litestream: flush barrier failed: " "" e)
  | none => return none

/-- `TXID`: the TXID that the session observes. -/
def sessionTXID (s : Sess) : RuntimeM B (Except Err String) := do
  let txid : Except Err String ← ask (.txid s)
  match txid with
  | .error e => return .error (.annotated "litestream: read txid: " "" e)
  | .ok txid => return .ok txid

/-! ### Compaction trigger -/

/-- `enqueueCompaction`: schedule one best-effort pass when the manifest shows a level over the
threshold. -/
def enqueueCompaction (files : List FileInfo) : RuntimeM B Unit :=
  if !cfg.compaction.enabled then return ()
  else if !manifestNeedsCompaction files cfg.compaction.threshold then return ()
  else do
    let loaded : Bool ← ask .loadOrStorePending
    if loaded then return ()
    else
      let sent : Bool ← ask .sendJob
      if sent then return () else ask .deletePending

/-! ### Stages -/

/-- Evict cached reads, close the session and release the lease; then the write is
acknowledged. -/
def acknowledge (held : Lease.Held) (s : Sess) (txid : String) (files : List FileInfo) :
    RuntimeM B (Except Err WriteResult) := do
  ask .evict
  ask (.closeSession s)
  let released : Option Err ← ask (.release held true)
  match released with
  | some e => return .error e
  | none =>
    enqueueCompaction cfg files
    return .ok { txid, deduplicated := false }

/-- Store the file index of the flushed session. With a manifest this is the commit record; a
replica without one gets a manifest from a listing if that succeeds. -/
def publish (held : Lease.Held) (manifest : Option Slice) (s : Sess) (txid : String) :
    RuntimeM B (Except Err WriteResult) :=
  match manifest with
  | some manifestFiles => do
    let captured : Slice ← ask (.manifestFiles s)
    let files := (captured.or manifestFiles).getD []
    match ← writeManifest json files with
    | some e => closeAndFail held s (.wrap .flushFailed "manifest update not confirmed" "" e)
    | none => acknowledge cfg held s txid files
  | none => do
    match ← rebuildManifest with
    | .error _ => acknowledge cfg held s txid []
    | .ok files =>
      match ← writeManifest json files with
      | some _ => acknowledge cfg held s txid []
      | none => acknowledge cfg held s txid files

/-- After the flush: the lease must not be stale and the flushed TXID must be the recorded one. -/
def confirmFlush (held : Lease.Held) (manifest : Option Slice) (s : Sess)
    (next : String) : RuntimeM B (Except Err WriteResult) := do
  if ← leaseStale cfg held then
    closeAndAbandon held s (.new .flushFailed
      "lease lost during flush; write not acknowledged, retry with the same idempotency key" 0 "")
  else
    match ← sessionTXID s with
    | .error e => closeAndAbandon held s (.wrap .flushFailed "read txid after flush" "" e)
    | .ok txid =>
      if txid ≠ next then
        closeAndAbandon held s (.new .flushFailed
          ("flushed txid " ++ txid ++ " does not match recorded txid " ++ next) 0 "")
      else publish json cfg held manifest s txid

/-- The flush barrier of a committed transaction. -/
def flush (held : Lease.Held) (manifest : Option Slice) (s : Sess) (next : String) :
    RuntimeM B (Except Err WriteResult) := do
  match ← disableWrite s with
  | some e => closeAndFail held s e
  | none => confirmFlush json cfg held manifest s next

/-- Commit the transaction and flush it, unless the lease is already stale. -/
def commitAndFlush (held : Lease.Held) (manifest : Option Slice) (s : Sess)
    (next : String) : RuntimeM B (Except Err WriteResult) := do
  if ← leaseStale cfg held then
    ask (.rollback s)
    closeAndAbandon held s (.new .leaseConflict
      ("lease expired before flush; transaction rolled back, " ++
        "retry with the same idempotency key") 0 "")
  else
    let committed : Option Err ← ask (.commit s)
    match committed with
    | some e =>
      ask (.rollback s)
      closeAndFail held s (.wrap .flushFailed "commit not confirmed" "" e)
    | none => flush json cfg held manifest s next

/-- Run the callback and record the key, inside the open transaction. -/
def mutate (held : Lease.Held) (manifest : Option Slice) (s : Sess) :
    RuntimeM B (Except Err WriteResult) := do
  let ran : Option Err ← ask (.callback s)
  match ran with
  | some e =>
    if isNestedTxError e then
      failTransaction held s (.wrap .invalidArgument
        "write callback must not manage transactions (no BEGIN/COMMIT inside fn)" "" e)
    else failTransaction held s (.wrap (classifySQLError e) "transaction failed" "" e)
  | none =>
    let expired : Option Err ← ask .ctxErr
    match expired with
    | some e =>
      failTransaction held s (.wrap .busy ("write attempt exceeded its deadline; " ++
        "transaction rolled back, retry with the same idempotency key") "" e)
    | none =>
      match ← nextTXID s with
      | .error e => failTransaction held s (.wrap (classifySQLError e) "compute next txid" "" e)
      | .ok next =>
        match ← recordIdempotent key s next with
        | some e => failTransaction held s e
        | none => commitAndFlush json cfg held manifest s next

/-- Store a rebuilt manifest, unless the current one covers the TXID. -/
def repairUncovered (current : Option (List FileInfo)) (tx : ℕ) : RuntimeM B (Option Err) :=
  if current.any fun files => manifestHasTXID files tx then return none
  else do
    match ← rebuildManifest with
    | .error e => return some (.wrap .remoteUnavailable "repair manifest" "" e)
    | .ok files =>
      match ← writeManifest json files with
      | some e => return some (.wrap .remoteUnavailable "write repaired manifest" "" e)
      | none => return none

/-- Repair the manifest for the retry of a recorded key; `none` when the retry may be
acknowledged. -/
def repairForRetry (txid : String) : RuntimeM B (Option Err) :=
  match parseTXID txid with
  | none => return none
  | some tx => do
    match ← readManifest json with
    | .error e => return some (.wrap .remoteUnavailable "read manifest" "" e)
    | .ok current => repairUncovered json current tx

/-- The key was recorded by an earlier attempt: repair the manifest if there is one, release the
lease and return the recorded result. -/
def deduplicate (held : Lease.Held) (manifest : Option Slice) (s : Sess)
    (txid : String) : RuntimeM B (Except Err WriteResult) := do
  ask (.rollback s)
  ask (.closeSession s)
  match ← (if manifest.isSome then repairForRetry json txid else return none) with
  | some e => failWithLease held e
  | none =>
    let released : Option Err ← ask (.release held true)
    match released with
    | some e => return .error e
    | none => return .ok { txid, deduplicated := true }

/-- The transaction of an open session. -/
def transaction (held : Lease.Held) (manifest : Option Slice) (s : Sess) :
    RuntimeM B (Except Err WriteResult) := do
  let begun : Option Err ← ask (.beginImmediate s)
  match begun with
  | some e =>
    ask (.closeSession s)
    failWithLease held (.wrap (classifySQLError e) "begin write transaction" "" e)
  | none =>
    match ← lookupIdempotent key s with
    | .error e => failTransaction held s e
    | .ok txid =>
      if txid ≠ "" then deduplicate json held manifest s txid
      else mutate json cfg key held manifest s

/-- Rebuild a manifest that lags behind the level-0 tail. A rebuild that lists nothing leaves the
nil slice. -/
def repairTail (files : List FileInfo) : RuntimeM B (Except Err Slice) := do
  match ← tailTXID with
  | .error e => return .error (.wrap .remoteUnavailable "probe replica tail" "" e)
  | .ok tail =>
    if tail > manifestMaxTXID files then
      match ← rebuildManifest with
      | .error e => return .error (.wrap .remoteUnavailable "rebuild manifest" "" e)
      | .ok rebuilt =>
        match ← writeManifest json rebuilt with
        | some e => return .error (.wrap .remoteUnavailable "write repaired manifest" "" e)
        | none => return .ok (appended rebuilt)
    else return .ok (some files)

/-- The files of the manifest, repaired if it lags; `none` when there is no manifest. -/
def planFiles : RuntimeM B (Except Err (Option Slice)) := do
  match ← readManifest json with
  | .error e => return .error (.wrap .remoteUnavailable "read manifest" "" e)
  | .ok none => return .ok none
  | .ok (some files) =>
    match ← repairTail json files with
    | .error e => return .error e
    | .ok files => return .ok (some files)

/-- The attempt once the lease is held. Without a manifest, and on a nil slice, the session is
opened on a listing. -/
def attemptWithLease (held : Lease.Held) : RuntimeM B (Except Err WriteResult) := do
  match ← planFiles json with
  | .error e => failWithLease held e
  | .ok manifest =>
    let opened : Except Err Sess ← ask (.openWrite manifest.join)
    match opened with
    | .error e => failWithLease held (wrapSessionOpenError "open write session" e)
    | .ok s => transaction json cfg key held manifest s

/-- The attempt once the database is registered. -/
def attemptWithEntry : RuntimeM B (Except Err WriteResult) := do
  let acquired : Except Err Lease.Held ← ask (.acquire d.id d.rootPrefix)
  match acquired with
  | .error e => return .error e
  | .ok held => attemptWithLease json cfg key held

/-- `withWriteAttempt`. -/
def withWriteAttempt : RuntimeM B (Except Err WriteResult) := do
  let entry : Except Err Unit ← ask .database
  match entry with
  | .error e => return .error e
  | .ok () =>
    let res ← attemptWithEntry json cfg d key
    ask .releaseDatabase
    return res

end Attempt

/-! ### Stages that fail or leave everything alone -/

section Facts

variable {B : Type} {json : ManifestJson B} {cfg : Config} {key : String}

/-- The program only cleans up, and it returns an error. -/
structure Fails (p : RuntimeM B (Except Err WriteResult)) : Prop where
  only : p.Only fun c => c.cleansUp = true
  yields : p.Yields fun res => ∃ e, res = .error e

theorem Fails.error (e : Err) : Fails (pure (.error e) : RuntimeM B _) := ⟨trivial, e, rfl⟩

theorem Fails.perform {c : Op B} {f : Resp c → RuntimeM B (Except Err WriteResult)}
    (hc : c.cleansUp = true) (hf : ∀ r, Fails (f r)) : Fails (ask c >>= f) :=
  ⟨.perform hc fun r => (hf r).only, Prog.yields_perform_bind fun r => (hf r).yields⟩

section

variable {held : Lease.Held} {s : Sess} {cause : Err}

theorem failWithLease_fails : Fails (failWithLease held cause : RuntimeM B _) :=
  .perform rfl fun _ => .error cause

theorem flushFailure_fails : Fails (flushFailure held cause : RuntimeM B _) := by
  refine .perform rfl fun _ => ?_
  split <;> exact .error _

theorem closeAndFail_fails : Fails (closeAndFail held s cause : RuntimeM B _) :=
  .perform rfl fun _ => flushFailure_fails

theorem failTransaction_fails : Fails (failTransaction held s cause : RuntimeM B _) :=
  .perform rfl fun _ => .perform rfl fun _ => failWithLease_fails

theorem closeAndAbandon_fails : Fails (closeAndAbandon held s cause : RuntimeM B _) :=
  .perform rfl fun _ => .perform rfl fun _ => .error cause

end

theorem leaseStale_only (held : Lease.Held) :
    (leaseStale cfg held : RuntimeM B _).Only fun c => c.kind = .clock := by
  refine .perform rfl fun lost => ?_
  cases lost
  · exact .perform rfl fun _ => .perform rfl fun _ => trivial
  · trivial

theorem recordIdempotent_only (s : Sess) (txid : String) :
    (recordIdempotent key s txid : RuntimeM B _).Only fun c => c.kind = .session := by
  refine .perform rfl ?_
  rintro (_ | e) <;> trivial

theorem nextTXID_only (s : Sess) : (nextTXID s : RuntimeM B _).Only fun c => c.kind = .session := by
  refine .perform rfl ?_
  rintro (e | n) <;> trivial

theorem disableWrite_only (s : Sess) :
    (disableWrite s : RuntimeM B _).Only fun c => c.kind = .session := by
  refine .perform rfl ?_
  rintro (_ | e) <;> trivial

theorem sessionTXID_only (s : Sess) :
    (sessionTXID s : RuntimeM B _).Only fun c => c.kind = .session := by
  refine .perform rfl ?_
  rintro (e | txid) <;> trivial

theorem sessionTXID_quiet (s : Sess) :
    (sessionTXID s : RuntimeM B _).Only fun c => c.alters = false := by
  refine .perform rfl ?_
  rintro (e | txid) <;> trivial

theorem enqueueCompaction_only (files : List FileInfo) :
    (enqueueCompaction cfg files : RuntimeM B _).Only fun c => c.kind = .queue := by
  unfold enqueueCompaction
  split
  · trivial
  split
  · trivial
  refine .perform rfl fun loaded => ?_
  cases loaded
  · refine .perform rfl fun sent => ?_
    cases sent
    · exact Prog.only_perform rfl
    · trivial
  · trivial

variable (json)

theorem repairUncovered_only (current : Option (List FileInfo)) (tx : ℕ) :
    (repairUncovered json current tx).Only fun c => c.kind.indexing = true := by
  unfold repairUncovered
  split
  · trivial
  refine (rebuildManifest_only.mono fun c hc => by rw [hc]; rfl).bind ?_
  rintro (e | files)
  · trivial
  · refine ((writeManifest_only json files).mono fun c hc => by rw [hc]; rfl).bind ?_
    rintro (_ | e) <;> trivial

theorem repairForRetry_only (txid : String) :
    (repairForRetry json txid).Only fun c => c.kind.indexing = true := by
  unfold repairForRetry
  split
  · trivial
  refine ((readManifest_only json).mono fun c hc => by rw [hc]; rfl).bind ?_
  rintro (e | current)
  · trivial
  · exact repairUncovered_only json current _

theorem repairTail_only (files : List FileInfo) :
    (repairTail json files).Only fun c => c.kind.indexing = true := by
  refine (tailTXID_only.mono fun c hc => by rw [hc]; rfl).bind ?_
  rintro (e | tail)
  · trivial
  simp only
  split
  · refine (rebuildManifest_only.mono fun c hc => by rw [hc]; rfl).bind ?_
    rintro (e | rebuilt)
    · trivial
    · refine ((writeManifest_only json rebuilt).mono fun c hc => by rw [hc]; rfl).bind ?_
      rintro (_ | e) <;> trivial
  · trivial

theorem planFiles_only : (planFiles json).Only fun c => c.kind.indexing = true := by
  refine ((readManifest_only json).mono fun c hc => by rw [hc]; rfl).bind ?_
  rintro (e | _ | files)
  · trivial
  · trivial
  · refine (repairTail_only json files).bind ?_
    rintro (e | files) <;> trivial

end Facts

end Walrusd.Runtime
