import Mathlib.Data.List.Infix

/-!
# Classified errors

The error values of the runtime (`walrusderr/errors.go`), the context errors, and the errors of
the SQL layer and the stores that the runtime tells apart with `errors.Is` and `errors.As`. An
error is a chain; `Err.classOf` reads the class of the outermost classified error of the chain.

## Main definitions

* `Class`, `Err`, `Err.classOf`.
* `classifySQLError`, `wrapSessionOpenError`, `isRetryableWrite`, `isNestedTxError`
  (`runtime/retry.go`, `runtime/runtime.go`).
-/

namespace Walrusd

/-- A stable, machine-readable error classification. -/
inductive Class
  | busy
  | leaseConflict
  | flushFailed
  | remoteUnavailable
  | conflict
  | configurationInvalid
  | invalidArgument
  | idempotencyMismatch
  deriving DecidableEq, Repr

/-- The code of a class that bindings match on. -/
def Class.text : Class → String
  | .busy => "DB_BUSY"
  | .leaseConflict => "DB_LEASE_CONFLICT"
  | .flushFailed => "DB_FLUSH_FAILED"
  | .remoteUnavailable => "DB_REMOTE_UNAVAILABLE"
  | .conflict => "DB_CONFLICT"
  | .configurationInvalid => "DB_CONFIGURATION_INVALID"
  | .invalidArgument => "DB_INVALID_ARGUMENT"
  | .idempotencyMismatch => "DB_IDEMPOTENCY_MISMATCH"

/-- The SQLite result codes that the runtime distinguishes. -/
inductive SqliteCode
  | busy | locked | constraint | range | mismatch | readonly | perm | full | tooBig | corrupt
  | notADB | other (code : ℕ)
  deriving DecidableEq, Repr

/-- Go error values, as chains. `new` and `wrap` are `*walrusderr.Error` without and with a cause;
`annotated` is `fmt.Errorf` with one `%w`, the texts standing before and after it. -/
inductive Err
  | new (cls : Class) (message : String) (retryAfterMs : ℤ) (databaseID : String)
  | wrap (cls : Class) (message : String) (databaseID : String) (cause : Err)
  | annotated (before after : String) (cause : Err)
  | canceled
  | deadlineExceeded
  | registryBusy
  | errRetry
  | manifestNotFound
  | noCompaction
  | readSessionClosed
  | sqlite (code : SqliteCode) (message : String)
  | other (message : String)
  deriving DecidableEq, Repr

namespace Err

/-- `walrusderr.Busy`: a busy error with a Retry-After hint in milliseconds. -/
def busy (message : String) (retryAfterMs : ℤ) : Err := .new .busy message retryAfterMs ""

/-- The message of a classified error, naming its database when it is annotated with one. -/
def located (databaseID message : String) : String :=
  if databaseID = "" then message else "database_id " ++ databaseID.quote ++ ": " ++ message

/-- The text of an error. -/
def text : Err → String
  | .new cls message _ databaseID => cls.text ++ ": " ++ located databaseID message
  | .wrap cls message databaseID cause =>
      cls.text ++ ": " ++ located databaseID message ++ ": " ++ cause.text
  | .annotated before after cause => before ++ cause.text ++ after
  | .canceled => "context canceled"
  | .deadlineExceeded => "context deadline exceeded"
  | .registryBusy =>
      "litestream: vfs registry busy (callback re-entered the runtime, or an open is stuck)"
  | .errRetry => "lease: retry"
  | .manifestNotFound => "litestream: manifest not found"
  | .noCompaction => "no compaction"
  | .readSessionClosed => "runtime: cached read session closed"
  | .sqlite _ message => message
  | .other message => message

/-- The class of the outermost classified error of a chain, if there is one. -/
def classOf : Err → Option Class
  | .new cls _ _ _ => some cls
  | .wrap cls _ _ _ => some cls
  | .annotated _ _ cause => cause.classOf
  | _ => none

/-- `errors.Is`: whether the chain contains the sentinel `target`. -/
def is : Err → (target : Err) → Bool
  | .wrap cls message databaseID cause, target =>
      decide (Err.wrap cls message databaseID cause = target) || cause.is target
  | .annotated before after cause, target =>
      decide (Err.annotated before after cause = target) || cause.is target
  | e, target => decide (e = target)

/-- `walrusderr.WithDatabase`: annotate an error with the database it concerns. -/
def withDatabase (databaseID : String) (err : Err) : Err :=
  if databaseID = "" then err
  else match err with
    | .new cls message retryAfterMs _ => .new cls message retryAfterMs databaseID
    | .wrap cls message _ cause => .wrap cls message databaseID cause
    | err => .annotated ("database_id " ++ databaseID.quote ++ ": ") "" err

theorem classOf_withDatabase (databaseID : String) (err : Err) :
    (err.withDatabase databaseID).classOf = err.classOf := by
  unfold withDatabase
  split
  · rfl
  · split <;> rfl

/-- `errors.As` on `sqlite3.Error`: the code of the outermost SQLite error of a chain. -/
def sqliteCode : Err → Option SqliteCode
  | .wrap _ _ _ cause => cause.sqliteCode
  | .annotated _ _ cause => cause.sqliteCode
  | .sqlite code _ => some code
  | _ => none

end Err

/-- The class that drives the caller-visible code and the retry decision for an error from the
SQL or session layer. -/
def classifySQLError (err : Err) : Class :=
  if err.is .registryBusy then .busy
  else if err.is .canceled || err.is .deadlineExceeded then .busy
  else match err.sqliteCode with
    | some .busy | some .locked => .busy
    | some .constraint | some .range | some .mismatch => .invalidArgument
    | some .readonly | some .perm | some .full | some .tooBig | some .corrupt | some .notADB =>
        .configurationInvalid
    | _ => .conflict

/-- A failed session open: a busy VFS registry is retryable contention, anything else is remote
unavailability. -/
def wrapSessionOpenError (message : String) (err : Err) : Err :=
  if err.is .registryBusy then .wrap .busy message "" err
  else .wrap .remoteUnavailable message "" err

/-- The explicitly retryable write errors; unclassified errors are terminal. -/
def isRetryableWrite (err : Err) : Bool :=
  match err.classOf with
  | some .busy | some .leaseConflict | some .flushFailed | some .remoteUnavailable
  | some .conflict => true
  | _ => false

/-- Callbacks that issued their own `BEGIN` or `SAVEPOINT`, recognised by SQLite's messages. -/
def isNestedTxError (err : Err) : Bool :=
  let s := err.text.toLower.toList
  decide ("cannot start a transaction within a transaction".toList <:+: s) ||
    decide ("already in a transaction".toList <:+: s) ||
    decide ("cannot commit - no transaction is active".toList <:+: s)

end Walrusd
