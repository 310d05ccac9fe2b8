import Mathlib
import Walrusd.Error
import Walrusd.Path
import Walrusd.Program.Ledger
import Walrusd.Program.Script

/-!
# The budget of temporary files

All VFS wrappers of one bridge share a budget for their temporary files (`litestream/file.go`). A
file checks the budget before a write and reconciles it after a change. Both measure the directory
of the wrapper first and then, under the lock of the budget, put the measured size in the place of
the one that was accounted for.

A measurement and its application are separate calls of the programs here, and so is every access
to the file system; any number of goroutines runs them, on any number of wrappers. The sizes that
are written and the walks through a directory are left open, so a walk may miss what changes while
it runs.

## Main definitions

* `Buffers`, `budgetSystem`.
* `Buffers.liveSize` — the size of the files under the live root of a wrapper.
* `Current` — no outdated measurement is applied.

## Main results

* `reconcile_undisturbed` — a measurement that nothing disturbs is applied when it is current.
* `budget_exact_at_rest` — if no outdated measurement is applied, then the budget is exact at rest.
* `budget_undercounts` — a run after which it is not.
-/

namespace Walrusd.Litestream

open Program Function List Option

/-! ### Files and calls -/

section Programs

variable {ω : Type}

/-- A file of the temporary directories that a wrapper has made, by the number of the directory and
the path below it. -/
structure BufferPath (ω : Type) where
  vfs : ω
  root : ℕ
  name : String
  deriving DecidableEq, Repr

/-- `limitedFile`: a file with a lock of its own. -/
structure LimitedFile (ω : Type) where
  id : ℕ
  path : BufferPath ω
  deriving DecidableEq, Repr

/-- The calls: the locks of the files, the locked sections of a wrapper and of the budget, and the
file system. -/
inductive BudgetCall (ω : Type)
  | lockFile (f : LimitedFile ω)
  | unlockFile (f : LimitedFile ω)
  | bufferRoot (v : ω)
  | walk (v : ω) (root : ℕ)
  | info (path : BufferPath ω)
  | account (v : ω) (current : ℕ)
  | release (v : ω)
  | writeAt (path : BufferPath ω) (length offset : ℕ)
  | truncate (path : BufferPath ω) (size : ℕ)
  | closeFile (path : BufferPath ω)
  | takeTempFile (v : ω) (name : String)
  | remove (path : BufferPath ω)
  | closeMain (v : ω)
  | fileClosed (v : ω)
  | takeRoot (v : ω)
  | removeAll (v : ω) (root : ℕ)

/-- What a call returns. A walk returns the files it meets, `info` nothing for a file that does not
exist, and the application of a measurement what is in use after it. -/
def BudgetCall.Resp : BudgetCall ω → Type
  | .lockFile _ => Unit
  | .unlockFile _ => Unit
  | .bufferRoot _ => Option ℕ
  | .walk _ _ => Except Err (List String)
  | .info _ => Except Err (Option ℕ)
  | .account _ _ => ℤ
  | .release _ => Unit
  | .writeAt _ _ _ => ℕ × Option Err
  | .truncate _ _ => Option Err
  | .closeFile _ => Option Err
  | .takeTempFile _ _ => Option (ℕ × String)
  | .remove _ => Option Err
  | .closeMain _ => Option Err
  | .fileClosed _ => Option ℕ
  | .takeRoot _ => Option (Option ℕ)
  | .removeAll _ _ => Option Err

/-- Programs over the files of a bridge. -/
abbrev BudgetM (ω : Type) := Prog (BudgetCall ω) BudgetCall.Resp

/-! ### The budget -/

/-- `ErrTempWriteBufferExceeded`. -/
def errTempWriteBufferExceeded : Err := .other "litestream: max temp write buffer exceeded"

/-- The error of `check`. -/
def writeExceeded (used additional limit : ℤ) : Err :=
  .annotated "" (": " ++ toString used ++ " bytes in use, " ++ toString additional ++
    " byte write requested, limit " ++ toString limit) errTempWriteBufferExceeded

/-- The error of `reconcile`. -/
def exceeded (used limit : ℤ) : Err :=
  .annotated "" (": " ++ toString used ++ " bytes in use, limit " ++ toString limit)
    errTempWriteBufferExceeded

/-- `errTempFileNotFound`. -/
def errTempFileNotFound : Err := .other "litestream: temp file not tracked"

/-- The walk of `bufferSize`: the sizes of the files that are met, until one cannot be read. -/
def walkSize (v : ω) (root : ℕ) : List String → ℕ → BudgetM ω (Except Err ℕ)
  | [], size => return .ok size
  | name :: rest, size => do
    let info : Except Err (Option ℕ) ← perform (BudgetCall.info ⟨v, root, name⟩)
    match info with
    | .error err => return .error err
    | .ok none => walkSize v root rest size
    | .ok (some n) => walkSize v root rest (size + n)

/-- `bufferSize`: the size of the files under the root of a wrapper. -/
def bufferSize (v : ω) : BudgetM ω (Except Err ℕ) := do
  let root : Option ℕ ← perform (BudgetCall.bufferRoot v)
  match root with
  | none => return .ok 0
  | some root =>
    let walk : Except Err (List String) ← perform (BudgetCall.walk v root)
    match walk with
    | .error err => return .error err
    | .ok names => walkSize v root names 0

/-- `check`: whether a write of `additional` bytes fits. -/
def check (limit : ℤ) (v : ω) (additional : ℕ) : BudgetM ω (Option Err) := do
  if limit ≤ 0 then
    return none
  let measured ← bufferSize v
  match measured with
  | .error err => return some err
  | .ok current =>
    let used : ℤ ← perform (BudgetCall.account v current)
    if used + additional > limit then
      return some (writeExceeded used additional limit)
    return none

/-- `reconcile`: account for the size of the files. -/
def reconcile (limit : ℤ) (v : ω) : BudgetM ω (Option Err) := do
  if limit ≤ 0 then
    return none
  let measured ← bufferSize v
  match measured with
  | .error err => return some err
  | .ok current =>
    let used : ℤ ← perform (BudgetCall.account v current)
    if used > limit then
      return some (exceeded used limit)
    return none

/-- `limitedFile.WriteAt`, of `length` bytes. -/
def writeAt (limit : ℤ) (f : LimitedFile ω) (length offset : ℕ) : BudgetM ω (ℕ × Option Err) := do
  let _ ← perform (BudgetCall.lockFile f)
  let refused ← check limit f.path.vfs length
  match refused with
  | some err =>
    let _ ← perform (BudgetCall.unlockFile f)
    return (0, some err)
  | none =>
    let written : ℕ × Option Err ← perform (BudgetCall.writeAt f.path length offset)
    let budgetErr ← reconcile limit f.path.vfs
    let _ ← perform (BudgetCall.unlockFile f)
    return (written.1, written.2.or budgetErr)

/-- `limitedFile.Truncate`. -/
def truncate (limit : ℤ) (f : LimitedFile ω) (size : ℕ) : BudgetM ω (Option Err) := do
  let _ ← perform (BudgetCall.lockFile f)
  let err : Option Err ← perform (BudgetCall.truncate f.path size)
  let budgetErr ← reconcile limit f.path.vfs
  let _ ← perform (BudgetCall.unlockFile f)
  return err.or budgetErr

/-- `filepath.Clean`. -/
def canonical (name : String) : String := String.ofList (Path.clean name.toList)

/-- `deleteTempFile`; a file that does not exist any more is removed without an error. -/
def deleteTempFile (limit : ℤ) (v : ω) (name : String) : BudgetM ω (Option Err) := do
  let path : Option (ℕ × String) ← perform (BudgetCall.takeTempFile v (canonical name))
  match path with
  | none => return some errTempFileNotFound
  | some (root, file) =>
    let err : Option Err ← perform (BudgetCall.remove ⟨v, root, file⟩)
    match err with
    | some err => return some err
    | none =>
      let _ ← reconcile limit v
      return none

/-- `localTempFile.Close`, the first time. -/
def closeTempFile (limit : ℤ) (path : BufferPath ω) (deleteOnClose : Bool) :
    BudgetM ω (Option Err) := do
  let closeErr : Option Err ← perform (BudgetCall.closeFile path)
  if deleteOnClose then
    let err : Option Err ← perform (BudgetCall.remove path)
    let _ ← reconcile limit path.vfs
    return closeErr.or err
  else
    let _ ← reconcile limit path.vfs
    return closeErr

/-- `trackedFile.Close`, the first time: the last main file to be closed takes the files of its
wrapper with it. -/
def closeMainFile (v : ω) : BudgetM ω (Option Err) := do
  let closeErr : Option Err ← perform (BudgetCall.closeMain v)
  let root : Option ℕ ← perform (BudgetCall.fileClosed v)
  match root with
  | none => return closeErr
  | some root =>
    let _ ← perform (BudgetCall.release v)
    let _ ← perform (BudgetCall.removeAll v root)
    return closeErr

/-- `discardBuffers`. -/
def discardBuffers (v : ω) : BudgetM ω (Option Err) := do
  let root : Option (Option ℕ) ← perform (BudgetCall.takeRoot v)
  match root with
  | none => return none
  | some none =>
    let _ ← perform (BudgetCall.release v)
    return none
  | some (some root) =>
    let _ ← perform (BudgetCall.release v)
    let err : Option Err ← perform (BudgetCall.removeAll v root)
    return err.map (.annotated ("litestream: remove write buffer " ++ toString root ++ ": ") "")

end Programs

/-! ### The temporary directories of a bridge -/

/-- The size of the files of a directory. -/
def dirSize (files : List (String × ℕ)) : ℕ := (files.map Prod.snd).sum

/-- The budget of a bridge, and for each wrapper the bytes that are accounted for, its live root,
the number of its next root, its directories, the paths of its named temporary files and the number
of its open main files. `extended` says whether a `Truncate` has made a file larger. -/
structure Buffers (ω : Type) where
  used : ℤ
  accounted : ω → ℕ
  root : ω → Option ℕ
  nextRoot : ω → ℕ
  dirs : ω → ℕ → List (String × ℕ)
  tempFiles : ω → List (String × ℕ × String)
  activeFiles : ω → ℕ
  locked : ℕ → Bool
  extended : Bool

namespace Buffers

variable {ω : Type}

/-- A new bridge. -/
def new (ω : Type) : Buffers ω :=
  ⟨0, fun _ => 0, fun _ => none, fun _ => 0, fun _ _ => [], fun _ => [], fun _ => 0, fun _ => false,
    false⟩

/-- The size of the files under the live root of a wrapper. -/
def liveSize (w : Buffers ω) (v : ω) : ℕ :=
  match w.root v with
  | none => 0
  | some root => dirSize (w.dirs v root)

variable [DecidableEq ω]

/-- Replace the files of a directory. -/
def setDir (w : Buffers ω) (v : ω) (root : ℕ) (files : List (String × ℕ)) : Buffers ω :=
  { w with dirs := update w.dirs v (update (w.dirs v) root files) }

/-- The files of the directory of a path. -/
def siblings (w : Buffers ω) (path : BufferPath ω) : List (String × ℕ) := w.dirs path.vfs path.root

/-- The file at a path gets another size; a file that was removed is in no directory. -/
def setSize (w : Buffers ω) (path : BufferPath ω) (size : ℕ) : Buffers ω :=
  w.setDir path.vfs path.root
    ((w.siblings path).map fun e => if e.1 = path.name then (e.1, size) else e)

/-- The size of the file at a path. -/
def sizeOf (w : Buffers ω) (path : BufferPath ω) : Option ℕ :=
  (w.siblings path).lookup path.name

/-- Whether the file at a path is smaller than the given size. -/
def smaller (w : Buffers ω) (path : BufferPath ω) (size : ℕ) : Bool :=
  (w.siblings path).any fun e => e.1 = path.name && e.2 < size

/-- The locked section of `check` and `reconcile`. -/
def account (w : Buffers ω) (v : ω) (current : ℕ) : Buffers ω :=
  { w with used := max 0 (w.used + (current - w.accounted v))
           accounted := update w.accounted v current }

/-- The locked section of `release`. -/
def release (w : Buffers ω) (v : ω) : Buffers ω :=
  { w with used := max 0 (w.used - w.accounted v)
           accounted := update w.accounted v 0 }

/-- Unlink the file at a path. -/
def unlink (w : Buffers ω) (path : BufferPath ω) : Buffers ω :=
  w.setDir path.vfs path.root ((w.siblings path).filter fun e => e.1 ≠ path.name)

/-- The locked section of `fileClosed`: the root is taken away with the last main file. -/
def fileClosed (w : Buffers ω) (v : ω) : Option ℕ × Buffers ω :=
  let activeFiles := update w.activeFiles v (w.activeFiles v - 1)
  if w.activeFiles v - 1 = 0 then
    (w.root v, { w with activeFiles, root := update w.root v none })
  else (none, { w with activeFiles })

/-- The locked section of `discardBuffers`: nothing is taken away while a main file is open. -/
def takeRoot (w : Buffers ω) (v : ω) : Option (Option ℕ) × Buffers ω :=
  if 0 < w.activeFiles v then (none, w)
  else
    (some (w.root v),
      { w with root := update w.root v none
               tempFiles := update w.tempFiles v [] })

/-- The answers to a call, and the directories after it. A walk meets any files and may fail, and
so may every access to the file system; a write and a truncation leave a file of any size. -/
def Answers (w : Buffers ω) : (c : BudgetCall ω) → c.Resp → Buffers ω → Prop
  | .lockFile f, _, w' =>
    w.locked f.id = false ∧ w' = { w with locked := update w.locked f.id true }
  | .unlockFile f, _, w' => w' = { w with locked := update w.locked f.id false }
  | .bufferRoot v, r, w' => r = w.root v ∧ w' = w
  | .walk _ _, _, w' => w' = w
  | .info path, r, w' => (r = .ok (w.sizeOf path) ∨ ∃ err, r = .error err) ∧ w' = w
  | .account v current, r, w' => r = (w.account v current).used ∧ w' = w.account v current
  | .release v, _, w' => w' = w.release v
  | .writeAt path _ _, _, w' => ∃ size, w' = w.setSize path size
  | .truncate path _, _, w' =>
    ∃ size, w' = { w.setSize path size with extended := w.extended || w.smaller path size }
  | .closeFile _, _, w' => w' = w
  | .takeTempFile v name, r, w' => r = (w.tempFiles v).lookup name ∧ w' = { w with
      tempFiles := update w.tempFiles v ((w.tempFiles v).filter fun e => e.1 ≠ name) }
  | .remove path, r, w' => (r = none ∧ w' = w.unlink path) ∨ (r ≠ none ∧ w' = w)
  | .closeMain _, _, w' => w' = w
  | .fileClosed v, r, w' => (r, w') = w.fileClosed v
  | .takeRoot v, r, w' => (r, w') = w.takeRoot v
  | .removeAll v root, r, w' => (r = none ∧ w' = w.setDir v root []) ∨ (r ≠ none ∧ w' = w)

/-- `ensureBufferRoot`: a wrapper without a root makes an empty one. -/
def ensureBufferRoot (w : Buffers ω) (v : ω) : ℕ × Buffers ω :=
  match w.root v with
  | some root => (root, w)
  | none =>
    (w.nextRoot v, { w.setDir v (w.nextRoot v) [] with
      root := update w.root v (some (w.nextRoot v))
      nextRoot := update w.nextRoot v (w.nextRoot v + 1) })

/-- A file that does not exist yet is created. -/
def create (w : Buffers ω) (path : BufferPath ω) : Buffers ω :=
  if path.name ∈ (w.siblings path).map Prod.fst then w
  else w.setDir path.vfs path.root ((path.name, 0) :: w.siblings path)

/-- `openTempFile`: open a file of the root, which is tracked unless it has no name. -/
def openTempFile (w : Buffers ω) (v : ω) (file : String) (tracked : Option String) : Buffers ω :=
  let (root, w) := w.ensureBufferRoot v
  let w := w.create ⟨v, root, file⟩
  let entry := tracked.toList.map fun name => (name, root, file)
  { w with tempFiles := update w.tempFiles v (entry ++ w.tempFiles v) }

/-- A main file is opened. -/
def openMainFile (w : Buffers ω) (v : ω) : Buffers ω :=
  { w with activeFiles := update w.activeFiles v (w.activeFiles v + 1) }

end Buffers

/-- A call on the files of a bridge. -/
inductive BudgetTask (ω : Type)
  | writeAt (f : LimitedFile ω) (length offset : ℕ)
  | truncate (f : LimitedFile ω) (size : ℕ)
  | deleteTempFile (v : ω) (name : String)
  | closeTempFile (path : BufferPath ω) (deleteOnClose : Bool)
  | closeMainFile (v : ω)
  | discardBuffers (v : ω)

/-- What a call returns: a write, or one of the others. -/
inductive BudgetOutcome
  | written (n : ℕ) (err : Option Err)
  | finished (err : Option Err)
  deriving DecidableEq

/-- The program of a call. -/
def BudgetTask.prog {ω : Type} (limit : ℤ) : BudgetTask ω → BudgetM ω BudgetOutcome
  | .writeAt f length offset => do
    let r ← Litestream.writeAt limit f length offset
    return .written r.1 r.2
  | .truncate f size => return .finished (← Litestream.truncate limit f size)
  | .deleteTempFile v name => return .finished (← Litestream.deleteTempFile limit v name)
  | .closeTempFile path deleteOnClose =>
    return .finished (← Litestream.closeTempFile limit path deleteOnClose)
  | .closeMainFile v => return .finished (← Litestream.closeMainFile v)
  | .discardBuffers v => return .finished (← Litestream.discardBuffers v)

/-- The concurrent calls on the files of a bridge; files are opened at any time. -/
def budgetSystem (ω ι : Type) [DecidableEq ω] (limit : ℤ) :
    System (Buffers ω) ι (BudgetCall ω) BudgetCall.Resp BudgetOutcome where
  start w _ p w' := ∃ task : BudgetTask ω, p = task.prog limit ∧ w' = w
  call w _ c r w' := w.Answers c r w'
  env w w' := (∃ v file tracked, w' = w.openTempFile v file tracked) ∨ ∃ v, w' = w.openMainFile v

/-- No outdated measurement is applied: a measured size is the size of the files at the moment it
is applied, a wrapper whose bytes are released has no files, and a measurement fails only while the
bytes of the wrapper are accounted for. -/
def Current {ω ι : Type} (w : Buffers ω) (_ : ι) :
    (c : BudgetCall ω) → c.Resp → Buffers ω → Prop
  | .account v current, _, _ => current = w.liveSize v
  | .release v, _, _ => w.liveSize v = 0
  | .walk v _, r, _ => (∃ names, r = .ok names) ∨ w.accounted v = w.liveSize v
  | .info path, r, _ => (∃ found, r = .ok found) ∨ w.accounted path.vfs = w.liveSize path.vfs
  | _, _, _ => True

/-! ### The stages of a call -/

/-- Where a call is: it owes nothing, it has written to or changed the files of a wrapper and has
not reconciled them, it is a write that will return an error, or it has taken the root of a wrapper
away and will release its bytes, and remove the files. -/
inductive BudgetStage (ω : Type)
  | idle
  | writing (v : ω)
  | changed (v : ω)
  | failed
  | closing (v : ω) (root : Option ℕ)
  | removing (v : ω) (root : ℕ)

namespace BudgetStage

variable {ω : Type}

/-- The stage after a measurement has failed. -/
def missed : BudgetStage ω → BudgetStage ω
  | .writing _ => .failed
  | .changed _ => .idle
  | s => s

/-- The stage after a measurement is applied and `used` bytes are in use. -/
def settled (limit used : ℤ) : BudgetStage ω → BudgetStage ω
  | .changed _ => .idle
  | _ => if limit < used then .failed else .idle

/-- The stage after an answered call. -/
def after (limit : ℤ) (s : BudgetStage ω) : (c : BudgetCall ω) → c.Resp → BudgetStage ω
  | .walk _ _, .error _ => s.missed
  | .info _, .error _ => s.missed
  | .account _ _, used => s.settled limit used
  | .writeAt path _ _, _ => .writing path.vfs
  | .truncate path _, _ => .changed path.vfs
  | .closeFile path, _ => .changed path.vfs
  | .remove path, none => .changed path.vfs
  | .fileClosed v, some root => .closing v (some root)
  | .takeRoot v, some root => .closing v root
  | .release v, _ =>
    match s with
    | .closing _ (some root) => .removing v root
    | _ => .idle
  | .removeAll _ _, _ => .idle
  | _, _ => s

/-- The calls of each stage. -/
def Allows : BudgetStage ω → BudgetCall ω → Prop
  | .idle, .release _ => False
  | .idle, .removeAll _ _ => False
  | .idle, _ => True
  | .writing v, .bufferRoot v' => v' = v
  | .writing v, .walk v' _ => v' = v
  | .writing v, .info path => path.vfs = v
  | .writing v, .account v' _ => v' = v
  | .changed v, .bufferRoot v' => v' = v
  | .changed v, .walk v' _ => v' = v
  | .changed v, .info path => path.vfs = v
  | .changed v, .account v' _ => v' = v
  | .changed v, .remove path => path.vfs = v
  | .failed, .unlockFile _ => True
  | .closing v _, .release v' => v' = v
  | .removing v root, .removeAll v' root' => v' = v ∧ root' = root
  | _, _ => False

/-- Whether the bytes of a wrapper may differ from what is accounted for. -/
def Touches : BudgetStage ω → ω → Prop
  | .writing v, v' => v = v'
  | .changed v, v' => v = v'
  | .closing v _, v' => v = v'
  | _, _ => False

/-- Whether the call holds a root that was taken away. -/
def Holds : BudgetStage ω → ω → ℕ → Prop
  | .closing v root, v', root' => v = v' ∧ root = some root'
  | .removing v root, v', root' => v = v' ∧ root = root'
  | _, _, _ => False

/-- Whether the call is a write that has not reconciled the files of a wrapper. -/
def Writes : BudgetStage ω → ω → Prop
  | .writing v, v' => v = v'
  | _, _ => False

/-- Whether the call is a write that has not reconciled its files, or that will return an error. -/
def Owes : BudgetStage ω → Prop
  | .writing _ => True
  | .failed => True
  | _ => False

/-- The stages in which the files of a wrapper are measured. -/
def Measures (s : BudgetStage ω) (v : ω) : Prop := s = .idle ∨ s = .writing v ∨ s = .changed v

/-- What a call returns: a write that failed returns an error. -/
def Returns (s : BudgetStage ω) (o : BudgetOutcome) : Prop :=
  s = .idle ∨ s = .failed ∧ ∃ n err, o = .written n (some err)

end BudgetStage

/-- The protocol of the calls. -/
def budgeting (ω : Type) (limit : ℤ) : Protocol (BudgetCall ω) BudgetCall.Resp (BudgetStage ω) where
  allow := BudgetStage.Allows
  next s c r s' := s' = s.after limit c r

instance (ω : Type) (limit : ℤ) : (budgeting ω limit).Steps (BudgetStage.after limit) := ⟨id⟩

section Obeys

variable {ω : Type} {limit : ℤ} {s : BudgetStage ω} {v : ω}

/-- A measurement keeps the stage unless it fails. -/
def MeasuredFrom (s : BudgetStage ω) (s' : BudgetStage ω) (r : Except Err ℕ) : Prop :=
  (∃ size, r = .ok size ∧ s' = s) ∨ ∃ err, r = .error err ∧ s' = s.missed

theorem walkSize_obeys (hs : s.Measures v) (root : ℕ) (names : List String) (size : ℕ) :
    (walkSize v root names size).Obeys (budgeting ω limit) (MeasuredFrom s) s := by
  induction names generalizing size with
  | nil => exact .inl ⟨size, rfl, rfl⟩
  | cons name rest ih =>
    refine .perform ?_ ?_
    · rcases hs with rfl | rfl | rfl
      · trivial
      · rfl
      · rfl
    · rintro (err | (- | n)) _ rfl
      · exact .inr ⟨err, rfl, rfl⟩
      · exact ih size
      · exact ih (size + n)

theorem bufferSize_obeys (hs : s.Measures v) :
    (bufferSize v).Obeys (budgeting ω limit) (MeasuredFrom s) s := by
  refine .perform ?_ ?_
  · rcases hs with rfl | rfl | rfl
    · trivial
    · rfl
    · rfl
  rintro (- | root) _ rfl
  · exact .inl ⟨0, rfl, rfl⟩
  refine .perform ?_ ?_
  · rcases hs with rfl | rfl | rfl
    · trivial
    · rfl
    · rfl
  rintro (err | names) _ rfl
  · exact .inr ⟨err, rfl, rfl⟩
  · exact walkSize_obeys hs root names 0

section

variable (hlimit : 0 < limit)
include hlimit

theorem check_obeys (v : ω) (additional : ℕ) :
    (check limit v additional).Obeys (budgeting ω limit)
      (fun s r => s = .idle ∨ s = .failed ∧ r ≠ none) .idle := by
  unfold check
  rw [if_neg (not_le.mpr hlimit)]
  refine (bufferSize_obeys (v := v) (.inl rfl)).bind ?_
  rintro _ _ (⟨current, rfl, rfl⟩ | ⟨err, rfl, rfl⟩)
  · refine .does trivial ?_
    rintro (used : ℤ)
    simp only [BudgetStage.after, BudgetStage.settled]
    split
    · split
      · exact .inr ⟨rfl, some_ne_none _⟩
      · exact .inl rfl
    · next hroom =>
      rw [if_neg (by omega)]
      exact .inl rfl
  · exact .inl rfl

theorem reconcile_obeys_writing (v : ω) :
    (reconcile limit v).Obeys (budgeting ω limit)
      (fun s r => s = .idle ∨ s = .failed ∧ r ≠ none) (.writing v) := by
  unfold reconcile
  rw [if_neg (not_le.mpr hlimit)]
  refine (bufferSize_obeys (v := v) (.inr (.inl rfl))).bind ?_
  rintro _ _ (⟨current, rfl, rfl⟩ | ⟨err, rfl, rfl⟩)
  · refine .does rfl ?_
    rintro (used : ℤ)
    simp only [BudgetStage.after, BudgetStage.settled]
    split
    · exact .inr ⟨rfl, some_ne_none _⟩
    · exact .inl rfl
  · exact .inr ⟨rfl, some_ne_none _⟩

theorem reconcile_obeys_changed (v : ω) :
    (reconcile limit v).Obeys (budgeting ω limit) (fun s _ => s = .idle) (.changed v) := by
  unfold reconcile
  rw [if_neg (not_le.mpr hlimit)]
  refine (bufferSize_obeys (v := v) (.inr (.inr rfl))).bind ?_
  rintro _ _ (⟨current, rfl, rfl⟩ | ⟨err, rfl, rfl⟩)
  · refine .does rfl ?_
    rintro (used : ℤ)
    split <;> rfl
  · rfl

theorem writeAt_obeys (f : LimitedFile ω) (length offset : ℕ) :
    (writeAt limit f length offset).Obeys (budgeting ω limit)
      (fun s r => s.Returns (.written r.1 r.2)) .idle := by
  refine .does trivial fun _ => ?_
  refine (check_obeys hlimit f.path.vfs length).bind ?_
  rintro s (- | err) hs
  · obtain rfl : s = .idle := hs.resolve_right fun h => h.2 rfl
    refine .does trivial ?_
    rintro ⟨n, err⟩
    refine (reconcile_obeys_writing hlimit f.path.vfs).bind ?_
    rintro _ budgetErr (rfl | ⟨rfl, hne⟩)
    · refine .does trivial fun _ => ?_
      exact .inl rfl
    refine .does trivial fun _ => ?_
    obtain ⟨e, rfl⟩ := ne_none_iff_exists'.mp hne
    cases err with
    | none => exact .inr ⟨rfl, n, e, rfl⟩
    | some err => exact .inr ⟨rfl, n, err, rfl⟩
  · refine .perform ?_ ?_
    · rcases hs with rfl | ⟨rfl, -⟩ <;> trivial
    rintro _ _ rfl
    rcases hs with rfl | ⟨rfl, -⟩
    · exact .inl rfl
    · exact .inr ⟨rfl, 0, err, rfl⟩

theorem truncate_obeys (f : LimitedFile ω) (size : ℕ) :
    (truncate limit f size).Obeys (budgeting ω limit) (fun s _ => s = .idle) .idle := by
  refine .does trivial fun _ => ?_
  refine .does trivial fun err => ?_
  refine (reconcile_obeys_changed hlimit f.path.vfs).bind ?_
  rintro _ budgetErr rfl
  refine .does trivial fun _ => ?_
  rfl

theorem deleteTempFile_obeys (v : ω) (name : String) :
    (deleteTempFile limit v name).Obeys (budgeting ω limit) (fun s _ => s = .idle) .idle := by
  refine .does trivial ?_
  rintro (- | ⟨root, file⟩)
  · rfl
  refine .does trivial ?_
  rintro (- | err)
  · exact (reconcile_obeys_changed hlimit v).bind fun s _ hs => hs
  · rfl

theorem closeTempFile_obeys (path : BufferPath ω) (deleteOnClose : Bool) :
    (closeTempFile limit path deleteOnClose).Obeys (budgeting ω limit) (fun s _ => s = .idle)
      .idle := by
  refine .does trivial fun closeErr => ?_
  cases deleteOnClose with
  | false => exact (reconcile_obeys_changed hlimit path.vfs).bind fun s _ hs => hs
  | true =>
    refine .does rfl ?_
    rintro (- | err) <;> exact (reconcile_obeys_changed hlimit path.vfs).bind fun s _ hs => hs

end

theorem closeMainFile_obeys (v : ω) :
    (closeMainFile v).Obeys (budgeting ω limit) (fun s _ => s = .idle) .idle := by
  refine .does trivial fun closeErr => ?_
  refine .does trivial ?_
  rintro (- | root)
  · rfl
  refine .does rfl fun _ => ?_
  refine .does ⟨rfl, rfl⟩ fun _ => ?_
  rfl

theorem discardBuffers_obeys (v : ω) :
    (discardBuffers v).Obeys (budgeting ω limit) (fun s _ => s = .idle) .idle := by
  refine .does trivial ?_
  rintro (- | - | root)
  · rfl
  · refine .does rfl fun _ => ?_
    rfl
  refine .does rfl fun _ => ?_
  refine .does ⟨rfl, rfl⟩ fun _ => ?_
  rfl

theorem budgetTask_obeys (hlimit : 0 < limit) (task : BudgetTask ω) :
    (task.prog limit).Obeys (budgeting ω limit) BudgetStage.Returns .idle := by
  cases task with
  | writeAt f length offset => exact (writeAt_obeys hlimit f length offset).bind fun s r hs => hs
  | truncate f size => exact (truncate_obeys hlimit f size).bind fun s r hs => .inl hs
  | deleteTempFile v name => exact (deleteTempFile_obeys hlimit v name).bind fun s r hs => .inl hs
  | closeTempFile path deleteOnClose =>
    exact (closeTempFile_obeys hlimit path deleteOnClose).bind fun s r hs => .inl hs
  | closeMainFile v => exact (closeMainFile_obeys v).bind fun s r hs => .inl hs
  | discardBuffers v => exact (discardBuffers_obeys v).bind fun s r hs => .inl hs

end Obeys

/-! ### Sizes -/

section Sizes

theorem dirSize_resize_le {files : List (String × ℕ)} {name : String} {size : ℕ}
    (h : ∀ e ∈ files, e.1 = name → size ≤ e.2) :
    dirSize (files.map fun e => if e.1 = name then (e.1, size) else e) ≤ dirSize files := by
  rw [dirSize, dirSize, List.map_map]
  refine sum_le_sum fun e he => ?_
  simp only [comp]
  split
  · next hname => exact h e he hname
  · exact le_rfl

theorem dirSize_filter_le (files : List (String × ℕ)) (p : String × ℕ → Bool) :
    dirSize (files.filter p) ≤ dirSize files :=
  (filter_sublist.map _).sum_le_sum fun _ _ => Nat.zero_le _

namespace Buffers

variable {ω : Type} {w : Buffers ω} {v : ω}
variable {root : ℕ}

theorem liveSize_of_root (h : w.root v = some root) : w.liveSize v = dirSize (w.dirs v root) := by
  rw [liveSize, h]

variable [DecidableEq ω]

theorem liveSize_setDir (w : Buffers ω) (v : ω) (root : ℕ) (files : List (String × ℕ)) (u : ω) :
    (w.setDir v root files).liveSize u =
      if u = v ∧ w.root v = some root then dirSize files else w.liveSize u := by
  by_cases hu : u = v
  · subst hu
    by_cases hlive : w.root u = some root
    · rw [if_pos ⟨rfl, hlive⟩]
      simp only [liveSize, setDir, hlive, update_self]
    rw [if_neg fun h => hlive h.2]
    cases hroot : w.root u with
    | none => simp only [liveSize, setDir, hroot]
    | some live =>
      have hne : live ≠ root := fun heq => hlive (heq ▸ hroot)
      simp only [liveSize, setDir, hroot, update_self, update_of_ne hne]
  · rw [if_neg fun h => hu h.1]
    simp only [liveSize, setDir, update_of_ne hu]

theorem liveSize_setDir_of_ne {u : ω} (h : u ≠ v) (root : ℕ) (files : List (String × ℕ)) :
    (w.setDir v root files).liveSize u = w.liveSize u := by
  rw [liveSize_setDir, if_neg fun hu => h hu.1]

theorem liveSize_setDir_of_root_ne (h : w.root v ≠ some root) (files : List (String × ℕ)) (u : ω) :
    (w.setDir v root files).liveSize u = w.liveSize u := by
  rw [liveSize_setDir, if_neg fun hu => h hu.2]

theorem liveSize_setDir_le {files : List (String × ℕ)} (h : dirSize files ≤ dirSize (w.dirs v root))
    (u : ω) : (w.setDir v root files).liveSize u ≤ w.liveSize u := by
  rw [liveSize_setDir]
  split
  · next hlive => rwa [hlive.1, liveSize_of_root hlive.2]
  · exact le_rfl

theorem liveSize_setSize_of_ne {path : BufferPath ω} {u : ω} (h : u ≠ path.vfs) (size : ℕ) :
    (w.setSize path size).liveSize u = w.liveSize u :=
  liveSize_setDir_of_ne h _ _

theorem liveSize_setSize_le {path : BufferPath ω} {size : ℕ} (h : w.smaller path size = false)
    (u : ω) : (w.setSize path size).liveSize u ≤ w.liveSize u := by
  refine liveSize_setDir_le (dirSize_resize_le fun e he hname => ?_) u
  have hsmaller := List.any_eq_false.mp h e he
  simpa [hname] using hsmaller

theorem liveSize_unlink_le (path : BufferPath ω) (u : ω) :
    (w.unlink path).liveSize u ≤ w.liveSize u :=
  liveSize_setDir_le (dirSize_filter_le _ _) u

theorem liveSize_create (path : BufferPath ω) (u : ω) :
    (w.create path).liveSize u = w.liveSize u := by
  unfold create
  split
  · rfl
  rw [liveSize_setDir]
  split
  · next hlive =>
    rw [hlive.1, liveSize_of_root hlive.2]
    simp [dirSize, siblings]
  · rfl

theorem liveSize_ensureBufferRoot (v u : ω) :
    (w.ensureBufferRoot v).2.liveSize u = w.liveSize u := by
  unfold ensureBufferRoot
  split
  · rfl
  · next hroot =>
    by_cases hu : u = v
    · subst hu
      simp [liveSize, setDir, hroot, dirSize]
    · simp only [liveSize, setDir, update_of_ne hu]

end Buffers

end Sizes

/-! ### A measurement without a disturbance -/

section Undisturbed

variable {ω : Type} [DecidableEq ω] {w : Buffers ω} {v : ω} {root : ℕ}

/-- The answers of a file system that does not fail: a walk meets the files of the directory. -/
def Buffers.Faithful (w : Buffers ω) (c : BudgetCall ω) (r : c.Resp) (w' : Buffers ω) : Prop :=
  w.Answers c r w' ∧
    match c, r with
    | .walk v root, r => r = .ok ((w.dirs v root).map Prod.fst)
    | .info path, r => r = .ok (w.sizeOf path)
    | _, _ => True

/-- The calls of one goroutine while nothing else happens, all of which are current. -/
def undisturbed (ω : Type) [DecidableEq ω] :
    Protocol (BudgetCall ω) BudgetCall.Resp (Buffers ω) where
  allow w c := ∀ r w', w.Faithful c r w' → Current w () c r w'
  next w c r w' := w.Faithful c r w'

theorem walkSize_undisturbed {files : List (String × ℕ)}
    (hfiles : ∀ e ∈ files, w.sizeOf ⟨v, root, e.1⟩ = some e.2) (size : ℕ) :
    (walkSize v root (files.map Prod.fst) size).Obeys (undisturbed ω)
      (fun w' r => w' = w ∧ r = .ok (size + dirSize files)) w := by
  induction files generalizing size with
  | nil => exact ⟨rfl, rfl⟩
  | cons e rest ih =>
    refine .perform (fun r _ h => .inl ⟨_, h.2⟩) ?_
    rintro r w' ⟨⟨-, rfl⟩, hr⟩
    obtain rfl : r = .ok (some e.2) := hr.trans (by rw [hfiles e mem_cons_self])
    have hsum : size + dirSize (e :: rest) = size + e.2 + dirSize rest := by
      rw [dirSize, map_cons, sum_cons, Nat.add_assoc, dirSize]
    rw [hsum]
    exact ih (fun e he => hfiles e (mem_cons_of_mem _ he)) (size + e.2)

/-- A measurement that nothing disturbs returns the size of the files. -/
theorem bufferSize_undisturbed (hnames : ∀ root, ((w.dirs v root).map Prod.fst).Nodup) :
    (bufferSize v).Obeys (undisturbed ω) (fun w' r => w' = w ∧ r = .ok (w.liveSize v)) w := by
  refine .perform (fun _ _ _ => trivial) ?_
  rintro _ w ⟨⟨rfl, rfl⟩, -⟩
  cases hroot : w.root v with
  | none => exact ⟨rfl, by rw [Buffers.liveSize, hroot]⟩
  | some root =>
    refine .perform (fun r _ h => .inl ⟨_, h.2⟩) ?_
    rintro _ w ⟨rfl, rfl⟩
    have hfiles : ∀ e ∈ w.dirs v root, w.sizeOf ⟨v, root, e.1⟩ = some e.2 := fun e he => by
      obtain ⟨pre, suf, hsplit⟩ := append_of_mem he
      refine lookup_eq_some_iff.mpr ⟨pre, suf, hsplit, fun e' he' => ?_⟩
      have hnodup := hnames root
      rw [hsplit, map_append, nodup_append] at hnodup
      exact bne_iff_ne.mpr (hnodup.2.2 _ (List.mem_map_of_mem he') _ mem_cons_self).symm
    have hwalk := walkSize_undisturbed hfiles 0
    rwa [Nat.zero_add, ← Buffers.liveSize_of_root hroot] at hwalk

/-- A reconciliation that nothing disturbs makes only calls that are current. -/
theorem reconcile_undisturbed {limit : ℤ} (hlimit : 0 < limit)
    (hnames : ∀ root, ((w.dirs v root).map Prod.fst).Nodup) :
    (reconcile limit v).Obeys (undisturbed ω) (fun w' _ => w' = w.account v (w.liveSize v)) w := by
  unfold reconcile
  rw [if_neg (not_le.mpr hlimit)]
  refine (bufferSize_undisturbed hnames).bind ?_
  rintro _ _ ⟨rfl, rfl⟩
  refine .perform (fun _ _ _ => rfl) ?_
  rintro (used : ℤ) w' ⟨⟨-, rfl⟩, -⟩
  split <;> rfl

end Undisturbed

/-! ### The budget is exact up to the calls in progress -/

section Balance

variable {ω ι : Type} {limit : ℤ} {w w' : Buffers ω} {g : ι → BudgetStage ω} {i : ι}

/-- The roots that a call holds have been taken away for good. -/
def Buffers.Gone (w : Buffers ω) (s : BudgetStage ω) : Prop :=
  ∀ v root, s.Holds v root → root < w.nextRoot v ∧ w.root v ≠ some root

/-- What is in use is what is accounted for. A wrapper whose bytes are not accounted for has a call
in progress; if they have grown, it is a write. Unless a `Truncate` has made a file larger, the
limit is exceeded only while a write is in progress, or after one has failed. -/
structure Accounted (limit : ℤ) (w : Buffers ω) (g : ι → BudgetStage ω) : Prop where
  sum : SumsTo (fun v => (w.accounted v : ℤ)) w.used
  exact : ∀ v, w.accounted v = w.liveSize v ∨ ∃ i, (g i).Touches v
  grown : w.extended = false → ∀ v, w.accounted v < w.liveSize v → ∃ i, (g i).Writes v
  within : w.extended = false → limit < w.used → ∃ i, (g i).Owes
  fresh : ∀ v root, w.root v = some root → root < w.nextRoot v
  gone : ∀ i, w.Gone (g i)

theorem accounted_new (hlimit : 0 < limit) :
    Accounted limit (Buffers.new ω) fun _ : ι => .idle where
  sum := sumsTo_zero fun _ => rfl
  exact _ := .inl rfl
  grown _ _ h := absurd h (lt_irrefl _)
  within _ h := absurd h hlimit.not_gt
  fresh _ _ h := by cases h
  gone _ _ _ h := h.elim

variable [DecidableEq ω] [DecidableEq ι]

omit [DecidableEq ω] in
theorem BudgetStage.Writes.touches {s : BudgetStage ω} {v : ω} (h : s.Writes v) : s.Touches v := by
  cases s with
  | writing => exact h
  | _ => exact h.elim

omit [DecidableEq ω] in
theorem BudgetStage.Writes.owes {s : BudgetStage ω} {v : ω} (h : s.Writes v) : s.Owes := by
  cases s with
  | writing => trivial
  | _ => exact h.elim

omit [DecidableEq ω] in
theorem BudgetStage.Measures.eq_of_touches {s : BudgetStage ω} {u v : ω} (hs : s.Measures v)
    (h : s.Touches u) : u = v := by
  rcases hs with rfl | rfl | rfl
  · exact h.elim
  · exact h.symm
  · exact h.symm

omit [DecidableEq ω] in
theorem BudgetStage.Measures.settled_cases {s : BudgetStage ω} {v : ω} (hs : s.Measures v)
    (limit used : ℤ) : s.settled limit used = .idle ∧ (s = .changed v ∨ used ≤ limit) ∨
      s.settled limit used = .failed := by
  rcases hs with rfl | rfl | rfl
  · by_cases h : limit < used
    · exact .inr (if_pos h)
    · exact .inl ⟨if_neg h, .inr (not_lt.mp h)⟩
  · by_cases h : limit < used
    · exact .inr (if_pos h)
    · exact .inl ⟨if_neg h, .inr (not_lt.mp h)⟩
  · exact .inl ⟨rfl, .inl rfl⟩

omit [DecidableEq ω] [DecidableEq ι] in
/-- The directories change without the sizes, and with new roots only. -/
theorem Accounted.frame (h : Accounted limit w g) (hused : w'.used = w.used)
    (haccounted : w'.accounted = w.accounted) (hlive : ∀ u, w'.liveSize u = w.liveSize u)
    (hextended : w'.extended = w.extended) (hnext : ∀ v, w.nextRoot v ≤ w'.nextRoot v)
    (hroot : ∀ v root, w'.root v = some root →
      w.root v = some root ∨ w.nextRoot v ≤ root ∧ root < w'.nextRoot v) :
    Accounted limit w' g where
  sum := by rw [hused, haccounted]; exact h.sum
  exact v := by rw [haccounted, hlive]; exact h.exact v
  grown := by
    rw [hextended, haccounted]
    intro hext v hlt
    rw [hlive] at hlt
    exact h.grown hext v hlt
  within := by rw [hextended, hused]; exact h.within
  fresh v root hr := by
    rcases hroot v root hr with hr | hr
    · exact (h.fresh v root hr).trans_le (hnext v)
    · exact hr.2
  gone j v root hj := by
    obtain ⟨hlt, hne⟩ := h.gone j v root hj
    refine ⟨hlt.trans_le (hnext v), fun hr => ?_⟩
    rcases hroot v root hr with hr | hr
    · exact hne hr
    · exact hlt.not_ge hr.1

/-- A call that concerns the wrapper `v` alone goes to the stage `s`. -/
theorem Accounted.step (h : Accounted limit w g) {v : ω} {s : BudgetStage ω}
    (hfrom : ∀ u, (g i).Touches u → u = v) (hsum : SumsTo (fun u => (w'.accounted u : ℤ)) w'.used)
    (hother : ∀ u, u ≠ v → w'.accounted u = w.accounted u ∧ w'.liveSize u = w.liveSize u)
    (hexact : w'.accounted v = w'.liveSize v ∨ s.Touches v)
    (hgrown : w'.extended = false → w'.accounted v < w'.liveSize v →
      s.Writes v ∨ w.accounted v < w.liveSize v ∧ ¬ (g i).Writes v)
    (hext : w'.extended = false → w.extended = false)
    (hwithin : w'.extended = false → limit < w'.used → s.Owes ∨ (∃ j, (g j).Owes) ∧ ¬ (g i).Owes)
    (hroot : ∀ u root, w'.root u = some root → w.root u = some root)
    (hnext : w'.nextRoot = w.nextRoot) (hgone : w'.Gone s) : Accounted limit w' (update g i s) := by
  refine ⟨hsum, fun u => ?_, fun hno u hlt => ?_, fun hno hlt => ?_, fun u root hr => ?_,
    forall_update (P := w'.Gone) (fun j u root hj => ?_) hgone⟩
  · by_cases hu : u = v
    · subst hu
      exact hexact.imp_right (exists_update_self (P := fun s : BudgetStage ω => s.Touches u))
    rw [(hother u hu).1, (hother u hu).2]
    refine (h.exact u).imp_right fun htouch => ?_
    exact exists_update (P := fun s : BudgetStage ω => s.Touches u) htouch fun hi =>
      absurd (hfrom u hi) hu
  · by_cases hu : u = v
    · subst hu
      rcases hgrown hno hlt with hs | ⟨hlt, hi⟩
      · exact exists_update_self (P := fun s : BudgetStage ω => s.Writes u) hs
      · exact exists_update (P := fun s : BudgetStage ω => s.Writes u)
          (h.grown (hext hno) u hlt) fun hwrites => absurd hwrites hi
    · rw [(hother u hu).1, (hother u hu).2] at hlt
      exact exists_update (P := fun s : BudgetStage ω => s.Writes u)
        (h.grown (hext hno) u hlt) fun hi => absurd (hfrom u hi.touches) hu
  · rcases hwithin hno hlt with hs | ⟨howes, hi⟩
    · exact exists_update_self (P := BudgetStage.Owes) hs
    · exact exists_update howes fun howes => absurd howes hi
  · rw [hnext]
    exact h.fresh u root (hroot u root hr)
  · rw [hnext]
    exact ⟨(h.gone j u root hj).1, fun hr => (h.gone j u root hj).2 (hroot u root hr)⟩

section

variable (h : Accounted limit w g)
include h

omit [DecidableEq ι] in
/-- The account of a wrapper is set. -/
theorem Accounted.sum_update (v : ω) (n : ℕ) :
    SumsTo (fun u => ((update w.accounted v n u : ℕ) : ℤ)) (max 0 (w.used + (n - w.accounted v))) ∧
      max 0 (w.used + (n - w.accounted v)) = w.used + (n - w.accounted v) := by
  have hsum : SumsTo (fun u => ((update w.accounted v n u : ℕ) : ℤ))
      (w.used + (n - w.accounted v)) :=
    h.sum.update (f := fun n : ℕ => (n : ℤ)) v n (by omega)
  have hused := max_eq_right (hsum.nonneg fun _ => Int.natCast_nonneg _)
  exact ⟨hused.symm ▸ hsum, hused⟩

/-- A measured size that is current is applied. -/
theorem Accounted.account {v : ω} (hs : (g i).Measures v) :
    Accounted limit (w.account v (w.liveSize v))
      (update g i ((g i).settled limit (w.account v (w.liveSize v)).used)) := by
  obtain ⟨hsum, hused⟩ := h.sum_update v (w.liveSize v)
  have hself : (w.account v (w.liveSize v)).accounted v = w.liveSize v := update_self _ _ _
  have hcases := hs.settled_cases limit (w.account v (w.liveSize v)).used
  refine h.step (fun u => hs.eq_of_touches) hsum (fun u hu => ⟨update_of_ne hu _ _, rfl⟩)
    (.inl hself) (fun _ hlt => absurd hlt hself.not_lt) id (fun hext hlt => ?_) (fun _ _ => id) rfl
    ?_
  · rcases hcases with ⟨hidle, hchanged | hle⟩ | hfailed
    · -- what another call has written is accounted for by this one, and the other is in progress
      refine .inr ⟨?_, by rw [hchanged]; exact id⟩
      have hlt : limit < w.used + (w.liveSize v - w.accounted v) := hused ▸ hlt
      by_cases hlimit : limit < w.used
      · exact h.within hext hlimit
      · obtain ⟨j, hj⟩ := h.grown hext v (by omega)
        exact ⟨j, hj.owes⟩
    · exact absurd hlt hle.not_gt
    · rw [hfailed]
      exact .inl trivial
  · rcases hcases with ⟨hidle, -⟩ | hfailed
    · rw [hidle]
      exact fun _ _ => False.elim
    · rw [hfailed]
      exact fun _ _ => False.elim

/-- A measurement fails while the bytes of the wrapper are accounted for. -/
theorem Accounted.miss {v : ω} (hs : (g i).Measures v) (hexact : w.accounted v = w.liveSize v) :
    Accounted limit w (update g i (g i).missed) := by
  refine h.step (fun u => hs.eq_of_touches) h.sum (fun _ _ => ⟨rfl, rfl⟩) (.inl hexact)
    (fun _ hlt => absurd hexact hlt.ne) id (fun hext hlt => ?_) (fun _ _ => id) rfl ?_
  · have howes := h.within hext hlt
    rcases hs with hs | hs | hs
    · exact .inr ⟨howes, by rw [hs]; exact id⟩
    · exact .inl (by rw [hs]; trivial)
    · exact .inr ⟨howes, by rw [hs]; exact id⟩
  · rcases hs with hs | hs | hs <;> rw [hs] <;> exact fun _ _ => False.elim

/-- A call writes to the files of a wrapper or makes them smaller. -/
theorem Accounted.touch {v : ω} {s : BudgetStage ω} (hfrom : g i = .idle ∨ g i = .changed v)
    (hto : s = .writing v ∨ s = .changed v) (hused : w'.used = w.used)
    (haccounted : w'.accounted = w.accounted) (hroot : w'.root = w.root)
    (hnext : w'.nextRoot = w.nextRoot) (hlive : ∀ u, u ≠ v → w'.liveSize u = w.liveSize u)
    (hextended : w'.extended = false →
      w.extended = false ∧ (s = .writing v ∨ w'.liveSize v ≤ w.liveSize v)) :
    Accounted limit w' (update g i s) := by
  have hnot : ¬ (g i).Owes := by
    rcases hfrom with hi | hi <;> rw [hi] <;> exact id
  have hmeasures : (g i).Measures v := hfrom.imp_right .inr
  refine h.step (fun u => hmeasures.eq_of_touches) (haccounted ▸ hused ▸ h.sum)
    (fun u hu => ⟨congrFun haccounted u, hlive u hu⟩) (.inr ?_) (fun hext hlt => ?_)
    (fun hext => (hextended hext).1) (fun hext hlt => .inr ⟨?_, hnot⟩) (fun _ _ hr => hroot ▸ hr)
    hnext ?_
  · rcases hto with rfl | rfl <;> rfl
  · rcases (hextended hext).2 with rfl | hle
    · exact .inl rfl
    · exact .inr ⟨haccounted ▸ hlt.trans_le hle, fun hwrites => hnot hwrites.owes⟩
  · exact h.within (hextended hext).1 (hused ▸ hlt)
  · rcases hto with rfl | rfl <;> exact fun _ _ => False.elim

/-- A call takes the root of a wrapper away. -/
theorem Accounted.take {v : ω} (hfrom : g i = .idle) (hused : w'.used = w.used)
    (haccounted : w'.accounted = w.accounted) (hroot : w'.root = update w.root v none)
    (hnext : w'.nextRoot = w.nextRoot) (hdirs : w'.dirs = w.dirs)
    (hextended : w'.extended = w.extended) :
    Accounted limit w' (update g i (.closing v (w.root v))) := by
  have hself : w'.liveSize v = 0 := by
    rw [Buffers.liveSize, hroot, update_self]
  have hother {u : ω} (hu : u ≠ v) : w'.liveSize u = w.liveSize u := by
    rw [Buffers.liveSize, Buffers.liveSize, hroot, update_of_ne hu, hdirs]
  refine h.step (v := v) (by rw [hfrom]; exact fun _ => False.elim) (haccounted ▸ hused ▸ h.sum)
    (fun u hu => ⟨congrFun haccounted u, hother hu⟩) (.inr rfl)
    (fun _ hlt => absurd (hself ▸ hlt) (Nat.not_lt_zero _)) (fun hext => hextended ▸ hext)
    (fun hext hlt => .inr ⟨h.within (hextended ▸ hext) (hused ▸ hlt), by rw [hfrom]; exact id⟩)
    (fun u root hr => ?_) hnext ?_
  · rw [hroot] at hr
    by_cases hu : u = v
    · rw [hu, update_self] at hr
      cases hr
    · rwa [update_of_ne hu] at hr
  · rintro u root ⟨rfl, hr⟩
    rw [hnext, hroot, update_self]
    exact ⟨h.fresh v root hr, some_ne_none root ∘ Eq.symm⟩

/-- The bytes of a wrapper without files are released. -/
theorem Accounted.release {v : ω} {root : Option ℕ} {s : BudgetStage ω}
    (hfrom : g i = .closing v root) (hto : s = .idle ∨ ∃ k, root = some k ∧ s = .removing v k)
    (hzero : w.liveSize v = 0) : Accounted limit (w.release v) (update g i s) := by
  obtain ⟨hsum, hused⟩ := h.sum_update v 0
  have hrelease : (w.release v).used = max 0 (w.used + ((0 : ℕ) - w.accounted v)) := by
    simp [Buffers.release, Int.sub_eq_add_neg]
  refine h.step (v := v) (by rw [hfrom]; exact fun _ => Eq.symm) (hrelease ▸ hsum)
    (fun u hu => ⟨update_of_ne hu _ _, rfl⟩) (.inl ((update_self _ _ _).trans hzero.symm))
    (fun _ hlt => absurd (hzero ▸ hlt) (Nat.not_lt_zero _)) id
    (fun hext hlt => .inr ⟨h.within hext (by omega), by rw [hfrom]; exact id⟩) (fun _ _ => id) rfl
    fun u k hi => ?_
  rcases hto with rfl | ⟨k', rfl, rfl⟩
  · exact hi.elim
  refine h.gone i u k ?_
  rw [hfrom]
  exact ⟨hi.1, congrArg some hi.2⟩

end

omit [DecidableEq ω] in
/-- The files that a call has removed are not those of a live root. -/
theorem Accounted.leave (h : Accounted limit w g) {v : ω} {root : ℕ}
    (hfrom : g i = .removing v root) : Accounted limit w (update g i .idle) := by
  refine ⟨h.sum, fun u => ?_, fun hext u hlt => ?_, fun hext hlt => ?_, h.fresh, ?_⟩
  · refine (h.exact u).imp_right fun htouch => ?_
    refine exists_update (P := fun s : BudgetStage ω => s.Touches u) htouch fun hi => ?_
    rw [hfrom] at hi
    exact hi.elim
  · refine exists_update (P := fun s : BudgetStage ω => s.Writes u) (h.grown hext u hlt) ?_
    rw [hfrom]
    exact False.elim
  · refine exists_update (h.within hext hlt) fun hi => ?_
    rw [hfrom] at hi
    exact hi.elim
  · exact forall_update (P := w.Gone) h.gone fun u k hi => hi.elim

omit [DecidableEq ω] in
theorem BudgetStage.measures_of_allows {s : BudgetStage ω} {v : ω} {c : BudgetCall ω}
    (h : s.Allows c) (hc : (∃ root, c = .walk v root) ∨ (∃ root name, c = .info ⟨v, root, name⟩) ∨
      ∃ current, c = .account v current) : s.Measures v := by
  rcases hc with ⟨root, rfl⟩ | ⟨root, name, rfl⟩ | ⟨current, rfl⟩ <;> cases s with
  | idle => exact .inl rfl
  | writing u => exact .inr (.inl (congrArg _ (Eq.symm h)))
  | changed u => exact .inr (.inr (congrArg _ (Eq.symm h)))
  | _ => exact h.elim

/-- Every answer that meets the condition keeps the account. -/
theorem Accounted.call (h : Accounted limit w g) {c : BudgetCall ω} {r : c.Resp}
    (hallow : (g i).Allows c) (hanswer : w.Answers c r w') (hcurrent : Current w i c r w') :
    Accounted limit w' (update g i ((g i).after limit c r)) := by
  have hstay {w' : Buffers ω} (hframe : Accounted limit w' g) :
      Accounted limit w' (update g i (g i)) := by rwa [update_eq_self]
  cases c with
  | lockFile f =>
    obtain ⟨-, rfl⟩ := hanswer
    exact hstay (h.frame rfl rfl (fun _ => rfl) rfl (fun _ => le_rfl) fun _ _ => .inl)
  | unlockFile f =>
    obtain rfl := hanswer
    exact hstay (h.frame rfl rfl (fun _ => rfl) rfl (fun _ => le_rfl) fun _ _ => .inl)
  | bufferRoot v =>
    obtain ⟨-, rfl⟩ := hanswer
    exact hstay h
  | walk v root =>
    obtain rfl := hanswer
    cases r with
    | ok names => exact hstay h
    | error err =>
      refine h.miss (BudgetStage.measures_of_allows hallow (.inl ⟨root, rfl⟩)) ?_
      exact hcurrent.resolve_left fun ⟨names, hnames⟩ => by cases hnames
  | info path =>
    obtain ⟨-, rfl⟩ := hanswer
    cases r with
    | ok found => exact hstay h
    | error err =>
      refine h.miss (v := path.vfs) (BudgetStage.measures_of_allows hallow ?_) ?_
      · exact .inr (.inl ⟨path.root, path.name, rfl⟩)
      · exact hcurrent.resolve_left fun ⟨found, hfound⟩ => by cases hfound
  | account v current =>
    obtain ⟨rfl, rfl⟩ := hanswer
    obtain rfl : current = w.liveSize v := hcurrent
    exact h.account (BudgetStage.measures_of_allows hallow (.inr (.inr ⟨_, rfl⟩)))
  | release v =>
    obtain rfl := hanswer
    cases hs : g i with
    | closing u root =>
      rw [hs] at hallow
      obtain rfl : v = u := hallow
      cases root with
      | none => exact h.release hs (.inl rfl) hcurrent
      | some k => exact h.release hs (.inr ⟨k, rfl, rfl⟩) hcurrent
    | _ => exact (hs ▸ hallow).elim
  | writeAt path length offset =>
    obtain ⟨size, rfl⟩ := hanswer
    cases hs : g i with
    | idle =>
      refine h.touch (.inl hs) (.inl rfl) rfl rfl rfl rfl (fun u hu => ?_)
        fun hext => ⟨hext, .inl rfl⟩
      exact Buffers.liveSize_setSize_of_ne hu size
    | _ => exact (hs ▸ hallow).elim
  | truncate path size =>
    obtain ⟨size, rfl⟩ := hanswer
    cases hs : g i with
    | idle =>
      refine h.touch (.inl hs) (.inr rfl) rfl rfl rfl rfl (fun u hu => ?_) fun hext => ?_
      · exact Buffers.liveSize_setSize_of_ne (w := w) hu size
      · obtain ⟨hext, hsmaller⟩ := Bool.or_eq_false_iff.mp hext
        exact ⟨hext, .inr (Buffers.liveSize_setSize_le hsmaller _)⟩
    | _ => exact (hs ▸ hallow).elim
  | closeFile path =>
    obtain rfl := hanswer
    cases hs : g i with
    | idle =>
      exact h.touch (.inl hs) (.inr rfl) rfl rfl rfl rfl (fun _ _ => rfl)
        fun hext => ⟨hext, .inr le_rfl⟩
    | _ => exact (hs ▸ hallow).elim
  | takeTempFile v name =>
    obtain ⟨-, rfl⟩ := hanswer
    exact hstay (h.frame rfl rfl (fun _ => rfl) rfl (fun _ => le_rfl) fun _ _ => .inl)
  | remove path =>
    rcases hanswer with ⟨rfl, rfl⟩ | ⟨hr, rfl⟩
    · have hfrom : g i = .idle ∨ g i = .changed path.vfs := by
        cases hs : g i with
        | idle => exact .inl rfl
        | changed u =>
          rw [hs] at hallow
          exact .inr (congrArg _ (Eq.symm hallow))
        | _ => exact (hs ▸ hallow).elim
      refine h.touch hfrom (.inr rfl) rfl rfl rfl rfl (fun u hu => ?_) fun hext => ?_
      · exact Buffers.liveSize_setDir_of_ne hu _ _
      · exact ⟨hext, .inr (Buffers.liveSize_unlink_le path _)⟩
    · cases r with
      | none => exact absurd rfl hr
      | some err => exact hstay h
  | closeMain v =>
    obtain rfl := hanswer
    exact hstay h
  | fileClosed v =>
    cases hs : g i with
    | idle =>
      simp only [Buffers.Answers, Buffers.fileClosed] at hanswer
      split at hanswer
      · cases hanswer
        cases hroot : w.root v with
        | none =>
          rw [← hs]
          refine hstay (h.frame rfl rfl (fun u => ?_) rfl (fun _ => le_rfl) fun u root hr => ?_)
          · simp only [Buffers.liveSize, ← hroot, update_eq_self]
          · simp only [← hroot, update_eq_self] at hr
            exact .inl hr
        | some root =>
          have htake : Accounted limit { w with
              activeFiles := update w.activeFiles v (w.activeFiles v - 1)
              root := update w.root v none }
              (update g i (.closing v (w.root v))) :=
            h.take hs rfl rfl rfl rfl rfl rfl
          rwa [hroot] at htake
      · cases hanswer
        rw [← hs]
        exact hstay (h.frame rfl rfl (fun _ => rfl) rfl (fun _ => le_rfl) fun _ _ => .inl)
    | _ => exact (hs ▸ hallow).elim
  | takeRoot v =>
    cases hs : g i with
    | idle =>
      simp only [Buffers.Answers, Buffers.takeRoot] at hanswer
      split at hanswer
      · cases hanswer
        rw [← hs]
        exact hstay h
      · cases hanswer
        exact h.take hs rfl rfl rfl rfl rfl rfl
    | _ => exact (hs ▸ hallow).elim
  | removeAll v root =>
    cases hs : g i with
    | removing u k =>
      rw [hs] at hallow
      obtain ⟨rfl, rfl⟩ := hallow
      rcases hanswer with ⟨-, rfl⟩ | ⟨-, rfl⟩
      · refine (h.leave hs).frame rfl rfl (fun u => ?_) rfl (fun _ => le_rfl) fun _ _ => .inl
        refine Buffers.liveSize_setDir_of_root_ne ?_ _ _
        exact (h.gone i v root (by rw [hs]; exact ⟨rfl, rfl⟩)).2
      · exact h.leave hs
    | _ => exact (hs ▸ hallow).elim

omit [DecidableEq ι] in
theorem Accounted.ensureBufferRoot (h : Accounted limit w g) (v : ω) :
    Accounted limit (w.ensureBufferRoot v).2 g := by
  have hlive := Buffers.liveSize_ensureBufferRoot (w := w) v
  unfold Buffers.ensureBufferRoot at hlive ⊢
  split at hlive
  · exact h
  refine h.frame rfl rfl hlive rfl (fun u => ?_) fun u root hr => ?_
  · by_cases hu : u = v
    · rw [hu]
      simp
    · simp [update_of_ne hu]
  · by_cases hu : u = v
    · rw [hu] at hr ⊢
      simp only [update_self, some.injEq] at hr
      simp [hr]
    · simp only [update_of_ne hu] at hr
      exact .inl hr

omit [DecidableEq ι] in
theorem Accounted.create (h : Accounted limit w g) (path : BufferPath ω) :
    Accounted limit (w.create path) g := by
  have hlive := Buffers.liveSize_create (w := w) path
  unfold Buffers.create at hlive ⊢
  split at hlive
  · next hmem =>
    rw [if_pos hmem]
    exact h
  · next hmem =>
    rw [if_neg hmem]
    exact h.frame rfl rfl hlive rfl (fun _ => le_rfl) fun _ _ => .inl

omit [DecidableEq ι] in
theorem Accounted.env (h : Accounted limit w g) (henv : (budgetSystem ω ι limit).env w w') :
    Accounted limit w' g := by
  rcases henv with ⟨v, file, tracked, rfl⟩ | ⟨v, rfl⟩
  · have hcreate := (h.ensureBufferRoot v).create ⟨v, (w.ensureBufferRoot v).1, file⟩
    exact hcreate.frame rfl rfl (fun _ => rfl) rfl (fun _ => le_rfl) fun _ _ => .inl
  · exact h.frame rfl rfl (fun _ => rfl) rfl (fun _ => le_rfl) fun _ _ => .inl

theorem accounted_invariant (hlimit : 0 < limit)
    {a : Pool (Buffers ω) ι (BudgetCall ω) BudgetCall.Resp BudgetOutcome}
    (h : ((budgetSystem ω ι limit).restrict Current).Reachable (Buffers.new ω) a) :
    ∃ g, Accounted limit a.world g ∧
      (∀ i p, a.procs i = some p → p.Obeys (budgeting ω limit) BudgetStage.Returns (g i)) ∧
      ∀ i, a.procs i = none → g i = .idle := by
  refine h.invariant_knowing (K := fun _ => True) (budgeting ω limit)
    (fun _ => BudgetStage.Returns) (Accounted limit) (fun _ => .idle) (fun _ _ => trivial)
    (accounted_new hlimit) ?_ ?_ ?_
  · rintro w g i _ _ - haccounted hidle ⟨task, rfl, rfl⟩
    refine ⟨.idle, budgetTask_obeys hlimit task, ?_⟩
    rw [← hidle, update_eq_self]
    exact haccounted
  · rintro w g i c r w' - haccounted hallow ⟨hanswer, hcurrent⟩
    exact ⟨_, rfl, haccounted.call hallow hanswer hcurrent⟩
  · exact fun w g w' _ haccounted henv => haccounted.env henv

end Balance

/-- **If no outdated measurement is applied, then whenever no call is in progress the bytes in use
are the total size of the files under the live roots of the wrappers; and if no `Truncate` has made
a file larger and every write has returned without an error, they are within the limit.** -/
theorem budget_exact_at_rest {ω ι : Type} [DecidableEq ω] [DecidableEq ι] {limit : ℤ}
    (hlimit : 0 < limit) {a : Pool (Buffers ω) ι (BudgetCall ω) BudgetCall.Resp BudgetOutcome}
    (h : ((budgetSystem ω ι limit).restrict Current).Reachable (Buffers.new ω) a)
    (hrest : a.AtRest) :
    SumsTo (fun v => (a.world.liveSize v : ℤ)) a.world.used ∧
      (a.world.extended = false →
        (∀ i n err, a.outcome i = some (.written n err) → err = none) → a.world.used ≤ limit) := by
  obtain ⟨g, haccounted, hobeys, hidle⟩ := accounted_invariant hlimit h
  have hreturned (i : ι) : g i = .idle ∨
      g i = .failed ∧ ∃ n err, a.outcome i = some (.written n (some err)) := by
    rcases hrest.cases i with hp | ⟨o, hp⟩
    · exact .inl (hidle i hp)
    have hout : a.outcome i = some o := by simp [Pool.outcome, hp]
    rcases hobeys i _ hp with hi | ⟨hi, n, err, rfl⟩
    · exact .inl hi
    · exact .inr ⟨hi, n, err, hout⟩
  constructor
  · have hexact (v : ω) : a.world.accounted v = a.world.liveSize v := by
      refine (haccounted.exact v).resolve_right fun ⟨i, hi⟩ => ?_
      rcases hreturned i with hs | ⟨hs, -⟩
      · rw [hs] at hi
        exact hi
      · rw [hs] at hi
        exact hi
    have hsum := haccounted.sum
    simp only [hexact] at hsum
    exact hsum
  · intro hext hnil
    by_contra hlt
    obtain ⟨i, hi⟩ := haccounted.within hext (not_le.mp hlt)
    rcases hreturned i with hs | ⟨-, n, err, hout⟩
    · rw [hs] at hi
      exact hi
    · exact some_ne_none err (hnil i n _ hout)

/-! ### An outdated measurement -/

section Runs

variable {ω : Type} [DecidableEq ω]

/-- The answer to a call of a file system without errors. -/
def Buffers.answer (w : Buffers ω) (size : ℕ) : (c : BudgetCall ω) → Option (c.Resp × Buffers ω)
  | .lockFile f =>
    if w.locked f.id = false then
      some ((), { w with locked := update w.locked f.id true })
    else none
  | .unlockFile f => some ((), { w with locked := update w.locked f.id false })
  | .bufferRoot v => some (w.root v, w)
  | .walk v root => some (.ok ((w.dirs v root).map Prod.fst), w)
  | .info path => some (.ok (w.sizeOf path), w)
  | .account v current => some ((w.account v current).used, w.account v current)
  | .release v => some ((), w.release v)
  | .writeAt path length _ => some ((length, none), w.setSize path size)
  | .truncate path _ => some (none,
      { w.setSize path size with extended := w.extended || w.smaller path size })
  | .closeFile _ => some (none, w)
  | .takeTempFile v name => some ((w.tempFiles v).lookup name, { w with
      tempFiles := update w.tempFiles v ((w.tempFiles v).filter fun e => e.1 ≠ name) })
  | .remove path => some (none, w.unlink path)
  | .closeMain _ => some (none, w)
  | .fileClosed v => some (w.fileClosed v)
  | .takeRoot v => some (w.takeRoot v)
  | .removeAll v root => some (none, w.setDir v root [])

theorem Buffers.answer_sound {w w' : Buffers ω} {size : ℕ} {c : BudgetCall ω} {r : c.Resp}
    (h : w.answer size c = some (r, w')) : w.Answers c r w' := by
  cases c with
  | lockFile f =>
    simp only [answer] at h
    split at h
    · next hfree =>
      cases h
      exact ⟨hfree, rfl⟩
    · cases h
  | fileClosed v | takeRoot v => exact (some.inj h).symm
  | writeAt path length offset | truncate path _ =>
    cases h
    exact ⟨size, rfl⟩
  | info path =>
    cases h
    exact ⟨.inl rfl, rfl⟩
  | remove path | removeAll v root =>
    cases h
    exact .inl ⟨rfl, rfl⟩
  | bufferRoot v | account v current | takeTempFile v name =>
    cases h
    exact ⟨rfl, rfl⟩
  | unlockFile f | walk v root | release v | closeFile path | closeMain v =>
    cases h
    rfl

/-- Files are opened and calls answered without errors. -/
def budgetInterpreter (ω ι : Type) [DecidableEq ω] (limit : ℤ) :
    Interpreter (budgetSystem ω ι limit) (BudgetTask ω) ℕ (ω × String) where
  start w _ task := some (task.prog limit, w)
  call w _ c size := w.answer size c
  env w x := some (w.openTempFile x.1 x.2 none)
  start_sound h := by
    cases h
    exact ⟨_, rfl, rfl⟩
  call_sound h := Buffers.answer_sound h
  env_sound h := .inl ⟨_, _, none, (some.inj h).symm⟩

instance {ι : Type} (w : Buffers ω) (i : ι) (c : BudgetCall ω) (r : c.Resp) (w' : Buffers ω) :
    Decidable (Current w i c r w') :=
  match c, r with
  | .account v current, _ => inferInstanceAs (Decidable (current = w.liveSize v))
  | .release v, _ => inferInstanceAs (Decidable (w.liveSize v = 0))
  | .walk _ _, .ok names => .isTrue (.inl ⟨names, rfl⟩)
  | .walk v _, .error _ =>
    decidable_of_iff (w.accounted v = w.liveSize v)
      ⟨.inr, fun h => h.resolve_left fun ⟨_, hr⟩ => Except.noConfusion rfl rfl (heq_of_eq hr)⟩
  | .info _, .ok found => .isTrue (.inl ⟨found, rfl⟩)
  | .info path, .error _ =>
    decidable_of_iff (w.accounted path.vfs = w.liveSize path.vfs)
      ⟨.inr, fun h => h.resolve_left fun ⟨_, hr⟩ => Except.noConfusion rfl rfl (heq_of_eq hr)⟩
  | .lockFile _, _ | .unlockFile _, _ | .bufferRoot _, _ | .writeAt _ _ _, _ | .truncate _ _, _
  | .closeFile _, _ | .takeTempFile _ _, _ | .remove _, _ | .closeMain _, _ | .fileClosed _, _
  | .takeRoot _, _ | .removeAll _ _, _ => .isTrue trivial

end Runs

namespace Overlap

/-- Runs of three goroutines on two wrappers. -/
abbrev Moves := List (Move (Fin 3) (BudgetTask (Fin 2)) ℕ (Fin 2 × String))

/-- A pool of three goroutines. -/
abbrev State := Pool (Buffers (Fin 2)) (Fin 3) (BudgetCall (Fin 2)) BudgetCall.Resp BudgetOutcome

/-- Answer the next `n` calls of a goroutine; a write leaves a file of the given size. -/
def steps (i : Fin 3) (n size : ℕ) : Moves := List.replicate n (.call i size)

/-- Two files of the first wrapper and one of the second are opened. -/
def opened : Moves := [.env (0, "a"), .env (0, "b"), .env (1, "c")]

/-- A write at the beginning of a file. -/
def write (i : Fin 3) (id : ℕ) (v : Fin 2) (name : String) (length : ℕ) :
    Move (Fin 3) (BudgetTask (Fin 2)) ℕ (Fin 2 × String) :=
  .start i (.writeAt ⟨id, ⟨v, 0, name⟩⟩ length 0)

/-- One write after the other. -/
def oneByOne : Moves :=
  opened ++ write 0 0 0 "a" 5 :: steps 0 13 5 ++ write 1 1 0 "b" 3 :: steps 1 13 3 ++
    write 2 2 1 "c" 1 :: steps 2 11 1

/-- The first write measures its files, and applies the measurement after the second write has
applied its own. The third write is to the other wrapper. -/
def outdated : Moves :=
  opened ++ write 0 0 0 "a" 5 :: steps 0 11 5 ++ write 1 1 0 "b" 4 :: steps 1 13 4 ++
    steps 0 2 5 ++ write 2 2 1 "c" 4 :: steps 2 11 4

/-- What the writes have returned, what is in use, and the sizes of the files. -/
structure View where
  outcomes : List (Option BudgetOutcome)
  used : ℤ
  sizes : ℕ × ℕ
  extended : Bool
  deriving DecidableEq

/-- The view of a pool. -/
def view (a : State) : View where
  outcomes := [a.outcome 0, a.outcome 1, a.outcome 2]
  used := a.world.used
  sizes := (a.world.liveSize 0, a.world.liveSize 1)
  extended := a.world.extended

/-- The three writes have returned without an error. -/
def allWritten (n₀ n₁ n₂ : ℕ) : List (Option BudgetOutcome) :=
  [some (.written n₀ none), some (.written n₁ none), some (.written n₂ none)]

theorem outcome_of_view {a : State} {o : View} {n₀ n₁ n₂ : ℕ} (h : view a = o)
    (ho : o.outcomes = allWritten n₀ n₁ n₂) (i : Fin 3) :
    ∃ n, a.outcome i = some (.written n none) := by
  have hall : [a.outcome 0, a.outcome 1, a.outcome 2] = allWritten n₀ n₁ n₂ :=
    (congrArg View.outcomes h).trans ho
  simp only [allWritten, cons.injEq, and_true] at hall
  obtain ⟨h0, h1, h2⟩ := hall
  match i with
  | 0 => exact ⟨n₀, h0⟩
  | 1 => exact ⟨n₁, h1⟩
  | 2 => exact ⟨n₂, h2⟩

theorem atRest_of_view {a : State} {o : View} {n₀ n₁ n₂ : ℕ} (h : view a = o)
    (ho : o.outcomes = allWritten n₀ n₁ n₂) : a.AtRest := fun i =>
  have ⟨_, hi⟩ := outcome_of_view h ho i
  Pool.pending_of_outcome hi

/-- One write after the other: nine bytes are in use, which is the limit. -/
theorem budget_exact_at_rest_oneByOne : ∃ a : State,
    ((budgetSystem (Fin 2) (Fin 3) 9).restrict Current).Reachable (Buffers.new (Fin 2)) a ∧
      a.AtRest ∧ SumsTo (fun v => (a.world.liveSize v : ℤ)) 9 := by
  have hview : (((budgetInterpreter (Fin 2) (Fin 3) 9).restrict Current).exec (Buffers.new (Fin 2))
      oneByOne).map view = some ⟨allWritten 5 3 1, 9, (8, 1), false⟩ := by decide +kernel
  obtain ⟨a, ha, heq⟩ := map_eq_some_iff.mp hview
  have hreach := Interpreter.exec_reachable _ ha
  have hrest := atRest_of_view heq rfl
  have hused : a.world.used = 9 := congrArg View.used heq
  refine ⟨a, hreach, hrest, ?_⟩
  rw [← hused]
  exact (budget_exact_at_rest (by decide) hreach hrest).1

end Overlap

open Overlap in
/-- All writes have returned without an error and nine bytes are in use, which is the limit, but the
files have thirteen bytes. -/
theorem budget_undercounts : ∃ a : State,
    (budgetSystem (Fin 2) (Fin 3) 9).Reachable (Buffers.new (Fin 2)) a ∧ a.AtRest ∧
      (∀ i, ∃ n, a.outcome i = some (.written n none)) ∧
      a.world.used = 9 ∧ a.world.liveSize 0 + a.world.liveSize 1 = 13 := by
  have hview : ((budgetInterpreter (Fin 2) (Fin 3) 9).exec (Buffers.new (Fin 2))
      outdated).map view = some ⟨allWritten 5 4 4, 9, (9, 4), false⟩ := by decide +kernel
  obtain ⟨a, ha, heq⟩ := map_eq_some_iff.mp hview
  have hsizes : (a.world.liveSize 0, a.world.liveSize 1) = (9, 4) := congrArg View.sizes heq
  obtain ⟨h0, h1⟩ := Prod.mk.inj hsizes
  refine ⟨a, Interpreter.exec_reachable _ ha, atRest_of_view heq rfl, outcome_of_view heq rfl,
    congrArg View.used heq, ?_⟩
  rw [h0, h1]

end Walrusd.Litestream
