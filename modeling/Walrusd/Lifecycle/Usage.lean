import Walrusd.Program.Handler
import Walrusd.Runtime.Compaction
import Walrusd.Runtime.Read

/-!
# What the runtime's programs do with databases and sessions

A read, a write attempt and a compaction pass hold one database at a time and have at most one
session of their own: the one that they opened and have neither closed nor put into the cache. They
open and close sessions only while they hold the database, and they release the database only
without a session. `Usage` is the record of both, and every program of the runtime keeps to it,
whatever its calls answer.

## Main definitions

* `Usage`, `usage`.

## Main results

* `withRead_usage`, `withWriteAttempt_usage`, `runCompaction_usage`.
-/

namespace Walrusd.Lifecycle

open Program Walrusd.Runtime Litestream

variable {B α : Type}
variable {c : Op B}

/-- Whether a program holds its database, and the session that it opened and has to close or to put
into the cache, with a mark for a write session. -/
structure Usage where
  entered : Bool
  session : Option (Sess × Bool)

/-- Nothing held and nothing open. -/
def Usage.out : Usage := ⟨false, none⟩

/-- The database held and nothing open. -/
def Usage.entry : Usage := ⟨true, none⟩

/-- The database held and a session open. -/
def Usage.using (s : Sess) (write : Bool) : Usage := ⟨true, some (s, write)⟩

/-- The record after an answered call. -/
def Usage.step (u : Usage) : (c : Op B) → Resp c → Usage
  | .database, .ok _ => { u with entered := true }
  | .releaseDatabase, _ => { u with entered := false }
  | .openRead _, .ok s => { u with session := some (s, false) }
  | .openWrite _, .ok s => { u with session := some (s, true) }
  | .cachePut _, _ | .closeRead _, _ | .closeSession _, _ => { u with session := none }
  | _, _ => u

/-- The calls that a program may make. -/
def Usage.Allows (u : Usage) : Op B → Prop
  | .database => u = .out
  | .releaseDatabase | .openRead _ | .openWrite _ => u = .entry
  | .cachePut s | .closeRead s => u = .using s false
  | .closeSession s => u = .using s true
  | _ => True

/-- The protocol of the runtime's programs. -/
def usage : Protocol (Op B) Resp Usage where
  allow := Usage.Allows
  next u c r u' := u' = u.step c r

instance : (@usage B).Steps Usage.step := ⟨id⟩

/-- The calls that neither open nor close anything. -/
def idle : Op B → Bool
  | .database | .releaseDatabase | .openRead _ | .openWrite _ | .cachePut _ | .closeRead _
  | .closeSession _ => false
  | _ => true

/-- The program opens and closes nothing. -/
abbrev Idle (p : RuntimeM B α) : Prop := p.Only fun c => idle c = true

theorem Usage.allows_of_idle (hc : idle c = true) (u : Usage) : u.Allows c := by
  cases c <;> first | exact trivial | cases hc

theorem Usage.step_of_idle (hc : idle c = true) (u : Usage) (r : Resp c) : u.step c r = u := by
  cases c <;> first | rfl | cases hc

/-- The components without calls that open or close anything. -/
theorem idle_of_kind {k : Kind} (hc : c.kind = k) (hk : k ≠ .registry ∧ k ≠ .session ∧ k ≠ .cache) :
    idle c = true := by
  subst hc
  cases c <;>
    first | rfl | exact absurd rfl hk.1 | exact absurd rfl hk.2.1 | exact absurd rfl hk.2.2

theorem idle_of_indexing (hc : c.kind.indexing = true) : idle c = true := by
  refine idle_of_kind rfl ⟨?_, ?_, ?_⟩ <;>
  · intro hk
    rw [hk] at hc
    cases hc

variable {u : Usage} {Q : Usage → α → Prop}

theorem idle_obeys {f : Resp c → RuntimeM B α} (hc : idle c = true)
    (hf : ∀ r, (f r).Obeys usage Q u) : (ask c >>= f).Obeys usage Q u := by
  refine .does (Usage.allows_of_idle hc u) fun r => ?_
  rw [Usage.step_of_idle hc]
  exact hf r

theorem idle_bind {β : Type} {p : RuntimeM B β} {f : β → RuntimeM B α} (hp : Idle p)
    (hf : ∀ b, (f b).Obeys usage Q u) : (p >>= f).Obeys usage Q u :=
  hp.bind_obeys (fun _ hc => ⟨Usage.allows_of_idle hc u,
    fun r _ hn => hn.trans (Usage.step_of_idle hc u r)⟩) hf

theorem idle_keeps {p : RuntimeM B α} (hp : Idle p) (u : Usage) :
    p.Obeys usage (fun u' _ => u' = u) u :=
  hp.obeys fun _ hc => ⟨Usage.allows_of_idle hc u,
    fun r _ hn => hn.trans (Usage.step_of_idle hc u r)⟩

/-! ### Programs that open and close nothing -/

section Idle

variable {json : ManifestJson B} {cfg : Config} {key : String} {held : Lease.Held} {s : Sess}
  {cause : Err} {files : List FileInfo}

theorem readManifest_idle : Idle (readManifest json) :=
  (readManifest_only json).mono fun _ hc => idle_of_kind hc (by decide)

theorem writeManifest_idle : Idle (writeManifest json files) :=
  (writeManifest_only json files).mono fun _ hc => idle_of_kind hc (by decide)

theorem rebuildManifest_idle : Idle (rebuildManifest : RuntimeM B _) :=
  rebuildManifest_only.mono fun _ hc => idle_of_kind hc (by decide)

theorem leaseStale_idle : Idle (leaseStale cfg held : RuntimeM B _) :=
  (leaseStale_only held).mono fun _ hc => idle_of_kind hc (by decide)

theorem enqueueCompaction_idle : Idle (enqueueCompaction cfg files : RuntimeM B _) :=
  (enqueueCompaction_only files).mono fun _ hc => idle_of_kind hc (by decide)

theorem failWithLease_idle : Idle (failWithLease held cause : RuntimeM B _) :=
  .perform rfl fun _ => trivial

theorem flushFailure_idle : Idle (flushFailure held cause : RuntimeM B _) := by
  refine .perform rfl fun _ => ?_
  split <;> trivial

theorem lookupIdempotent_idle : Idle (lookupIdempotent key s : RuntimeM B _) := by
  refine .perform rfl ?_
  rintro (_ | e)
  · refine .perform rfl ?_
    rintro (e | _ | txid) <;> trivial
  · trivial

theorem recordIdempotent_idle {txid : String} :
    Idle (recordIdempotent key s txid : RuntimeM B _) := by
  refine .perform rfl ?_
  rintro (_ | e) <;> trivial

theorem nextTXID_idle : Idle (nextTXID s : RuntimeM B _) := by
  refine .perform rfl ?_
  rintro (e | n) <;> trivial

theorem disableWrite_idle : Idle (disableWrite s : RuntimeM B _) := by
  refine .perform rfl ?_
  rintro (_ | e) <;> trivial

theorem sessionTXID_idle : Idle (sessionTXID s : RuntimeM B _) := by
  refine .perform rfl ?_
  rintro (e | txid) <;> trivial

theorem hasLTX_idle : Idle (hasLTX : RuntimeM B _) :=
  hasLTX_only.mono fun _ hc => idle_of_kind hc (by decide)

theorem compactDatabase_idle {d : Descriptor} : Idle (compactDatabase json cfg d) := by
  refine (compactDatabase_only json cfg d).mono fun c hc => ?_
  cases c <;> first | rfl | cases hc

theorem withEmptyRead_idle : Idle (withEmptyRead : RuntimeM B _) := by
  refine .perform rfl ?_
  rintro (_ | e)
  · exact Prog.only_perform rfl
  · trivial

end Idle

/-! ### Compaction and reads -/

section Programs

variable {json : ManifestJson B} {cfg : Config} {d : Descriptor} {key : String}

/-- The program ends with nothing held and nothing open. -/
def Left (u : Usage) (_ : α) : Prop := u = .out

/-- The program ends with the database held and nothing open. -/
def Entered (u : Usage) (_ : α) : Prop := u = .entry

theorem release_left {f : RuntimeM B α} (hf : Idle f) :
    ((do
      ask .releaseDatabase
      f : RuntimeM B α)).Obeys usage Left .entry := by
  refine .does rfl fun _ => ?_
  exact idle_keeps hf .out

theorem runCompaction_usage : (runCompaction json cfg d).Obeys usage Left .out := by
  refine .does rfl ?_
  rintro (e | ⟨⟩)
  · exact idle_keeps (Prog.only_perform rfl) .out
  · exact idle_bind compactDatabase_idle fun _ =>
      release_left (Prog.only_perform rfl)

theorem openAndRun_usage {files : Option (List FileInfo)} :
    (openAndRun files : RuntimeM B _).Obeys usage Entered .entry := by
  refine .does rfl ?_
  rintro (e | s)
  · rfl
  refine idle_obeys rfl ?_
  rintro (_ | e)
  · refine .does rfl fun _ => ?_
    rfl
  refine .does rfl fun _ => ?_
  rfl

theorem readFresh_usage : (readFresh json).Obeys usage Entered .entry := by
  refine idle_bind readManifest_idle ?_
  rintro (e | _ | _ | ⟨f, files⟩)
  · rfl
  · refine idle_bind hasLTX_idle ?_
    rintro (e | _ | _)
    · rfl
    · exact idle_keeps withEmptyRead_idle .entry
    · exact openAndRun_usage
  · exact idle_keeps withEmptyRead_idle .entry
  · exact openAndRun_usage

theorem readWithEntry_usage : (readWithEntry json).Obeys usage Entered .entry := by
  refine idle_obeys rfl ?_
  rintro (_ | s)
  · exact readFresh_usage
  refine idle_obeys rfl ?_
  rintro (_ | e)
  · rfl
  refine idle_obeys rfl fun _ => ?_
  split
  · exact readFresh_usage
  · rfl

theorem withRead_usage {identity : Option Err} :
    (withRead json d identity).Obeys usage Left .out := by
  cases identity with
  | some e => rfl
  | none =>
    refine .does rfl ?_
    rintro (e | ⟨⟩)
    · rfl
    refine readWithEntry_usage.bind ?_
    rintro u res rfl
    exact release_left trivial

/-! ### Write attempts -/

variable {held : Lease.Held} {manifest : Option Slice} {s : Sess} {cause : Err}
  {txid next : String} {files : List FileInfo}

/-- The program closes the write session `s` and keeps the database. -/
abbrev Closes (s : Sess) (p : RuntimeM B α) : Prop := p.Obeys usage Entered (.using s true)

theorem close_entered {f : RuntimeM B α} (hf : Idle f) :
    Closes s ((do
      ask (.closeSession s)
      f : RuntimeM B α)) := by
  refine .does rfl fun _ => ?_
  exact idle_keeps hf .entry

theorem closeAndFail_usage : Closes s (closeAndFail held s cause : RuntimeM B _) :=
  close_entered flushFailure_idle

theorem failTransaction_usage : Closes s (failTransaction held s cause : RuntimeM B _) :=
  idle_obeys rfl fun _ => close_entered failWithLease_idle

theorem closeAndAbandon_usage : Closes s (closeAndAbandon held s cause : RuntimeM B _) :=
  close_entered (.perform rfl fun _ => trivial)

theorem acknowledge_usage : Closes s (acknowledge cfg held s txid files : RuntimeM B _) := by
  refine idle_obeys rfl fun _ => close_entered (.perform rfl ?_)
  rintro (_ | e)
  · exact enqueueCompaction_idle.bind fun _ => trivial
  · trivial

theorem publish_usage : Closes s (publish json cfg held manifest s txid) := by
  cases manifest with
  | some manifestFiles =>
    refine idle_obeys rfl fun captured => idle_bind writeManifest_idle ?_
    rintro (_ | e)
    · exact acknowledge_usage
    · exact closeAndFail_usage
  | none =>
    refine idle_bind rebuildManifest_idle ?_
    rintro (e | files)
    · exact acknowledge_usage
    · refine idle_bind writeManifest_idle ?_
      rintro (_ | e) <;> exact acknowledge_usage

theorem confirmFlush_usage : Closes s (confirmFlush json cfg held manifest s next) := by
  refine idle_bind leaseStale_idle fun stale => ?_
  cases stale
  · refine idle_bind sessionTXID_idle ?_
    rintro (e | txid)
    · exact closeAndAbandon_usage
    simp only
    split
    · exact closeAndAbandon_usage
    · exact publish_usage
  · exact closeAndAbandon_usage

theorem flush_usage : Closes s (flush json cfg held manifest s next) := by
  refine idle_bind disableWrite_idle ?_
  rintro (_ | e)
  · exact confirmFlush_usage
  · exact closeAndFail_usage

theorem commitAndFlush_usage : Closes s (commitAndFlush json cfg held manifest s next) := by
  refine idle_bind leaseStale_idle fun stale => ?_
  cases stale
  · refine idle_obeys rfl ?_
    rintro (_ | e)
    · exact flush_usage
    · exact idle_obeys rfl fun _ => closeAndFail_usage
  · exact idle_obeys rfl fun _ => closeAndAbandon_usage

theorem mutate_usage : Closes s (mutate json cfg key held manifest s) := by
  refine idle_obeys rfl ?_
  rintro (_ | e)
  · refine idle_obeys rfl ?_
    rintro (_ | e)
    · refine idle_bind nextTXID_idle ?_
      rintro (e | next)
      · exact failTransaction_usage
      refine idle_bind recordIdempotent_idle ?_
      rintro (_ | e)
      · exact commitAndFlush_usage
      · exact failTransaction_usage
    · exact failTransaction_usage
  · simp only
    split <;> exact failTransaction_usage

theorem deduplicate_usage : Closes s (deduplicate json held manifest s txid) := by
  refine idle_obeys rfl fun _ => close_entered (Prog.Only.bind ?_ ?_)
  · split
    · exact (repairForRetry_only json txid).mono fun _ => idle_of_indexing
    · trivial
  rintro (_ | e)
  · refine .perform rfl ?_
    rintro (_ | e) <;> trivial
  · exact failWithLease_idle

theorem transaction_usage : Closes s (transaction json cfg key held manifest s) := by
  refine idle_obeys rfl ?_
  rintro (_ | e)
  · refine idle_bind lookupIdempotent_idle ?_
    rintro (e | txid)
    · exact failTransaction_usage
    simp only
    split
    · exact deduplicate_usage
    · exact mutate_usage
  · exact close_entered failWithLease_idle

theorem attemptWithLease_usage :
    (attemptWithLease json cfg key held).Obeys usage Entered .entry := by
  refine idle_bind ((planFiles_only json).mono fun _ => idle_of_indexing) ?_
  rintro (e | manifest)
  · exact idle_keeps failWithLease_idle .entry
  refine .does rfl ?_
  rintro (e | s)
  · exact idle_keeps failWithLease_idle .entry
  · exact transaction_usage

theorem withWriteAttempt_usage : (withWriteAttempt json cfg d key).Obeys usage Left .out := by
  refine .does rfl ?_
  rintro (e | ⟨⟩)
  · rfl
  have hentry : (attemptWithEntry json cfg d key).Obeys usage Entered .entry := by
    refine idle_obeys rfl ?_
    rintro (e | held)
    · rfl
    · exact attemptWithLease_usage
  refine hentry.bind ?_
  rintro u res rfl
  exact release_left trivial

end Programs

end Walrusd.Lifecycle
