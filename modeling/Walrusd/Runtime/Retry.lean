import Walrusd.Lease.Ending
import Walrusd.Lifecycle.Api
import Walrusd.Program.Script
import Walrusd.Runtime.Deadlines
import Walrusd.Runtime.WithWrite

/-!
# Retries and error classes

`WithWrite` repeats an attempt if the class of its error is one of the retryable ones, and the
caller is to find a class on every error. An attempt classifies the errors of the SQL layer, the
replica, the manifest and the lease store. The one error that it returns as it is comes from the
lease: if the time of the attempt ends while the acquisition is waiting, then the attempt fails with
the bare error of its context, which has no class. It is not retried, and unless the retry budget
has ended as well the caller gets it without a class.

The answers to the calls of an attempt are arbitrary, except that a lease is acquired and released
by the programs of `Walrusd.Lease.Manager`, and a database registered by that of
`Walrusd.Lifecycle.Api`. A write gets the results of such attempts.

## Main definitions

* `Genuine`, `Expired` — the answers in an attempt, and those that blame nothing but the end of its
  time.
* `Outcome`, `TimesOut`, `WaitsOut`.
* `WriteRun`, `Kept`, `Provided`.

## Main results

* `classified_or_waitsOut`, `retryable_or_waitsOut` — how attempts fail.
* `retries_kept_iff`.
-/

namespace Walrusd.Runtime

open Program Litestream List

/-! ### The errors of an attempt -/

/-- An error of the SQL layer that the end of the attempt's time causes. The last code is
`SQLITE_INTERRUPT`. -/
def timeout (e : Err) : Bool :=
  e.is .canceled || e.is .deadlineExceeded || decide (e.sqliteCode = some (.other 9))

theorem isRetryableWrite_of_timeout {e : Err} (h : timeout e = true) (message databaseID : String)
    (cause : Err) :
    isRetryableWrite (.wrap (classifySQLError e) message databaseID cause) = true := by
  unfold classifySQLError
  split
  · rfl
  split
  · rfl
  · next hctx =>
    have hcode : e.sqliteCode = some (.other 9) := by
      simpa [timeout, hctx] using h
    rw [hcode]
    rfl

theorem classOf_of_isRetryableWrite {e : Err} (h : isRetryableWrite e = true) :
    e.classOf ≠ none := by
  intro hnone
  rw [isRetryableWrite, hnone] at h
  cases h

section Answers

variable (rjson : Lease.RecordJson) (leases : Lease.Manager)

/-- A run of the acquisition of a lease, in an attempt whose caller has not cancelled it. -/
def Acquisition (db : DatabaseID) (rootPrefix : String) (tr : List (Σ c, Lease.Resp c))
    (res : Except Err Lease.Held) : Prop :=
  (∃ rounds, Returns (Lease.acquire rjson leases rounds db [rootPrefix]) tr res) ∧
    ∀ e, Lease.endingOf tr = .waiting e → e = .deadlineExceeded

variable {B : Type}

/-- The answers in an attempt. -/
def Genuine : (c : Op B) → Resp c → Prop
  | .database, .error e => ∃ key tr,
      Returns (Lifecycle.database key : Lifecycle.LifeM B _) tr (.error e) ∧
        ∀ key' r, ⟨.database key', r⟩ ∈ tr →
          ∃ registry err, r = (Lifecycle.Registry.database registry key' err).1
  | .acquire db rootPrefix, r => ∃ tr, Acquisition rjson leases db rootPrefix tr r
  | .release held _, r => ∃ tr, Returns (Lease.release rjson (some held)) tr r
  | _, _ => True

/-- The answers that blame nothing but the end of the attempt's time. Any failure of the replica,
of the manifest, of the flush or of the release may be due to that; a callback that reports a nested
transaction is to blame itself. -/
def Expired : (c : Op B) → Resp c → Prop
  | .database, .error _ => False
  | .acquire db rootPrefix, .error e =>
      ∃ tr, Acquisition rjson leases db rootPrefix tr (.error e) ∧ Lease.endingOf tr ≠ .none
  | .callback _, some e => timeout e = true ∧ isNestedTxError e = false
  | .beginImmediate _, some e | .execSchema _, some e | .insertKey _ _ _, some e
  | .selectTXID _ _, .error e | .pos _, .error e => timeout e = true
  | _, _ => True

/-- The state says whether all answers so far blame nothing but the end of the attempt's time. -/
def course : Protocol (Op B) Resp Prop where
  allow _ _ := True
  next s c r s' := Genuine rjson leases c r ∧ s' = (s ∧ Expired rjson leases c r)

instance : (course rjson leases : Protocol (Op B) Resp Prop).Steps
    fun s c r => s ∧ Expired rjson leases c r := ⟨And.right⟩

end Answers

section Fit

variable {rjson : Lease.RecordJson} {s : Prop} {e : Err}

/-- An error that carries a class, and a retryable one if nothing but the end of the attempt's time
is to blame, or an error of marshalling a lease record. -/
def Fit (rjson : Lease.RecordJson) (s : Prop) (e : Err) : Prop :=
  e.classOf ≠ none ∧ (s → isRetryableWrite e = true) ∨ ∃ rec, rjson.marshal rec = .error e

/-- A result whose error is fit. -/
def FitResult (rjson : Lease.RecordJson) (s : Prop) (res : Except Err WriteResult) : Prop :=
  ∀ e, res = .error e → Fit rjson s e

theorem fit_of_isRetryableWrite (h : isRetryableWrite e = true) : Fit rjson s e :=
  .inl ⟨classOf_of_isRetryableWrite h, fun _ => h⟩

theorem Fit.mono {s' : Prop} (h : Fit rjson s e) (hs : s' → s) : Fit rjson s' e :=
  h.imp_left fun h => ⟨h.1, fun hs' => h.2 (hs hs')⟩

theorem fit_classifySQLError {message : String} (h : s → timeout e = true) :
    Fit rjson s (.wrap (classifySQLError e) message "" e) :=
  .inl ⟨nofun, fun hs => isRetryableWrite_of_timeout (h hs) _ _ _⟩

end Fit

/-- The error of the program, if it ends with one, is fit for what has been answered until then. -/
abbrev Fits {B : Type} (rjson : Lease.RecordJson) (leases : Lease.Manager)
    (p : RuntimeM B (Except Err WriteResult)) (s : Prop) : Prop :=
  p.Obeys (course rjson leases) (FitResult rjson) s

section Stages

variable {B : Type} {json : ManifestJson B} {cfg : Config} {key : String}
  {rjson : Lease.RecordJson} {leases : Lease.Manager} {s : Prop} {held : Lease.Held} {t : Sess}
  {manifest : Option Slice} {txid next : String} {files : List FileInfo} {e : Err}

theorem fit_of_yields {p : RuntimeM B (Except Err WriteResult)} (h : p.Yields (FitResult rjson s)) :
    Fits rjson leases p s := by
  induction p generalizing s with
  | done a => exact h
  | call c k ih =>
    refine ⟨trivial, ?_⟩
    rintro r _ ⟨-, rfl⟩
    exact ih r ((h r).mono fun res hres e he => (hres e he).mono And.left)

theorem failWithLease_fit (h : Fit rjson s e) :
    Fits (B := B) rjson leases (failWithLease held e) s := by
  refine fit_of_yields fun _ => ?_
  rintro _ ⟨⟩
  exact h

theorem failTransaction_fit (h : Fit rjson s e) :
    Fits (B := B) rjson leases (failTransaction held t e) s := by
  refine fit_of_yields fun _ _ _ => ?_
  rintro _ ⟨⟩
  exact h

theorem closeAndAbandon_fit (h : isRetryableWrite e = true) :
    Fits (B := B) rjson leases (closeAndAbandon held t e) s := by
  refine fit_of_yields fun _ _ => ?_
  rintro _ ⟨⟩
  exact fit_of_isRetryableWrite h

theorem closeAndFail_fit : Fits (B := B) rjson leases (closeAndFail held t e) s := by
  refine fit_of_yields fun _ _ => ?_
  simp only
  split
  · rintro _ ⟨⟩
    exact fit_of_isRetryableWrite rfl
  · rintro _ ⟨⟩
    exact fit_of_isRetryableWrite rfl

theorem fit_bind {α : Type} {T : α → Prop} {p : RuntimeM B α}
    {f : α → RuntimeM B (Except Err WriteResult)} (hp : p.Yields T)
    (hf : ∀ a s, T a → Fits rjson leases (f a) s) : Fits rjson leases (p >>= f) s :=
  Prog.Obeys.bind (Q := fun _ => T) (hp.obeys_of_allow (fun _ _ => trivial) fun _ _ h => h)
    fun s a ha => hf a s ha

theorem lookupIdempotent_fit :
    (lookupIdempotent key t : RuntimeM B _).Obeys (course rjson leases)
      (fun s res => ∀ e, res = .error e → Fit rjson s e) s := by
  refine .does trivial ?_
  rintro (_ | e)
  · refine .does trivial ?_
    rintro (e | _ | txid)
    · rintro _ ⟨⟩
      exact fit_classifySQLError And.right
    · exact nofun
    · exact nofun
  · rintro _ ⟨⟩
    exact fit_classifySQLError And.right

theorem recordIdempotent_fit :
    (recordIdempotent key t txid : RuntimeM B _).Obeys (course rjson leases)
      (fun s res => ∀ e, res = some e → Fit rjson s e) s := by
  refine .does trivial ?_
  rintro (_ | e)
  · exact nofun
  · rintro _ ⟨⟩
    exact fit_classifySQLError And.right

theorem nextTXID_fit :
    (nextTXID t : RuntimeM B _).Obeys (course rjson leases)
      (fun s res => ∀ e, res = .error e → s → timeout e = true) s := by
  refine .does trivial ?_
  rintro (e | n)
  · rintro _ ⟨⟩
    exact And.right
  · exact nofun

/-! The errors of indexing are errors of the replica. -/

theorem repairUncovered_yields (current : Option (List FileInfo)) (tx : ℕ) :
    (repairUncovered json current tx).Yields fun res =>
      ∀ e, res = some e → isRetryableWrite e = true := by
  unfold repairUncovered
  split
  · exact nofun
  refine (Prog.yields_true rebuildManifest).bind ?_
  rintro (e | files) -
  · rintro _ ⟨⟩
    rfl
  refine (Prog.yields_true (writeManifest json files)).bind ?_
  rintro (_ | e) -
  · exact nofun
  · rintro _ ⟨⟩
    rfl

theorem repairForRetry_yields (txid : String) :
    (repairForRetry json txid).Yields fun res => ∀ e, res = some e → isRetryableWrite e = true := by
  unfold repairForRetry
  split
  · exact nofun
  refine (Prog.yields_true (readManifest json)).bind ?_
  rintro (e | current) -
  · rintro _ ⟨⟩
    rfl
  · exact repairUncovered_yields current _

theorem repairTail_yields (files : List FileInfo) :
    (repairTail json files).Yields fun res => ∀ e, res = .error e → isRetryableWrite e = true := by
  refine (Prog.yields_true tailTXID).bind ?_
  rintro (e | tail) -
  · rintro _ ⟨⟩
    rfl
  simp only
  split
  · refine (Prog.yields_true rebuildManifest).bind ?_
    rintro (e | rebuilt) -
    · rintro _ ⟨⟩
      rfl
    refine (Prog.yields_true (writeManifest json rebuilt)).bind ?_
    rintro (_ | e) -
    · exact nofun
    · rintro _ ⟨⟩
      rfl
  · exact nofun

theorem planFiles_yields :
    (planFiles json).Yields fun res => ∀ e, res = .error e → isRetryableWrite e = true := by
  refine (Prog.yields_true (readManifest json)).bind ?_
  rintro (e | _ | files) -
  · rintro _ ⟨⟩
    rfl
  · exact nofun
  refine (repairTail_yields files).bind ?_
  rintro (e | files) h
  · rintro _ ⟨⟩
    exact h e rfl
  · exact nofun

/-! ### The stages -/

theorem release_fit {f : Option Err → RuntimeM B (Except Err WriteResult)}
    (hok : ∀ s, Fits rjson leases (f none) s) (herror : ∀ e, f (some e) = return .error e) :
    Fits rjson leases (perform (.release held true) >>= f) s := by
  refine .perform trivial ?_
  rintro (_ | e) _ ⟨⟨tr, hrelease⟩, rfl⟩
  · exact hok _
  rw [herror]
  rintro _ ⟨⟩
  rcases hrelease.yields (Lease.release_yields (some held)) e rfl with hretry | hmarshal
  · exact fit_of_isRetryableWrite hretry
  · exact .inr hmarshal

theorem acknowledge_fit : Fits (B := B) rjson leases (acknowledge cfg held t txid files) s := by
  refine .perform trivial fun _ _ _ => ?_
  refine .perform trivial fun _ _ _ => ?_
  refine release_fit (fun s => ?_) fun _ => rfl
  refine fit_of_yields ((Prog.yields_true _).bind fun _ _ => ?_)
  exact nofun

theorem publish_fit : Fits rjson leases (publish json cfg held manifest t txid) s := by
  unfold publish
  cases manifest with
  | some manifestFiles =>
    refine .perform trivial fun captured _ _ => ?_
    refine fit_bind (Prog.yields_true _) ?_
    rintro (_ | e) s -
    · exact acknowledge_fit
    · exact closeAndFail_fit
  | none =>
    refine fit_bind (Prog.yields_true rebuildManifest) ?_
    rintro (e | files) s -
    · exact acknowledge_fit
    refine fit_bind (Prog.yields_true (writeManifest json files)) ?_
    rintro (_ | e) s -
    · exact acknowledge_fit
    · exact acknowledge_fit

theorem confirmFlush_fit : Fits rjson leases (confirmFlush json cfg held manifest t next) s := by
  refine fit_bind (Prog.yields_true (leaseStale cfg held)) ?_
  rintro (_ | _) s -
  · refine fit_bind (Prog.yields_true (sessionTXID t)) ?_
    rintro (e | txid) s -
    · exact closeAndAbandon_fit rfl
    simp only
    split
    · exact closeAndAbandon_fit rfl
    · exact publish_fit
  · exact closeAndAbandon_fit rfl

theorem commitAndFlush_fit :
    Fits rjson leases (commitAndFlush json cfg held manifest t next) s := by
  refine fit_bind (Prog.yields_true (leaseStale cfg held)) ?_
  rintro (_ | _) s -
  · refine .perform trivial ?_
    rintro (_ | e) _ -
    · refine fit_bind (Prog.yields_true (disableWrite t)) ?_
      rintro (_ | e) s -
      · exact confirmFlush_fit
      · exact closeAndFail_fit
    · exact .perform trivial fun _ _ _ => closeAndFail_fit
  · exact .perform trivial fun _ _ _ => closeAndAbandon_fit rfl

theorem mutate_fit : Fits rjson leases (mutate json cfg key held manifest t) s := by
  refine .does trivial ?_
  rintro (_ | e)
  · refine .does trivial ?_
    rintro (_ | e)
    · refine nextTXID_fit.bind ?_
      rintro s (e | next) hnext
      · exact failTransaction_fit (fit_classifySQLError (hnext e rfl))
      refine recordIdempotent_fit.bind ?_
      rintro s (_ | e) hrecord
      · exact commitAndFlush_fit
      · exact failTransaction_fit (hrecord e rfl)
    · exact failTransaction_fit (fit_of_isRetryableWrite rfl)
  · simp only
    split
    · next hnested =>
      refine failTransaction_fit (.inl ⟨nofun, ?_⟩)
      rintro ⟨-, -, hplain⟩
      rw [hplain] at hnested
      cases hnested
    · exact failTransaction_fit (fit_classifySQLError fun h => h.2.1)

theorem deduplicate_fit : Fits rjson leases (deduplicate json held manifest t txid) s := by
  refine .perform trivial fun _ _ _ => ?_
  refine .perform trivial fun _ _ _ => ?_
  have hrepair : (if manifest.isSome then repairForRetry json txid else return none).Yields
      fun res => ∀ e, res = some e → isRetryableWrite e = true := by
    split
    · exact repairForRetry_yields txid
    · exact nofun
  refine fit_bind hrepair ?_
  rintro (_ | e) s h
  · exact release_fit (fun s => nofun) fun _ => rfl
  · exact failWithLease_fit (fit_of_isRetryableWrite (h e rfl))

theorem transaction_fit : Fits rjson leases (transaction json cfg key held manifest t) s := by
  refine .does trivial ?_
  rintro (_ | e)
  · refine lookupIdempotent_fit.bind ?_
    rintro s (e | txid) hlookup
    · exact failTransaction_fit (hlookup e rfl)
    simp only
    split
    · exact deduplicate_fit
    · exact mutate_fit
  · refine .does trivial fun _ => ?_
    exact failWithLease_fit (fit_classifySQLError fun h => h.1.2)

theorem attemptWithLease_fit : Fits rjson leases (attemptWithLease json cfg key held) s := by
  refine fit_bind planFiles_yields ?_
  rintro (e | manifest) s hplan
  · exact failWithLease_fit (fit_of_isRetryableWrite (hplan e rfl))
  refine .perform trivial ?_
  rintro (e | t) _ -
  · refine failWithLease_fit (fit_of_isRetryableWrite ?_)
    unfold wrapSessionOpenError
    split <;> rfl
  · exact transaction_fit

end Stages

theorem database_classified {B : Type} {key : String}
    {tr : List (Σ c : Lifecycle.Act B, Lifecycle.Rsp c)} {e : Err}
    (h : Returns (Lifecycle.database key : Lifecycle.LifeM B _) tr (.error e))
    (htr : ∀ key' r, ⟨.database key', r⟩ ∈ tr →
      ∃ registry err, r = (Lifecycle.Registry.database registry key' err).1) :
    e.classOf ≠ none := by
  rcases h with _ | @⟨_, _, r, tr, _, h⟩
  rcases r with _ | err
  · rcases h with _ | @⟨_, _, r, tr, _, h⟩
    obtain ⟨registry, err, hr⟩ := htr key r (mem_cons_of_mem _ mem_cons_self)
    rcases r with err' | ⟨entry, evicted⟩
    · cases h
      unfold Lifecycle.Registry.database at hr
      split at hr
      · obtain rfl := Except.error.inj hr
        nofun
      split at hr
      · cases hr
      split at hr
      · obtain rfl := Except.error.inj hr
        nofun
      · cases hr
    · have hok : Returns (Lifecycle.teardownAll evicted >>= fun _ =>
          (return .ok entry : Lifecycle.LifeM B (Except Err Lifecycle.DatabaseEntry))) tr
          (.error e) := h
      obtain ⟨_, _, _, -, -, hok⟩ := hok.of_bind
      cases hok
  · cases h
    nofun

/-! ### Outcomes -/

section Outcomes

variable {B : Type} (json : ManifestJson B) (cfg : Config) (rjson : Lease.RecordJson)
  (leases : Lease.Manager) (d : Descriptor) (key : String)

/-- A run of an attempt. -/
def Outcome (tr : List (Σ c : Op B, Resp c)) (res : Except Err WriteResult) : Prop :=
  Returns (withWriteAttempt json cfg d key) tr res ∧ ∀ c r, ⟨c, r⟩ ∈ tr → Genuine rjson leases c r

/-- An attempt can fail with this error only because its time has ended. -/
def TimesOut (e : Err) : Prop :=
  ∃ tr, Outcome json cfg rjson leases d key tr (.error e) ∧
    ∀ c r, ⟨c, r⟩ ∈ tr → Expired rjson leases c r

/-- An attempt can fail with this error because its time has ended while it was waiting for the
lease. -/
def WaitsOut (e : Err) : Prop :=
  ∃ tr, Outcome json cfg rjson leases d key tr (.error e) ∧
    ⟨.acquire d.id d.rootPrefix, .error e⟩ ∈ tr ∧
    ∃ ltr, Acquisition rjson leases d.id d.rootPrefix ltr (.error e) ∧
      Lease.endingOf ltr = .waiting e

variable {json cfg rjson leases d key} {tr : List (Σ c : Op B, Resp c)} {e : Err}

/-- An attempt fails to register its database, or to acquire its lease, or when it has the lease. -/
theorem attempt_cases (h : Returns (withWriteAttempt json cfg d key) tr (.error e)) :
    ⟨.database, .error e⟩ ∈ tr ∨ ⟨.acquire d.id d.rootPrefix, .error e⟩ ∈ tr ∨
      ∃ held tr', Returns (attemptWithLease json cfg key held) tr' (.error e) ∧ tr' ⊆ tr := by
  rcases h with _ | @⟨_, _, r, tr, _, h⟩
  rcases r with err | _
  · cases h
    exact .inl mem_cons_self
  have hentry : Returns (attemptWithEntry json cfg d key >>= fun res => do
      ask .releaseDatabase
      return res) tr (.error e) := h
  obtain ⟨pre, res, post, rfl, hpre, hpost⟩ := hentry.of_bind
  obtain rfl : res = .error e := by
    rcases hpost with _ | ⟨hpost⟩
    cases hpost
    rfl
  rcases hpre with _ | @⟨_, _, r, pre, _, hpre⟩
  rcases r with err | held
  · cases hpre
    exact .inr (.inl (mem_cons_of_mem _ mem_cons_self))
  · refine .inr (.inr ⟨held, pre, hpre, fun x hx => ?_⟩)
    exact mem_cons_of_mem _ (mem_cons_of_mem _ (mem_append_left post hx))

/-- Genuine answers lead somewhere, and blame the time of the attempt if all of them do. -/
theorem course_runs {tr : List (Σ c : Op B, Resp c)} (s : Prop)
    (h : ∀ c r, ⟨c, r⟩ ∈ tr → Genuine rjson leases c r) :
    ∃ s', (course rjson leases).Runs s tr s' ∧
      (s → (∀ c r, ⟨c, r⟩ ∈ tr → Expired rjson leases c r) → s') := by
  induction tr generalizing s with
  | nil => exact ⟨s, .nil s, fun hs _ => hs⟩
  | cons x tr ih =>
    obtain ⟨s', hruns, hs'⟩ := ih (s ∧ Expired rjson leases x.1 x.2) fun c r hmem =>
      h c r (mem_cons_of_mem _ hmem)
    refine ⟨s', .cons ⟨h x.1 x.2 mem_cons_self, rfl⟩ hruns, fun hs hexpired => ?_⟩
    exact hs' ⟨hs, hexpired _ _ mem_cons_self⟩ fun c r hmem =>
      hexpired c r (mem_cons_of_mem _ hmem)

theorem withLease_fit {held : Lease.Held}
    (h : Returns (attemptWithLease json cfg key held) tr (.error e))
    (hgenuine : ∀ c r, ⟨c, r⟩ ∈ tr → Genuine rjson leases c r) :
    Fit rjson (∀ c r, ⟨c, r⟩ ∈ tr → Expired rjson leases c r) e := by
  obtain ⟨s', hruns, hs'⟩ := course_runs True hgenuine
  exact (h.runs hruns attemptWithLease_fit e rfl).mono (hs' trivial)

/-- **The error of an attempt carries a class, unless its time ended while it was waiting for the
lease, or a lease record cannot be marshalled.** -/
theorem classified_or_waitsOut (h : Outcome json cfg rjson leases d key tr (.error e)) :
    e.classOf ≠ none ∨ WaitsOut json cfg rjson leases d key e ∨
      ∃ rec, rjson.marshal rec = .error e := by
  rcases attempt_cases h.1 with hmem | hmem | ⟨held, tr', hreturns, hsub⟩
  · obtain ⟨key', ltr, hreg, hltr⟩ := h.2 _ _ hmem
    exact .inl (database_classified hreg hltr)
  · obtain ⟨ltr, hacq⟩ := h.2 _ _ hmem
    obtain ⟨rounds, hreturns⟩ := hacq.1
    have hends := Lease.acquire_ends hreturns
    cases hending : Lease.endingOf ltr with
    | none =>
      rw [hending] at hends
      rcases hends e rfl with hretry | hcorrupt | hmarshal
      · exact .inl (classOf_of_isRetryableWrite hretry)
      · exact .inl (by rw [hcorrupt]; nofun)
      · exact .inr (.inr hmarshal)
    | waiting e' =>
      rw [hending] at hends
      obtain rfl : e = e' := Except.error.inj hends
      exact .inr (.inl ⟨tr, h, hmem, ltr, hacq, hending⟩)
    | elsewhere =>
      rw [hending] at hends
      obtain ⟨_, ⟨⟩, hretry⟩ := hends
      exact .inl (classOf_of_isRetryableWrite hretry)
  · exact (withLease_fit hreturns fun c r hr => h.2 c r (hsub hr)).imp And.left .inr

/-- **An attempt that fails only because its time has ended fails with a retryable error, unless it
was waiting for the lease, or a lease record cannot be marshalled.** -/
theorem retryable_or_waitsOut (h : TimesOut json cfg rjson leases d key e) :
    isRetryableWrite e = true ∨ WaitsOut json cfg rjson leases d key e ∨
      ∃ rec, rjson.marshal rec = .error e := by
  obtain ⟨tr, houtcome, hexpired⟩ := h
  rcases attempt_cases houtcome.1 with hmem | hmem | ⟨held, tr', hreturns, hsub⟩
  · exact absurd (hexpired _ _ hmem) id
  · obtain ⟨ltr, hacq, hended⟩ := hexpired _ _ hmem
    obtain ⟨rounds, hreturns⟩ := hacq.1
    have hends := Lease.acquire_ends hreturns
    cases hending : Lease.endingOf ltr with
    | none => exact absurd hending hended
    | waiting e' =>
      rw [hending] at hends
      obtain rfl : e = e' := Except.error.inj hends
      exact .inr (.inl ⟨tr, houtcome, hmem, ltr, hacq, hending⟩)
    | elsewhere =>
      rw [hending] at hends
      obtain ⟨_, ⟨⟩, hretry⟩ := hends
      exact .inl hretry
  · exact (withLease_fit hreturns fun c r hr => houtcome.2 c r (hsub hr)).imp
      (fun h => h.2 fun c r hr => hexpired c r (hsub hr)) .inr

end Outcomes

/-! ### The loop -/

/-- The calls of a write while its caller's context is live; only positive delays are jittered. -/
def Live : (c : WriteOp) → c.Resp → Prop
  | .ctxErr, some _ => False
  | .wait _, .ctxDone _ => False
  | .jitterDelay delay, jittered => delay ≤ 0 → jittered = delay
  | _, _ => True

/-- The answers that show that the retry budget has no time left. -/
def Exhausted : (c : WriteOp) → c.Resp → Prop
  | .budgetErr, some _ => True
  | .untilBudget, remaining => remaining ≤ 0
  | .wait _, .budgetDone => True
  | .beforeBudget, before => before = false
  | _, _ => False

/-- There is no retry budget, or one of the calls has found no time left in it. -/
def OutOfBudget (p : RetryPolicy) (tr : List (Σ c : WriteOp, c.Resp)) : Prop :=
  p.maxTotal ≤ 0 ∨ ∃ c r, ⟨c, r⟩ ∈ tr ∧ Exhausted c r

section Loop

variable {p : RetryPolicy} {key : String} {retry : ℕ} {err : Err}
  {tr : List (Σ c : WriteOp, c.Resp)}
variable {rounds : ℕ}

/-- What follows a failed attempt: another one, if the error is retryable and the delay is positive;
a classified error, if the budget has ended; or the error of the attempt. -/
inductive After (p : RetryPolicy) (err : Err) : List (Σ c : WriteOp, c.Resp) → Option Err → Prop
  | again {b j rest} (hretry : isRetryableWrite err = true) (hdelay : 0 < p.delay err j) :
      After p err (⟨.ctxErr, none⟩ :: ⟨.budgetErr, none⟩ :: ⟨.jitterDelay b, j⟩ :: rest) none
  | spent {e b} (hclass : e.classOf ≠ none)
      (herr : isRetryableWrite err = true ∨ err.is .deadlineExceeded = true) :
      After p err [⟨.ctxErr, none⟩, ⟨.budgetErr, some b⟩] (some e)
  | undelayed {b j} (hretry : isRetryableWrite err = true) (htotal : 0 < p.maxTotal)
      (hdelay : p.delay err j ≤ 0) :
      After p err [⟨.ctxErr, none⟩, ⟨.budgetErr, none⟩, ⟨.jitterDelay b, j⟩] (some err)
  | final {tr : List (Σ c : WriteOp, c.Resp)}
      (hout : isRetryableWrite err = true → OutOfBudget p tr)
      (hunspent : isRetryableWrite err = false → err.is .deadlineExceeded = true →
        ∀ b, ⟨.budgetErr, some b⟩ ∉ tr)
      (hdrawn : ∀ b j rest, tr = ⟨.ctxErr, none⟩ :: ⟨.budgetErr, none⟩ :: ⟨.jitterDelay b, j⟩ ::
        rest → 0 < p.delay err j) : After p err tr (some err)

variable {res : Option (Except Err WriteResult)}

/-- What follows a failed attempt of a write that returns `res`: the loop stops with an error of the
class that is returned, or it goes on, to another attempt unless it is cut off. -/
inductive Followed (p : RetryPolicy) (key : String) (res : Option (Except Err WriteResult))
    (err : Err) : List (Σ c : WriteOp, c.Resp) → Prop
  | stops {post e e'} (h : After p err post (some e)) (hlast : ∀ r, ⟨.attempt key, r⟩ ∉ post)
      (hres : res = some (.error e')) (hclass : e'.classOf = e.classOf) :
      Followed p key res err post
  | again {mid post} (h : After p err mid none)
      (hnext : (∃ r, ⟨.attempt key, r⟩ ∈ post) ∨ res = none) : Followed p key res err (mid ++ post)

end Loop

/-! ### Writes -/

section Writes

variable {B : Type} (json : ManifestJson B) (cfg : Config) (rjson : Lease.RecordJson)
  (leases : Lease.Manager) (d : Descriptor) (key : String) (p : RetryPolicy)
  (tr : List (Σ c : WriteOp, c.Resp)) (res : Option (Except Err WriteResult))

/-- An attempt that fails only because its time has ended is followed by another one while the
retry budget has time left, no attempt follows an error of a class that is not retryable, and every
error that is returned carries a class. A run without a result is one that still retries. -/
structure Kept : Prop where
  retried : ∀ e post, ⟨.attempt key, .error e⟩ :: post <:+ tr →
    TimesOut json cfg rjson leases d key e →
      (∃ r, ⟨.attempt key, r⟩ ∈ post) ∨ res = none ∨ OutOfBudget p post
  terminal : ∀ e post r, ⟨.attempt key, .error e⟩ :: post <:+ tr →
    ⟨.attempt key, r⟩ ∈ post → isRetryableWrite e = true
  classified : ∀ e, res = some (.error e) → e.classOf ≠ none

/-- Whenever the time of an attempt has ended while it was waiting for the lease, the retry budget
has ended too; no attempt fails because a lease record cannot be marshalled; and the delay after an
attempt that fails only because its time has ended is positive, where one is needed. -/
structure Provided : Prop where
  waits : ∀ e post, ⟨.attempt key, .error e⟩ :: post <:+ tr →
    WaitsOut json cfg rjson leases d key e → ∃ b, ⟨.budgetErr, some b⟩ ∈ post
  marshals : ∀ e post, ⟨.attempt key, .error e⟩ :: post <:+ tr → ∀ rec, rjson.marshal rec ≠ .error e
  delays : ∀ e b j rest, ⟨.attempt key, .error e⟩ :: ⟨.ctxErr, none⟩ :: ⟨.budgetErr, none⟩ ::
      ⟨.jitterDelay b, j⟩ :: rest <:+ tr →
    TimesOut json cfg rjson leases d key e → 0 < p.delay e j

variable {json cfg rjson leases d key p tr res}

theorem WaitsOut.eq {e : Err} (h : WaitsOut json cfg rjson leases d key e) :
    e = .deadlineExceeded := by
  obtain ⟨-, -, -, ltr, hacq, hending⟩ := h
  exact hacq.2 e hending

section Stops

variable {err e : Err} {mid : List (Σ c : WriteOp, c.Resp)} (h : After p err mid (some e))
  (hprovided : Provided json cfg rjson leases d key p tr)
  (hsuffix : ⟨.attempt key, .error err⟩ :: mid <:+ tr)
include h hprovided hsuffix

/-- The error after which a loop stops carries a class. -/
theorem After.classified (herr : err.classOf ≠ none ∨ WaitsOut json cfg rjson leases d key err ∨
      ∃ rec, rjson.marshal rec = .error err) : e.classOf ≠ none := by
  cases h with
  | spent hclass => exact hclass
  | undelayed hretry => exact classOf_of_isRetryableWrite hretry
  | final hout hunspent =>
    rcases herr with hclass | hwaits | ⟨rec, hmarshal⟩
    · exact hclass
    · obtain ⟨b, hb⟩ := hprovided.waits _ _ hsuffix hwaits
      obtain rfl := hwaits.eq
      exact absurd hb (hunspent rfl rfl b)
    · exact absurd hmarshal (hprovided.marshals _ _ hsuffix rec)

/-- If a loop stops after an attempt that has timed out, then the budget has ended. -/
theorem After.outOfBudget (herr : TimesOut json cfg rjson leases d key err) :
    OutOfBudget p mid := by
  have hmem {b : Err} (hb : ⟨.budgetErr, some b⟩ ∈ mid) : OutOfBudget p mid :=
    .inr ⟨.budgetErr, some b, hb, trivial⟩
  rcases retryable_or_waitsOut herr with hretry | hwaits | ⟨rec, hmarshal⟩
  · cases h with
    | spent => exact hmem (mem_cons_of_mem _ mem_cons_self)
    | undelayed _ _ hdelay =>
      have hpos := hprovided.delays _ _ _ _ hsuffix herr
      omega
    | final hout => exact hout hretry
  · obtain ⟨b, hb⟩ := hprovided.waits _ _ hsuffix hwaits
    exact hmem hb
  · exact absurd hmarshal (hprovided.marshals _ _ hsuffix rec)

end Stops

/-- An error without a class that is not retryable is replaced only when the budget has ended. -/
theorem Followed.spent {err : Err} {post : List (Σ c : WriteOp, c.Resp)}
    (h : Followed p key res err post) (hclassified : ∀ e, res = some (.error e) → e.classOf ≠ none)
    (hretry : isRetryableWrite err = false) (hnone : err.classOf = none) :
    err.is .deadlineExceeded = true ∧ ∃ b, ⟨.budgetErr, some b⟩ ∈ post := by
  cases h with
  | stops hafter _ hres hclass =>
    cases hafter with
    | spent _ herr =>
      exact ⟨herr.resolve_left (by simp [hretry]), _, mem_cons_of_mem _ mem_cons_self⟩
    | undelayed hretry' => cases hretry.symm.trans hretry'
    | final => exact absurd (hclass.trans hnone) (hclassified _ hres)
  | again hafter =>
    cases hafter with
    | again hretry' => cases hretry.symm.trans hretry'

section Followed

variable (hfollowed : ∀ e post, ⟨.attempt key, .error e⟩ :: post <:+ tr → Followed p key res e post)
include hfollowed

theorem Provided.kept (h : Provided json cfg rjson leases d key p tr)
    (hattempts : ∀ r, ⟨.attempt key, r⟩ ∈ tr → ∃ atr, Outcome json cfg rjson leases d key atr r)
    (hlast : ∀ e', res = some (.error e') → e'.classOf ≠ none ∨ ∃ err post e,
      ⟨.attempt key, .error err⟩ :: post <:+ tr ∧ After p err post (some e) ∧
        e'.classOf = e.classOf) : Kept json cfg rjson leases d key p tr res := by
  refine ⟨fun e post hsuffix htimes => ?_, fun e post r hsuffix hr => ?_, fun e' he' => ?_⟩
  · cases hfollowed e post hsuffix with
    | stops hafter => exact .inr (.inr (hafter.outOfBudget h hsuffix htimes))
    | again _ hnext => exact hnext.imp (fun ⟨r, hr⟩ => ⟨r, mem_append_right _ hr⟩) .inl
  · cases hfollowed e post hsuffix with
    | stops _ hpost => exact absurd hr (hpost r)
    | again hafter =>
      cases hafter with
      | again hretry => exact hretry
  · rcases hlast e' he' with hclass | ⟨err, post, e, hsuffix, hafter, hclass⟩
    · exact hclass
    obtain ⟨atr, houtcome⟩ := hattempts _ (hsuffix.subset mem_cons_self)
    rw [hclass]
    exact hafter.classified h hsuffix (classified_or_waitsOut houtcome)

end Followed

end Writes

/-! ### An attempt that waits too long -/

namespace Stalled

/-- A configuration whose attempts end before an acquisition gives up by itself. -/
def config : Config := { defaultConfig with requestTimeout := second }

/-- The manager of the write leases. -/
def leases : Lease.Manager := Lease.newManager "a" config.lease none

/-- The database. -/
def descriptor : Descriptor := ⟨⟨"db"⟩, ""⟩

/-- The record of a lease that another process holds. -/
def record : Lease.Record := ⟨1, "db", .held, "b", "1", 1, 10⟩

/-- The answers in an acquisition that finds the store as given, and waits until the time of its
attempt has ended. -/
def leaseAnswer (stored : Except Lease.StoreErr (Bytes × Lease.Token)) :
    (c : Lease.Op) → Lease.Resp c
  | .get _ => stored
  | .wait _ _ => .ctxDone .deadlineExceeded
  | .now => (0 : ℤ)
  | .newID => ""
  | .createIfAbsent _ _ | .replaceIfToken _ _ _ => .error .conflict
  | .newHeld _ key _ maxExpiry => ⟨0, key, maxExpiry⟩
  | .snapshot _ => (record, "")
  | .awaitStopOrTick _ _ | .isStopped _ | .overBudget _ => false
  | .enterFlight _ | .waitChannel _ => (0 : ℕ)
  | .ctxErr | .randInt _ => none
  | .setRenewed _ _ _ | .markLost _ | .closeStop _ | .awaitDone _ | .closeDone _ | .lockFlight _
  | .unlockFlight _ | .leaveFlight _ _ | .notifyWaiters _ => ()

/-- The result of an acquisition, and its trace. -/
def acquisition (stored : Except Lease.StoreErr (Bytes × Lease.Token)) :
    List (Σ c : Lease.Op, Lease.Resp c) × Except Err Lease.Held :=
  (Lease.acquire .plain leases 1 ⟨"db"⟩ [""]).runWith (leaseAnswer stored)

end Stalled

end Walrusd.Runtime
