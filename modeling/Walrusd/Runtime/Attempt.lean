import Walrusd.Program.Script
import Walrusd.Runtime.Write

/-!
# What a write attempt has passed when it returns

A write attempt has about twenty exits. A ledger watches its answered calls, and two statements are
read off it for every assignment of answers: what an attempt that reports success has passed, and
how every attempt that acquired the lease resolved it.

Two successful exits fall short of the first. A recorded result that is not a TXID is returned
without a look at the manifest. And when a repair of a lagging manifest lists no file, its result
is the nil slice: the session is opened on a listing instead of the manifest, captures nothing, and
the attempt stores an empty manifest after its flush. `Ledger.Regular` excludes both.

Answers are arbitrary but for one: what the session reports as its captured file list is the list
it was opened on and the file `info` that its flush wrote.

## Main definitions

* `Ledger`, `Ledger.step`, `ledger`.
* `Ledger.Sound`, `Ledger.Regular`.

## Main results

* `acknowledged_sound_iff`.
* `lease_resolved`.
-/

namespace Walrusd.Runtime

open Program Litestream Option

/-- A call that stops the renewal of a lease. -/
inductive Resolution
  | released (held : Lease.Held) (err : Option Err)
  | abandoned (held : Lease.Held)
  deriving DecidableEq

/-- The lease that a resolution stops. -/
def Resolution.held : Resolution → Lease.Held
  | .released held _ | .abandoned held => held

/-- A SQLite transaction: the results of the callbacks in it, the last one first, and the key and
the TXID that it records. -/
structure Transaction where
  callbacks : List (Option Err) := []
  recorded : Option (String × String) := none
  deriving DecidableEq

/-- What an attempt has been answered so far. -/
structure Ledger (B : Type) where
  /-- The acquired lease. -/
  held : Option Lease.Held := none
  /-- The calls of `Release` and `Abandon`, the last one first. -/
  resolutions : List Resolution := []
  /-- Whether there was a manifest when it was first read. -/
  manifest : Option Bool := none
  /-- The manifest as it was read last. -/
  seen : Option (List FileInfo) := none
  /-- The number of levels that the last rebuild has listed. -/
  levels : ℕ := 0
  /-- The files that the last rebuild has listed. -/
  listed : List FileInfo := []
  /-- The files that a rebuild before the session was opened has listed. -/
  repair : Option (List FileInfo) := none
  /-- The open session. -/
  session : Option Sess := none
  /-- The client of the session, if it was opened on a file list. -/
  client : Option ManifestClient := none
  /-- The recorded result of the key. -/
  found : Option String := none
  /-- The open transaction. -/
  transaction : Option Transaction := none
  /-- The results of all callbacks, the last one first. -/
  callbacks : List (Option Err) := []
  /-- COMMIT was attempted. -/
  committing : Bool := false
  /-- The committed transaction. -/
  committed : Option Transaction := none
  /-- The session has been flushed. -/
  flushed : Bool := false
  /-- The lease was observed lost at the last check. -/
  lost : Bool := false
  /-- The time of the last check. -/
  time : Option ℤ := none
  /-- The last check since the flush found the lease not stale. -/
  fresh : Bool := false
  /-- The TXID that the session reported after its flush. -/
  observed : Option String := none
  /-- The manifest that was stored since the lookup or the flush. -/
  stored : Option B := none

namespace Ledger

variable {B : Type} (json : ManifestJson B) (cfg : Config) (info : FileInfo) (s : Ledger B)

/-- The files that a rebuild of all levels has listed. -/
def rebuilt : Option (List FileInfo) :=
  if s.levels = snapshotLevel + 1 then some s.listed else none

/-- The ledger after an answer. -/
def step : (c : Op B) → Resp c → Ledger B
  | .acquire _ _, .ok held => { s with held := some held }
  | .release held _, err => { s with resolutions := .released held err :: s.resolutions }
  | .abandon held, _ => { s with resolutions := .abandoned held :: s.resolutions }
  | .manifestGet, r =>
    { s with
      manifest := s.manifest.or ((shownManifest json r).map Option.isSome)
      seen := (shownManifest json r).join }
  | .manifestPut data, none => { s with stored := some data }
  | .ltxFiles .build level, .ok found =>
    if level = 0 then { s with levels := 1, listed := found }
    else { s with levels := level + 1, listed := s.listed ++ found }
  | .openWrite files, .ok h =>
    { s with session := some h, client := files.map .new, repair := s.rebuilt }
  | .closeSession _, _ => { s with session := none }
  | .beginImmediate _, none => { s with transaction := some {} }
  | .rollback _, _ => { s with transaction := none }
  | .selectTXID _ _, .ok (some text) =>
    { s with
      found := if text = "" then none else some text
      levels := 0, listed := [], seen := none, stored := none }
  | .callback _, r =>
    { s with
      callbacks := r :: s.callbacks
      transaction := s.transaction.map fun tx => { tx with callbacks := r :: tx.callbacks } }
  | .insertKey _ key text, none =>
    { s with
      transaction := s.transaction.map fun tx => { tx with recorded := some (key, text) } }
  | .commit _, none =>
    { s with committing := true, committed := s.transaction, transaction := none }
  | .commit _, some _ => { s with committing := true }
  | .setWriteDisabled _, none =>
    { s with
      flushed := true, client := s.client.map (·.recordWrite info), fresh := false,
      observed := none, stored := none }
  | .lost _, lost => { s with lost, time := none, fresh := false }
  | .now, time => { s with time := some time }
  | .expiresAt _, expiresAt =>
    { s with fresh := !s.lost && s.time.any (· < expiresAt - cfg.lease.clockSkewAllowance) }
  | .txid _, .ok text => { s with observed := some text }
  | _, _ => s

/-- After COMMIT was attempted, everything was confirmed: the flush, a check of the lease and the
TXID after it, and the stored manifest if there was one at the start. -/
def Confirmed : Prop :=
  s.flushed = true ∧ s.fresh = true ∧
    (∃ tx key text, s.committed = some tx ∧ tx.recorded = some (key, text) ∧
      s.observed = some text) ∧
    (s.manifest = some true → s.stored.isSome)

/-- What an attempt may call: it resolves its lease once and with its session closed, and releases
it after a COMMIT only when everything was confirmed; it uses its open session only, and a rebuild
lists the levels in order. -/
def Allows : Op B → Prop
  | .release held _ => s.held = some held ∧ s.resolutions = [] ∧ s.session = none ∧
    (s.committing = true → s.Confirmed)
  | .abandon held => s.held = some held ∧ s.resolutions = [] ∧ s.session = none
  | .ltxFiles .build level => level = 0 ∨ level = s.levels
  | .openWrite _ => s.session = none
  | .beginImmediate h | .execSchema h | .selectTXID h _ | .callback h | .pos h | .insertKey h _ _
  | .commit h | .rollback h | .setWriteDisabled h | .txid h | .manifestFiles h | .closeSession h =>
    s.session = some h
  | _ => True

/-- The captured file list is that of the session's client. -/
def lawful : (c : Op B) → Resp c → Bool
  | .manifestFiles _, captured => captured = s.client.map ManifestClient.files
  | _, _ => true

/-- The stored manifest lists the file `k`. -/
def Lists (k : FileKey) : Prop :=
  ∃ data files, s.stored = some data ∧ encodeManifest json files = .ok data ∧ HasKey files k

/-- The manifest, read since the lookup, covers the TXID `t`. -/
def Covered (t : ℕ) : Prop := ∃ files, s.seen = some files ∧ manifestHasTXID files t = true

/-- The manifest was rebuilt from a listing of all levels and stored since the lookup. -/
def Repaired : Prop :=
  s.levels = snapshotLevel + 1 ∧
    ∃ data, s.stored = some data ∧ encodeManifest json s.listed = .ok data

/-- The lookup found a recorded result, no callback ran, and if there was a manifest then it covers
the result or was repaired. -/
def Deduplicated (res : WriteResult) : Prop :=
  ∃ text, s.found = some text ∧ res = ⟨text, true⟩ ∧ s.callbacks = [] ∧
    (s.manifest = some true → (∃ t, parseTXID text = some t ∧ s.Covered t) ∨ s.Repaired json)

/-- The callback ran once and returned nil, the result was recorded in the same transaction, which
was committed and flushed, the session reported the recorded TXID, and if there was a manifest then
one that lists the new file was stored. -/
def Fresh (key : String) (res : WriteResult) : Prop :=
  s.found = none ∧ ∃ text, res = ⟨text, false⟩ ∧ s.callbacks = [none] ∧
    s.committed = some ⟨[none], some (key, text)⟩ ∧ s.flushed = true ∧ s.observed = some text ∧
    (s.manifest = some true → s.Lists json info.key)

/-- What a successful attempt should have passed. -/
def Sound (key : String) (res : WriteResult) : Prop :=
  (∃ held, s.held = some held ∧ s.resolutions = [.released held none]) ∧
    (s.Deduplicated json res ∨ s.Fresh json info key res)

/-- With a manifest, a recorded result is a TXID, and a repair lists some file. -/
def Regular : Prop :=
  s.manifest = some true → match s.found with
    | some text => (parseTXID text).isSome = true
    | none => s.repair ≠ some []

end Ledger

/-- The lease, if it was acquired, was resolved once; a success is sound if and only if the attempt
was regular. -/
def Ledger.Closes {B : Type} (json : ManifestJson B) (info : FileInfo) (key : String)
    (s : Ledger B) (res : Except Err WriteResult) : Prop :=
  (∀ held, s.held = some held → ∃ x, s.resolutions = [x] ∧ x.held = held) ∧
    ∀ r, res = .ok r → (s.Sound json info key r ↔ s.Regular)

/-- The protocol of a write attempt. -/
def ledger {B : Type} (json : ManifestJson B) (cfg : Config) (info : FileInfo) :
    Protocol (Op B) Resp (Ledger B) where
  allow := Ledger.Allows
  next s c r s' := s.lawful c r = true ∧ s' = s.step json cfg info c r

instance {B : Type} (json : ManifestJson B) (cfg : Config) (info : FileInfo) :
    (ledger json cfg info).Steps fun s => s.step json cfg info := ⟨And.right⟩

/-- The program keeps the ledger up to the end of the attempt. -/
abbrev Resolves {B : Type} (json : ManifestJson B) (cfg : Config) (info : FileInfo) (key : String)
    (p : RuntimeM B (Except Err WriteResult)) (s : Ledger B) : Prop :=
  p.Obeys (ledger json cfg info) (Ledger.Closes json info key) s

section Stages

variable {B : Type} {json : ManifestJson B} {cfg : Config} {info : FileInfo} {d : Descriptor}
  {key : String} {held : Lease.Held} {h : Sess} {s : Ledger B} {files : List FileInfo}
  {manifest : Option Slice}

/-! ### Methods -/

theorem ledger_keeps {k : Kind} (hk : k = .registry ∨ k = .queue) (c : Op B) (hc : c.kind = k) :
    (ledger json cfg info).allow s c ∧
      ∀ r s', (ledger json cfg info).next s c r s' → s' = s := by
  subst hc
  cases c with
  | database | releaseDatabase | loadOrStorePending | sendJob | deletePending | addPass =>
    exact ⟨trivial, fun r s' hnext => hnext.2⟩
  | _ => rcases hk with hk | hk <;> cases hk

theorem leaseStale_ledger :
    (leaseStale cfg held : RuntimeM B _).Obeys (ledger json cfg info) (fun s' stale =>
      ∃ lost time fresh, s' = { s with lost, time, fresh } ∧ (stale = false → fresh = true)) s := by
  refine .does trivial fun lost => ?_
  cases lost with
  | true => exact ⟨true, none, false, rfl, nofun⟩
  | false =>
    refine .does trivial fun now => ?_
    refine .does trivial fun expiresAt => ?_
    refine ⟨false, some now, _, rfl, fun hstale => ?_⟩
    simpa [Ledger.step] using hstale

theorem readManifest_ledger :
    (readManifest json).Obeys (ledger json cfg info) (fun s' res => ∃ shown,
      s' = { s with manifest := s.manifest.or (shown.map Option.isSome), seen := shown.join } ∧
        ∀ m, res = .ok m → shown = some m) s := by
  refine .does trivial fun r => ?_
  rcases r with e | data
  · by_cases hfound : e.is .manifestNotFound = true
    · simp only [if_pos hfound]
      refine ⟨_, rfl, ?_⟩
      rintro m ⟨rfl⟩
      exact if_pos hfound
    · simp only [if_neg hfound]
      exact ⟨_, rfl, nofun⟩
  · cases hdecode : decodeManifest json data with
    | error e =>
      simp only [hdecode]
      exact ⟨_, rfl, nofun⟩
    | ok files =>
      simp only [hdecode]
      refine ⟨_, rfl, ?_⟩
      rintro m ⟨rfl⟩
      simp [shownManifest, hdecode]

theorem writeManifest_ledger :
    (writeManifest json files).Obeys (ledger json cfg info) (fun s' r =>
      (r = none → ∃ data, encodeManifest json files = .ok data ∧
        s' = { s with stored := some data }) ∧ (r ≠ none → s' = s)) s := by
  unfold writeManifest
  split
  · exact ⟨nofun, fun _ => rfl⟩
  · next data hdata =>
    refine Prog.obeys_perform.mpr ⟨trivial, ?_⟩
    rintro (_ | e) _ ⟨-, rfl⟩
    · exact ⟨fun _ => ⟨data, hdata, rfl⟩, fun hr => absurd rfl hr⟩
    · exact ⟨nofun, fun _ => rfl⟩

theorem rebuildManifest_ledger :
    (rebuildManifest : RuntimeM B _).Obeys (ledger json cfg info) (fun s' res =>
      (∃ levels listed, s' = { s with levels, listed }) ∧ ∀ all, res = .ok all →
        s'.levels = snapshotLevel + 1 ∧ s'.listed = all) s := by
  refine rebuildManifest_obeys (fun level files s' => (∃ levels listed,
    s' = { s with levels, listed }) ∧ (level = 0 ∧ files = [] ∨
      level ≠ 0 ∧ s'.levels = level ∧ s'.listed = files)) ?_ ?_ ?_ ?_ ?_
  · exact ⟨⟨_, _, rfl⟩, .inl ⟨rfl, rfl⟩⟩
  · rintro level files s' ⟨-, hcase⟩
    exact hcase.imp And.left fun hcase => hcase.2.1.symm
  · rintro level files _ e _ ⟨⟨levels, listed, rfl⟩, -⟩ ⟨-, rfl⟩
    exact ⟨⟨_, _, rfl⟩, nofun⟩
  · rintro level files _ found _ ⟨⟨levels, listed, rfl⟩, ⟨rfl, rfl⟩ | ⟨hne, rfl, rfl⟩⟩ ⟨-, rfl⟩
    · exact ⟨⟨_, _, rfl⟩, .inr ⟨one_ne_zero, rfl, rfl⟩⟩
    · rw [Ledger.step, if_neg hne]
      exact ⟨⟨_, _, rfl⟩, .inr ⟨Nat.succ_ne_zero _, rfl, rfl⟩⟩
  · rintro files s' ⟨hs', hcase⟩
    refine ⟨hs', fun all hall => ?_⟩
    cases hall
    exact (hcase.resolve_left fun hzero => Nat.succ_ne_zero _ hzero.1).2

/-! ### Ways to fail -/

/-- The attempt holds the lease and has not resolved it; `session` is its open session. -/
structure Ledger.Holding (s : Ledger B) (held : Lease.Held) (session : Option Sess) : Prop where
  held : s.held = some held
  unresolved : s.resolutions = []
  session : s.session = session

theorem Ledger.Holding.close {session : Option Sess} (hs : s.Holding held session) :
    ({ s with session := none } : Ledger B).Holding held none := ⟨hs.held, hs.unresolved, rfl⟩

theorem Ledger.closes_error {x : Resolution} (hheld : s.held = some held)
    (hres : s.resolutions = [x]) (hx : x.held = held) (e : Err) :
    Ledger.Closes json info key s (.error e) := by
  refine ⟨fun held' hheld' => ⟨x, hres, ?_⟩, nofun⟩
  rw [hx, some.inj (hheld.symm.trans hheld')]

theorem failWithLease_ledger (hs : s.Holding held none) (hcommit : s.committing = false)
    (cause : Err) : Resolves json cfg info key (failWithLease held cause) s := by
  refine .perform ⟨hs.held, hs.unresolved, hs.session, fun hc => ?_⟩ ?_
  · rw [hcommit] at hc
    cases hc
  rintro err _ ⟨-, rfl⟩
  refine Ledger.closes_error (x := .released held err) ?_ ?_ rfl cause
  · exact hs.held
  · exact congrArg (_ :: ·) hs.unresolved

theorem Ledger.Holding.closes_abandoned (hs : s.Holding held none) (e : Err) :
    Ledger.Closes json info key { s with resolutions := .abandoned held :: s.resolutions }
      (.error e) := by
  refine Ledger.closes_error (x := .abandoned held) ?_ ?_ rfl e
  · exact hs.held
  · exact congrArg (_ :: ·) hs.unresolved

theorem flushFailure_ledger (hs : s.Holding held none) (cause : Err) :
    Resolves json cfg info key (flushFailure held cause) s := by
  refine .does ⟨hs.held, hs.unresolved, hs.session⟩ fun _ => ?_
  split <;> exact hs.closes_abandoned _

theorem closeAndFail_ledger (hs : s.Holding held (some h)) (cause : Err) :
    Resolves json cfg info key (closeAndFail held h cause) s := by
  refine .does hs.session fun _ => ?_
  exact flushFailure_ledger hs.close cause

theorem closeAndAbandon_ledger (hs : s.Holding held (some h)) (cause : Err) :
    Resolves json cfg info key (closeAndAbandon held h cause) s := by
  refine .does hs.session fun _ => ?_
  refine .does ⟨hs.held, hs.unresolved, rfl⟩ fun _ => ?_
  exact hs.close.closes_abandoned cause

theorem failTransaction_ledger (hs : s.Holding held (some h)) (hcommit : s.committing = false)
    (cause : Err) : Resolves json cfg info key (failTransaction held h cause) s := by
  refine .does hs.session fun _ => ?_
  refine .does hs.session fun _ => ?_
  exact failWithLease_ledger (s := { s with transaction := none, session := none })
    ⟨hs.held, hs.unresolved, rfl⟩ hcommit cause

/-! ### From the flush on -/

/-- The attempt has planned on the files `manifest`. -/
structure Ledger.Planned (s : Ledger B) (manifest : Option Slice) : Prop where
  existed : s.manifest = some manifest.isSome
  repair : manifest.isSome = true → (s.repair = some [] ↔ manifest = some none)

/-- The transaction that records `next` was committed and flushed. -/
structure Ledger.Flushed (info : FileInfo) (key next : String) (manifest : Option Slice)
    (s : Ledger B) : Prop extends s.Planned manifest where
  found : s.found = none
  callbacks : s.callbacks = [none]
  committing : s.committing = true
  committed : s.committed = some ⟨[none], some (key, next)⟩
  flushed : s.flushed = true
  client : s.client = manifest.join.map fun files => (ManifestClient.new files).recordWrite info

variable {next : String}

theorem Ledger.Flushed.sound_iff (hs : s.Flushed info key next manifest)
    (hobserved : s.observed = some next) (hheld : s.held = some held)
    (hres : s.resolutions = [.released held none])
    (hlists : s.manifest = some true → (s.Lists json info.key ↔ s.repair ≠ some [])) :
    s.Sound json info key ⟨next, false⟩ ↔ s.Regular := by
  have hregular : s.Regular ↔ (s.manifest = some true → s.repair ≠ some []) := by
    rw [Ledger.Regular, hs.found]
  rw [hregular]
  constructor
  · rintro ⟨-, ⟨text, hfound, -⟩ | ⟨-, text, -, -, -, -, -, hstored⟩⟩ hmanifest
    · rw [hs.found] at hfound
      cases hfound
    · exact (hlists hmanifest).mp (hstored hmanifest)
  · intro hrepair
    refine ⟨⟨held, hheld, hres⟩, .inr ⟨hs.found, next, rfl, hs.callbacks, hs.committed,
      hs.flushed, hobserved, fun hmanifest => ?_⟩⟩
    exact (hlists hmanifest).mpr (hrepair hmanifest)

section

variable (hs : s.Holding held (some h)) (hf : s.Flushed info key next manifest)
include hs hf

theorem acknowledge_ledger (hfresh : s.fresh = true) (hobserved : s.observed = some next)
    (hstored : s.manifest = some true → s.stored.isSome)
    (hlists : s.manifest = some true → (s.Lists json info.key ↔ s.repair ≠ some [])) :
    Resolves json cfg info key (acknowledge cfg held h next files) s := by
  refine .does trivial fun _ => ?_
  refine .does hs.session fun _ => ?_
  refine .perform ⟨hs.held, hs.unresolved, rfl, fun _ => ⟨hf.flushed, hfresh,
    ⟨_, key, next, hf.committed, rfl, hobserved⟩, hstored⟩⟩ ?_
  rintro err _ ⟨-, rfl⟩
  have hres : .released held err :: s.resolutions = [.released held err] :=
    congrArg (_ :: ·) hs.unresolved
  cases err with
  | none =>
    refine (enqueueCompaction_only files).bind_obeys (ledger_keeps (by simp)) fun _ => ?_
    refine ⟨fun held' hheld' => ⟨_, hres, some.inj (hs.held.symm.trans hheld')⟩, ?_⟩
    rintro r ⟨rfl⟩
    refine Ledger.Flushed.sound_iff (?_ : Ledger.Flushed info key next manifest _) hobserved hs.held
      hres hlists
    exact ⟨⟨hf.existed, hf.repair⟩, hf.found, hf.callbacks, hf.committing, hf.committed, hf.flushed,
      hf.client⟩
  | some e =>
    refine Ledger.closes_error (x := .released held (some e)) ?_ hres rfl e
    exact hs.held

theorem publish_ledger (hfresh : s.fresh = true) (hobserved : s.observed = some next) :
    Resolves json cfg info key (publish json cfg held manifest h next) s := by
  cases manifest with
  | none =>
    have hack (levels : ℕ) (listed all : List FileInfo) (stored : Option B) :
        Resolves json cfg info key (acknowledge cfg held h next all)
          { s with levels, listed, stored } := by
      have hmanifest : s.manifest ≠ some true := by simp [hf.existed]
      have hf' : ({ s with levels, listed, stored } : Ledger B).Flushed info key next none :=
        ⟨⟨hf.existed, hf.repair⟩, hf.found, hf.callbacks, hf.committing, hf.committed, hf.flushed,
          hf.client⟩
      exact acknowledge_ledger (s := { s with levels, listed, stored })
        ⟨hs.held, hs.unresolved, hs.session⟩ hf' hfresh hobserved
        (fun hm => absurd hm hmanifest) fun hm => absurd hm hmanifest
    refine rebuildManifest_ledger.bind ?_
    rintro _ (e | all) ⟨⟨levels, listed, rfl⟩, -⟩
    · exact hack levels listed [] s.stored
    refine writeManifest_ledger.bind ?_
    rintro s' (_ | e) ⟨hstored, hfailed⟩
    · obtain ⟨data, -, rfl⟩ := hstored rfl
      exact hack levels listed all (some data)
    · rw [hfailed nofun]
      exact hack levels listed [] s.stored
  | some slice =>
    refine .perform hs.session ?_
    rintro captured s ⟨hlawful, rfl⟩
    obtain rfl : captured = s.client.map ManifestClient.files := of_decide_eq_true hlawful
    refine writeManifest_ledger.bind ?_
    rintro s' (_ | e) ⟨hstored, hfailed⟩
    · obtain ⟨data, hdata, rfl⟩ := hstored rfl
      have hf' : ({ s with stored := some data } : Ledger B).Flushed info key next (some slice) :=
        ⟨⟨hf.existed, hf.repair⟩, hf.found, hf.callbacks, hf.committing, hf.committed, hf.flushed,
          hf.client⟩
      refine acknowledge_ledger (s := { s with stored := some data })
        ⟨hs.held, hs.unresolved, hs.session⟩ hf' hfresh hobserved (fun _ => rfl) fun _ => ?_
      rw [hf.client] at hdata
      have hrepair := hf.repair rfl
      cases slice with
      | none =>
        -- the session captured nothing, so the stored manifest is empty
        refine iff_of_false ?_ (fun hne => hne (hrepair.mpr rfl))
        rintro ⟨data', all, hdata', hall, hkey⟩
        obtain rfl : data = data' := some.inj hdata'
        exact not_hasKey_nil (hasKey_of_encodeManifest json hall hdata hkey)
      | some plan =>
        refine iff_of_true ⟨data, _, rfl, hdata, ?_⟩ fun heq => nomatch hrepair.mp heq
        exact ManifestClient.hasKey_recordWrite.mpr (.inr rfl)
    · rw [hfailed nofun]
      exact closeAndFail_ledger hs _

theorem confirmFlush_ledger :
    Resolves json cfg info key (confirmFlush json cfg held manifest h next) s := by
  refine leaseStale_ledger.bind ?_
  rintro _ stale ⟨lost, time, fresh, rfl, hfresh⟩
  have hs' : ({ s with lost, time, fresh } : Ledger B).Holding held (some h) :=
    ⟨hs.held, hs.unresolved, hs.session⟩
  cases stale with
  | true => exact closeAndAbandon_ledger hs' _
  | false =>
    rw [sessionTXID, Prog.bind_assoc]
    refine .does hs.session ?_
    rintro (e | txid)
    · exact closeAndAbandon_ledger hs' _
    have hs'' : ({ s with lost, time, fresh, observed := some txid } : Ledger B).Holding held
        (some h) := ⟨hs.held, hs.unresolved, hs.session⟩
    simp only [Prog.pure_eq_done, Prog.done_bind]
    split
    · exact closeAndAbandon_ledger hs'' _
    · next heq =>
      rw [not_not.mp heq]
      exact publish_ledger (s := { s with lost, time, fresh, observed := some next })
        ⟨hs.held, hs.unresolved, hs.session⟩ ⟨⟨hf.existed, hf.repair⟩, hf.found, hf.callbacks,
          hf.committing, hf.committed, hf.flushed, hf.client⟩ (hfresh rfl) rfl

end

/-! ### Up to the flush -/

/-- The session is open and has not been flushed. -/
structure Ledger.Opened (callbacks : List (Option Err)) (manifest : Option Slice) (s : Ledger B) :
    Prop extends s.Planned manifest where
  found : s.found = none
  callbacks : s.callbacks = callbacks
  client : s.client = manifest.join.map .new

theorem flush_ledger (hs : s.Holding held (some h)) (ho : s.Opened [none] manifest)
    (hcommitting : s.committing = true)
    (hcommitted : s.committed = some ⟨[none], some (key, next)⟩) :
    Resolves json cfg info key (flush json cfg held manifest h next) s := by
  have hclient : s.client.map (·.recordWrite info) =
      manifest.join.map fun files => (ManifestClient.new files).recordWrite info := by
    rw [ho.client, Option.map_map]
    rfl
  rw [flush, disableWrite, Prog.bind_assoc]
  refine .does hs.session ?_
  rintro (_ | e)
  · refine confirmFlush_ledger ?_ ?_
    · exact ⟨hs.held, hs.unresolved, hs.session⟩
    · exact ⟨⟨ho.existed, ho.repair⟩, ho.found, ho.callbacks, hcommitting, hcommitted, rfl, hclient⟩
  · exact closeAndFail_ledger hs _

theorem commitAndFlush_ledger (hs : s.Holding held (some h)) (ho : s.Opened [none] manifest)
    (htx : s.transaction = some ⟨[none], some (key, next)⟩) :
    Resolves json cfg info key (commitAndFlush json cfg held manifest h next) s := by
  refine leaseStale_ledger.bind ?_
  rintro _ stale ⟨lost, time, fresh, rfl, -⟩
  cases stale with
  | true =>
    refine .does hs.session fun _ => ?_
    exact closeAndAbandon_ledger (s := { s with lost, time, fresh, transaction := none })
      ⟨hs.held, hs.unresolved, hs.session⟩ _
  | false =>
    refine .does hs.session ?_
    rintro (_ | e)
    · refine flush_ledger ?_ ?_ rfl htx
      · exact ⟨hs.held, hs.unresolved, hs.session⟩
      · exact ⟨⟨ho.existed, ho.repair⟩, ho.found, ho.callbacks, ho.client⟩
    refine .does hs.session fun _ => ?_
    exact closeAndFail_ledger
      (s := { s with lost, time, fresh, committing := true, transaction := none })
      ⟨hs.held, hs.unresolved, hs.session⟩ _

theorem mutate_ledger (hs : s.Holding held (some h)) (ho : s.Opened [] manifest)
    (hcommit : s.committing = false) (htx : s.transaction = some {}) :
    Resolves json cfg info key (mutate json cfg key held manifest h) s := by
  have hcallbacks (r : Option Err) : r :: s.callbacks = [r] := congrArg (r :: ·) ho.callbacks
  refine .does hs.session fun r => ?_
  have hs' : (s.step json cfg info (.callback h) r).Holding held (some h) :=
    ⟨hs.held, hs.unresolved, hs.session⟩
  rcases r with _ | e
  · refine .does trivial ?_
    rintro (_ | e)
    · simp only [nextTXID, recordIdempotent, Prog.bind_assoc]
      refine .does hs.session ?_
      rintro (e | pos)
      · exact failTransaction_ledger hs' hcommit _
      refine .does hs.session ?_
      rintro (_ | e)
      · refine commitAndFlush_ledger ?_ ?_ ?_
        · exact ⟨hs.held, hs.unresolved, hs.session⟩
        · exact ⟨⟨ho.existed, ho.repair⟩, ho.found, hcallbacks none, ho.client⟩
        · simp [Ledger.step, htx]
      · exact failTransaction_ledger hs' hcommit _
    · exact failTransaction_ledger hs' hcommit _
  · simp only
    split <;> exact failTransaction_ledger hs' hcommit _

/-! ### Recorded results -/

/-- What a repair for the retry of a recorded result ends with: the manifest covers the TXID, or
everything was listed and stored. Without a TXID it does nothing. -/
def Ledger.Retried (json : ManifestJson B) (text : String) (s : Ledger B) : Prop :=
  match parseTXID text with
  | none => s.stored = none
  | some t => s.Covered t ∨ s.Repaired json

theorem Ledger.Retried.sound_iff {text : String} (hfound : s.found = some text)
    (hcallbacks : s.callbacks = []) (hheld : s.held = some held)
    (hres : s.resolutions = [.released held none])
    (hretried : s.manifest = some true → s.Retried json text) :
    s.Sound json info key ⟨text, true⟩ ↔ s.Regular := by
  have hregular : s.Regular ↔ (s.manifest = some true → (parseTXID text).isSome = true) := by
    rw [Ledger.Regular, hfound]
  rw [hregular]
  unfold Ledger.Retried at hretried
  constructor
  · rintro ⟨-, ⟨text', htext', -, -, hcovered⟩ | ⟨hnone, -⟩⟩ hmanifest
    · cases hfound.symm.trans htext'
      rcases hcovered hmanifest with ⟨t, ht, -⟩ | ⟨-, data, hdata, -⟩
      · rw [ht]
        rfl
      cases hparse : parseTXID text with
      | some t => rfl
      | none =>
        have hnone := hretried hmanifest
        simp only [hparse] at hnone
        exact absurd (hnone.symm.trans hdata) nofun
    · exact absurd (hfound.symm.trans hnone) nofun
  · intro hparses
    refine ⟨⟨held, hheld, hres⟩, .inl ⟨text, hfound, rfl, hcallbacks, fun hmanifest => ?_⟩⟩
    obtain ⟨t, ht⟩ := isSome_iff_exists.mp (hparses hmanifest)
    have hcovered := hretried hmanifest
    simp only [ht] at hcovered
    exact hcovered.imp_left fun hcovered => ⟨t, ht, hcovered⟩

theorem repairForRetry_ledger {existed : Bool} (hm : s.manifest = some existed)
    (hstored : s.stored = none) (text : String) :
    (repairForRetry json text).Obeys (ledger json cfg info) (fun s' r =>
      (∃ seen levels listed stored, s' = { s with seen, levels, listed, stored }) ∧
        (r = none → s'.Retried json text)) s := by
  unfold repairForRetry Ledger.Retried
  cases hparse : parseTXID text with
  | none => exact ⟨⟨_, _, _, _, rfl⟩, fun _ => hstored⟩
  | some t =>
    refine readManifest_ledger.bind ?_
    rintro _ res ⟨shown, rfl, hshown⟩
    have hsame : s.manifest.or (shown.map Option.isSome) = s.manifest := by simp [hm]
    rw [hsame]
    rcases res with e | current
    · exact ⟨⟨_, _, _, _, rfl⟩, nofun⟩
    obtain rfl := hshown current rfl
    simp only [repairUncovered]
    split
    · next hcovers =>
      refine ⟨⟨_, _, _, _, rfl⟩, fun _ => .inl ?_⟩
      obtain ⟨files, rfl, hfiles⟩ := Option.any_eq_true _ _ |>.mp hcovers
      exact ⟨files, rfl, hfiles⟩
    · refine rebuildManifest_ledger.bind ?_
      rintro _ (e | all) ⟨⟨levels, listed, rfl⟩, hall⟩
      · exact ⟨⟨_, _, _, _, rfl⟩, nofun⟩
      obtain ⟨hlevels, rfl⟩ := hall all rfl
      refine writeManifest_ledger.bind ?_
      rintro s' (_ | e) ⟨hput, hfailed⟩
      · obtain ⟨data, hdata, rfl⟩ := hput rfl
        exact ⟨⟨_, _, _, _, rfl⟩, fun _ => .inr ⟨hlevels, data, rfl, hdata⟩⟩
      · rw [hfailed nofun]
        exact ⟨⟨_, _, _, _, rfl⟩, nofun⟩

theorem deduplicate_ledger {text : String} (hs : s.Holding held (some h))
    (hplanned : s.Planned manifest) (hfound : s.found = some text) (hcallbacks : s.callbacks = [])
    (hcommit : s.committing = false) (hstored : s.stored = none) :
    Resolves json cfg info key (deduplicate json held manifest h text) s := by
  refine .does hs.session fun _ => ?_
  refine .does hs.session fun _ => ?_
  have hrepair : (if manifest.isSome then repairForRetry json text else pure none :
      RuntimeM B _).Obeys (ledger json cfg info) (fun s' r =>
        (∃ seen levels listed stored,
          s' = { s with transaction := none, session := none, seen, levels, listed, stored }) ∧
        (r = none → s'.manifest = some true → s'.Retried json text))
      { s with transaction := none, session := none } := by
    split
    · refine (repairForRetry_ledger (s := { s with transaction := none, session := none })
        hplanned.existed hstored text).mono ?_
      rintro s' r ⟨hs', hdone⟩
      exact ⟨hs', fun hr _ => hdone hr⟩
    · next hnone =>
      refine ⟨⟨_, _, _, _, rfl⟩, fun _ htrue => absurd ?_ hnone⟩
      exact some.inj (hplanned.existed.symm.trans htrue)
  refine hrepair.bind ?_
  rintro _ (_ | e) ⟨⟨seen, levels, listed, stored, rfl⟩, hdone⟩
  · have hdone := hdone rfl
    refine .perform ⟨hs.held, hs.unresolved, rfl, fun hc => ?_⟩ ?_
    · exact absurd (hcommit.symm.trans hc) nofun
    rintro err _ ⟨-, rfl⟩
    have hres : .released held err :: s.resolutions = [.released held err] :=
      congrArg (_ :: ·) hs.unresolved
    cases err with
    | some e =>
      refine Ledger.closes_error (x := .released held (some e)) ?_ hres rfl e
      exact hs.held
    | none =>
      refine ⟨fun held' hheld' => ⟨_, hres, some.inj (hs.held.symm.trans hheld')⟩, ?_⟩
      rintro r ⟨rfl⟩
      refine Ledger.Retried.sound_iff ?_ ?_ ?_ hres hdone
      exacts [hfound, hcallbacks, hs.held]
  · refine failWithLease_ledger ?_ ?_ e
    · exact ⟨hs.held, hs.unresolved, rfl⟩
    · exact hcommit

/-! ### The attempt -/

theorem transaction_ledger (hs : s.Holding held (some h)) (ho : s.Opened [] manifest)
    (hcommit : s.committing = false) :
    Resolves json cfg info key (transaction json cfg key held manifest h) s := by
  refine .does hs.session ?_
  rintro (_ | e)
  · have hs' : ({ s with transaction := some {} } : Ledger B).Holding held (some h) :=
      ⟨hs.held, hs.unresolved, hs.session⟩
    simp only [lookupIdempotent, Prog.bind_assoc]
    refine .does hs.session ?_
    rintro (_ | e)
    · simp only [Prog.bind_assoc]
      refine .does hs.session ?_
      rintro (e | _ | text)
      · exact failTransaction_ledger hs' hcommit _
      · refine mutate_ledger hs' ?_ hcommit rfl
        exact ⟨⟨ho.existed, ho.repair⟩, ho.found, ho.callbacks, ho.client⟩
      simp only [Prog.pure_eq_done, Prog.done_bind]
      split
      · next htext =>
        refine deduplicate_ledger ?_ ?_ ?_ ?_ hcommit rfl
        · exact ⟨hs.held, hs.unresolved, hs.session⟩
        · exact ⟨ho.existed, ho.repair⟩
        · exact if_neg htext
        · exact ho.callbacks
      · next htext =>
        refine mutate_ledger ?_ ?_ hcommit rfl
        · exact ⟨hs.held, hs.unresolved, hs.session⟩
        · exact ⟨⟨ho.existed, ho.repair⟩, if_pos (not_not.mp htext), ho.callbacks, ho.client⟩
    · exact failTransaction_ledger hs' hcommit _
  · refine .does hs.session fun _ => ?_
    exact failWithLease_ledger hs.close hcommit _

theorem repairTail_ledger (hlevels : s.levels = 0) :
    (repairTail json files).Obeys (ledger json cfg info) (fun s' res =>
      (∃ levels listed stored, s' = { s with levels, listed, stored }) ∧ ∀ slice, res = .ok slice →
        (s'.rebuilt = some [] ↔ slice = none)) s := by
  rw [repairTail, tailTXID, Prog.bind_assoc]
  refine .does trivial ?_
  rintro (e | found)
  · exact ⟨⟨_, _, _, rfl⟩, nofun⟩
  simp only [Prog.pure_eq_done, Prog.done_bind]
  split
  · refine rebuildManifest_ledger.bind ?_
    rintro _ (e | all) ⟨⟨levels, listed, rfl⟩, hall⟩
    · exact ⟨⟨_, _, _, rfl⟩, nofun⟩
    obtain ⟨hdone, rfl⟩ := hall all rfl
    refine writeManifest_ledger.bind ?_
    rintro s' (_ | e) ⟨hput, hfailed⟩
    · obtain ⟨data, -, rfl⟩ := hput rfl
      refine ⟨⟨_, _, _, rfl⟩, fun slice hslice => ?_⟩
      cases hslice
      rw [Ledger.rebuilt, if_pos hdone]
      cases listed <;> simp [appended]
    · rw [hfailed nofun]
      exact ⟨⟨_, _, _, rfl⟩, nofun⟩
  · refine ⟨⟨_, _, _, rfl⟩, fun slice hslice => ?_⟩
    cases hslice
    simp [Ledger.rebuilt, Ledger.step, hlevels]

theorem planFiles_ledger (hfirst : s.manifest = none) (hlevels : s.levels = 0) :
    (planFiles json).Obeys (ledger json cfg info) (fun s' res =>
      (∃ manifest seen levels listed stored,
        s' = { s with manifest, seen, levels, listed, stored }) ∧ ∀ manifest, res = .ok manifest →
          s'.manifest = some manifest.isSome ∧
            (manifest.isSome = true → (s'.rebuilt = some [] ↔ manifest = some none))) s := by
  refine readManifest_ledger.bind ?_
  rintro _ res ⟨shown, rfl, hshown⟩
  rw [hfirst, none_or]
  rcases res with e | _ | files
  · exact ⟨⟨_, _, _, _, _, rfl⟩, nofun⟩
  · obtain rfl := hshown none rfl
    refine ⟨⟨_, _, _, _, _, rfl⟩, fun manifest hmanifest => ?_⟩
    cases hmanifest
    exact ⟨rfl, nofun⟩
  · obtain rfl := hshown (some files) rfl
    refine (repairTail_ledger (s := { s with manifest := some true, seen := some files })
      hlevels).bind ?_
    rintro _ (e | slice) ⟨⟨levels, listed, stored, rfl⟩, hslice⟩
    · exact ⟨⟨_, _, _, _, _, rfl⟩, nofun⟩
    refine ⟨⟨_, _, _, _, _, rfl⟩, fun manifest hmanifest => ?_⟩
    cases hmanifest
    refine ⟨rfl, fun _ => (hslice slice rfl).trans ?_⟩
    exact ⟨congrArg some, some.inj⟩

/-- The lease is held and nothing else has been done. -/
structure Ledger.Starting (held : Lease.Held) (s : Ledger B) : Prop
    extends s.Holding held none where
  manifest : s.manifest = none
  levels : s.levels = 0
  found : s.found = none
  callbacks : s.callbacks = []
  committing : s.committing = false

theorem attemptWithLease_ledger (hs : s.Starting held) :
    Resolves json cfg info key (attemptWithLease json cfg key held) s := by
  refine (planFiles_ledger hs.manifest hs.levels).bind ?_
  rintro _ (e | manifest) ⟨⟨existed, seen, levels, listed, stored, rfl⟩, hplan⟩
  · refine failWithLease_ledger ?_ ?_ e
    · exact ⟨hs.held, hs.unresolved, hs.session⟩
    · exact hs.committing
  obtain ⟨hexisted, hrepair⟩ := hplan manifest rfl
  refine .does hs.session ?_
  rintro (e | h)
  · refine failWithLease_ledger ?_ ?_ _
    · exact ⟨hs.held, hs.unresolved, hs.session⟩
    · exact hs.committing
  refine transaction_ledger ?_ ?_ ?_
  · exact ⟨hs.held, hs.unresolved, rfl⟩
  · exact ⟨⟨hexisted, hrepair⟩, hs.found, hs.callbacks, rfl⟩
  · exact hs.committing

/-- **A write attempt keeps its ledger**: it resolves an acquired lease once, with its session
closed, and a success is sound if and only if the attempt was regular. -/
theorem withWriteAttempt_ledger :
    Resolves json cfg info key (withWriteAttempt json cfg d key) {} := by
  refine .does trivial ?_
  rintro (e | _)
  · exact ⟨nofun, nofun⟩
  have hentry : Resolves json cfg info key (attemptWithEntry json cfg d key) {} := by
    refine .does trivial ?_
    rintro (e | held)
    · exact ⟨nofun, nofun⟩
    · exact attemptWithLease_ledger (s := { held := some held })
        ⟨⟨rfl, rfl, rfl⟩, rfl, rfl, rfl, rfl, rfl⟩
  refine hentry.bind fun s' res hres => ?_
  refine .does trivial fun _ => ?_
  exact hres

/-! ### The two statements -/

variable {tr : List (Σ c : Op B, Resp c)}

/-- **Acknowledgement.** A write attempt that reports success has passed what it should have, if
and only if it was regular. -/
theorem acknowledged_sound_iff {res : WriteResult}
    (hret : Returns (withWriteAttempt json cfg d key) tr (.ok res))
    (hruns : (ledger json cfg info).Runs {} tr s) : s.Sound json info key res ↔ s.Regular :=
  (hret.runs hruns withWriteAttempt_ledger).2 res rfl

/-- **Lease resolution.** A write attempt that returns, and has acquired the lease, has resolved it
by exactly one call of `Release` or `Abandon`. Whenever it makes one of these calls, its session is
closed; and once COMMIT was attempted, it calls `Release` only when everything was confirmed. -/
theorem lease_resolved {res : Except Err WriteResult}
    (hret : Returns (withWriteAttempt json cfg d key) tr res)
    (hruns : (ledger json cfg info).Runs {} tr s) :
    (∀ held, s.held = some held → ∃ x, s.resolutions = [x] ∧ x.held = held) ∧
      ∀ pre c r post s', tr = pre ++ ⟨c, r⟩ :: post → (ledger json cfg info).Runs {} pre s' →
        (∀ held cancellable, c = .release held cancellable → s'.held = some held ∧
          s'.resolutions = [] ∧ s'.session = none ∧ (s'.committing = true → s'.Confirmed)) ∧
        ∀ held, c = .abandon held →
          s'.held = some held ∧ s'.resolutions = [] ∧ s'.session = none := by
  have hobeys : Resolves json cfg info key (withWriteAttempt json cfg d key) {} :=
    withWriteAttempt_ledger
  refine ⟨(hret.runs hruns hobeys).1, ?_⟩
  rintro pre c r post s' rfl hpre
  have hallow := hret.allows hpre hobeys
  constructor
  · rintro held cancellable rfl
    exact hallow
  · rintro held rfl
    exact hallow

end Stages

/-! ### Two runs with a lagging manifest -/

/-- The ledger after a trace, if the captured file lists are those of the session's client. -/
def Ledger.replay {B : Type} (json : ManifestJson B) (cfg : Config) (info : FileInfo) :
    Ledger B → List (Σ c : Op B, Resp c) → Option (Ledger B)
  | s, [] => some s
  | s, ⟨c, r⟩ :: tr =>
    if s.lawful c r then Ledger.replay json cfg info (s.step json cfg info c r) tr else none

theorem Ledger.replay_runs {B : Type} {json : ManifestJson B} {cfg : Config} {info : FileInfo}
    {tr : List (Σ c : Op B, Resp c)} {s s' : Ledger B}
    (h : Ledger.replay json cfg info s tr = some s') : (ledger json cfg info).Runs s tr s' := by
  induction tr generalizing s with
  | nil =>
    cases h
    exact .nil _
  | cons e tr ih =>
    simp only [Ledger.replay] at h
    split at h
    · next hlawful => exact .cons ⟨hlawful, rfl⟩ (ih h)
    · cases h

namespace LaggingManifest

/-- The file that the manifest has left out. -/
def unindexed : FileInfo := ⟨0, 1, 1, 0, 0⟩

/-- The file that the attempt flushes. -/
def flushed : FileInfo := ⟨0, 2, 2, 0, 0⟩

/-- The answers to an attempt whose manifest is empty, whose tail probe finds a file, and whose
rebuild lists `level0` at level 0. -/
def answers (level0 : List FileInfo) : (c : Op (Option ManifestDocument)) → Resp c
  | .acquire _ _ | .acquireKey _ _ => .ok ⟨0, "", 0⟩
  | .expiresAt _ => 30 * second
  | .manifestGet => .ok (some (manifestDocument []))
  | .ltxFiles .build level => .ok (if level = 0 then level0 else [])
  | .ltxFiles _ _ => .ok [unindexed]
  | .pos _ => .ok (1 : ℕ)
  | .txid _ => .ok (formatTXID 2)
  | .manifestFiles _ =>
    (appended level0).map fun files => ((ManifestClient.new files).recordWrite flushed).files
  | c => c.uneventful

/-- The attempt. -/
def attempt : RuntimeM (Option ManifestDocument) (Except Err WriteResult) :=
  withWriteAttempt .plain defaultConfig ⟨⟨"db"⟩, ""⟩ "key"

/-- The trace of the attempt. -/
def trace (level0 : List FileInfo) : List (Σ c : Op (Option ManifestDocument), Resp c) :=
  (attempt.runWith (answers level0)).1

theorem returns (level0 : List FileInfo) (h : level0 ∈ [[], [unindexed]]) :
    Returns attempt (trace level0) (.ok ⟨formatTXID 2, false⟩) := by
  have hres : ∀ level0 ∈ [[], [unindexed]],
      (attempt.runWith (answers level0)).2 = .ok ⟨formatTXID 2, false⟩ := by
    decide +kernel
  exact hres level0 h ▸ attempt.runWith_returns (answers level0)

theorem ledger_of (level0 : List FileInfo) (h : level0 ∈ [[], [unindexed]]) :
    ∃ s, (ledger .plain defaultConfig flushed).Runs {} (trace level0) s ∧
      s.manifest = some true ∧ s.found = none ∧ s.repair = some level0 := by
  have hreplay : ∀ level0 ∈ [[], [unindexed]],
      ((Ledger.replay .plain defaultConfig flushed {} (trace level0)).map fun s =>
        (s.manifest, s.found, s.repair)) = some (some true, none, some level0) := by
    decide +kernel
  obtain ⟨s, hs, hfields⟩ := map_eq_some_iff.mp (hreplay level0 h)
  obtain ⟨hmanifest, hfound, hrepair⟩ := Prod.mk.inj hfields |>.imp_right Prod.mk.inj
  exact ⟨s, Ledger.replay_runs hs, hmanifest, hfound, hrepair⟩

/-- **An acknowledged write may be missing from the manifest.** The repair of an empty manifest
lists nothing although the tail probe found a file; the attempt succeeds, and the manifest that it
stored does not list its file. -/
theorem acknowledged_unlisted :
    ∃ tr s res, Returns attempt tr (.ok res) ∧
      (ledger .plain defaultConfig flushed).Runs {} tr s ∧ ¬ s.Sound .plain flushed "key" res := by
  obtain ⟨s, hruns, hmanifest, hfound, hrepair⟩ := ledger_of [] (by simp)
  have hret := returns [] (by simp)
  have hcloses : s.Closes .plain flushed "key" _ := hret.runs hruns withWriteAttempt_ledger
  refine ⟨trace [], s, _, hret, hruns, fun hsound => ?_⟩
  have hregular := (hcloses.2 _ rfl).mp hsound hmanifest
  rw [hfound] at hregular
  exact hregular hrepair

/-- The run whose repair lists the file is regular, and so it is sound. -/
theorem acknowledged_listed :
    ∃ tr s res, Returns attempt tr (.ok res) ∧
      (ledger .plain defaultConfig flushed).Runs {} tr s ∧ s.Sound .plain flushed "key" res := by
  obtain ⟨s, hruns, hmanifest, hfound, hrepair⟩ := ledger_of [unindexed] (by simp)
  have hret := returns [unindexed] (by simp)
  refine ⟨trace [unindexed], s, _, hret, hruns, (acknowledged_sound_iff hret hruns).mpr ?_⟩
  intro _
  rw [hfound]
  simp [hrepair]

/-- The run resolves its lease. -/
theorem lagging_resolved :
    ∃ tr s res, Returns attempt tr res ∧ (ledger .plain defaultConfig flushed).Runs {} tr s ∧
      ∀ held, s.held = some held → ∃ x, s.resolutions = [x] ∧ x.held = held := by
  obtain ⟨s, hruns, -⟩ := ledger_of [unindexed] (by simp)
  have hret := returns [unindexed] (by simp)
  exact ⟨_, s, _, hret, hruns, (lease_resolved hret hruns).1⟩

end LaggingManifest

end Walrusd.Runtime
