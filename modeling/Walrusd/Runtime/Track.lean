import Walrusd.Runtime.Compaction
import Walrusd.Runtime.Merge
import Walrusd.Runtime.Read

/-!
# What a process has done so far

The programs of a cluster act on one database at the same time. What each of them may do to the
stored state follows from what it has been answered before: a manifest that it stores is a listing
of all levels, the file list of its session, or the merge of a snapshot; files that it deletes are
sources of a merge that it has stored; and it releases the write lease in order to acknowledge only
with a result at hand.

`Track` records these answers. `Track.Allows` states what a program may call in a given state and
`Track.Learns` what it may rely on in an answer; both refer to the calls of one process only. The
programs keep to the resulting protocol whatever the other processes do.

## Main definitions

* `Track`, `Track.step`.
* `Track.Allows`, `Track.Learns`, `tracked`.

## Main results

* `withWriteAttempt_tracked`, `runCompaction_tracked`, `withRead_tracked`.
-/

namespace Walrusd.Runtime

open Program Litestream List

/-- The programs of a process; a pass has a threshold. -/
inductive Role
  | write
  | compaction (threshold : ℤ)
  | read
  deriving DecidableEq, Repr

/-- A manifest as it was read or stored: absent, or a list of files. -/
abbrev Seen := Option (List FileInfo)

/-- What a process has done so far. -/
structure Track where
  /-- The program. -/
  role : Role
  /-- The write lease is held. -/
  write : Bool := false
  /-- The compaction lease is held. -/
  pass : Bool := false
  /-- The manifest as it was read without a lease. -/
  snapshot : Option Seen := none
  /-- The manifest as it was read or stored last under the write lease. -/
  current : Option Seen := none
  /-- The number of levels that the last rebuild has listed. -/
  levels : ℕ := 0
  /-- The files that the last rebuild has listed. -/
  listed : List FileInfo := []
  /-- The write session and the manifest it was opened on. -/
  session : Option (Sess × Seen) := none
  /-- The write session was opened on a listing because a repair listed nothing. -/
  lapsed : Bool := false
  /-- The recorded result of the key. -/
  found : Option String := none
  /-- The position of the write session before its flush. -/
  position : Option ℕ := none
  /-- The write session has been flushed. -/
  flushed : Bool := false
  /-- The files that the pass has merged. -/
  merged : List FileInfo := []
  /-- A manifest has been stored. -/
  stored : Bool := false
  /-- The cached session that the read was given. -/
  hit : Option Sess := none
  /-- The session that the read has opened. -/
  opened : Option Sess := none
  /-- The levels that the read found empty. -/
  empty : List ℕ := []
  /-- The TXID of the write, once it is acknowledged. -/
  acked : Option ℕ := none
  deriving DecidableEq, Repr

namespace Track

variable {B : Type} (json : ManifestJson B) (s : Track)

/-- The file that the flush of a session at position `n` writes. -/
def nextKey (n : ℕ) : FileKey := ⟨0, n + 1, n + 1⟩

/-- The TXID that the write will report: the recorded one, or that of the flush. -/
def result : Option ℕ :=
  match s.found with
  | some text => parseTXID text
  | none => s.position.map (· + 1)

/-- The record after the manifest was read. -/
def see (m : Option Seen) : Track :=
  if s.write then { s with current := m }
  else if s.pass then s
  else { s with snapshot := m }

/-- The record after an answer. When the write learns of a TXID that its manifest must cover, what
it has listed before does not count. -/
def step : (c : Op B) → Resp c → Track
  | .acquire _ _, .ok _ => { s with write := true }
  | .release _ true, none => { s with write := false, acked := s.result }
  | .release _ _, _ => { s with write := false }
  | .abandon _, _ => { s with write := false }
  | .acquireKey _ _, .ok _ => { s with pass := true }
  | .releaseKey _, _ => { s with pass := false }
  | .manifestGet, r => s.see (shownManifest json r)
  | .manifestPut data, none => { s with current := shownManifest json (.ok data), stored := true }
  | .manifestPut _, some _ => { s with current := none }
  | .ltxFiles .build level, .ok found =>
    if level = 0 then { s with levels := 1, listed := found }
    else { s with levels := level + 1, listed := s.listed ++ found }
  | .ltxFiles .probe level, .ok found =>
    if found.isEmpty then { s with empty := level :: s.empty } else s
  | .compact _ _, .ok info => { s with merged := s.merged ++ [info] }
  | .openWrite plan, .ok h =>
    { s with session := some (h, plan), lapsed := plan = none ∧ s.current = some (some []) }
  | .selectTXID _ _, .ok (some text) =>
    { s with found := some text, levels := 0, listed := [] }
  | .pos _, .ok n => { s with position := some n }
  | .setWriteDisabled _, none => { s with flushed := true, levels := 0, listed := [] }
  | .cacheGet, some h => { s with hit := some h }
  | .openRead _, .ok h => { s with opened := some h }
  | _, _ => s

/-- What the calls of a component `k` leave alone. -/
structure Frame (s s' : Track) (k : Kind) : Prop where
  role : s'.role = s.role
  lease : k ≠ .lease → s'.write = s.write ∧ s'.pass = s.pass ∧ s'.acked = s.acked
  manifest : k ≠ .manifestGet → k ≠ .manifestPut →
    s'.snapshot = s.snapshot ∧ s'.current = s.current ∧ s'.stored = s.stored
  listing : k ≠ .listing → k ≠ .session →
    s'.levels = s.levels ∧ s'.listed = s.listed ∧ s'.empty = s.empty
  merged : k ≠ .compact → s'.merged = s.merged
  session : k ≠ .session → s'.session = s.session ∧ s'.found = s.found ∧
    s'.position = s.position ∧ s'.flushed = s.flushed ∧ s'.lapsed = s.lapsed
  cache : k ≠ .cache → s'.hit = s.hit ∧ s'.opened = s.opened

theorem Frame.refl (s : Track) (k : Kind) : s.Frame s k := by
  constructor <;> simp

theorem step_frame (c : Op B) (r : Resp c) : s.Frame (s.step json c r) c.kind := by
  cases c with
  | acquire | acquireKey | manifestPut | compact | openWrite | openRead | cacheGet | pos
  | setWriteDisabled =>
    cases r <;> constructor <;> simp [Track.step, Op.kind]
  | release held cancellable =>
    cases cancellable <;> cases r <;> constructor <;> simp [Track.step, Op.kind]
  | releaseKey | abandon => constructor <;> simp [Track.step, Op.kind]
  | manifestGet =>
    simp only [Track.step, Track.see]
    split
    · constructor <;> simp [Op.kind]
    · split <;> constructor <;> simp [Op.kind]
  | ltxFiles site level =>
    cases r with
    | error => cases site <;> exact .refl s _
    | ok found =>
      cases site with
      | build | probe =>
        simp only [Track.step]
        split <;> constructor <;> simp [Op.kind]
      | _ => exact .refl s _
  | selectTXID =>
    rcases r with e | _ | text <;> constructor <;> simp [Track.step, Op.kind]
  | _ => exact .refl s _

theorem step_steady (c : Op B) (r : Resp c) (hpos : ∀ h, c ≠ .pos h)
    (hflush : ∀ h, c ≠ .setWriteDisabled h) :
    (s.step json c r).flushed = s.flushed ∧ (s.step json c r).position = s.position := by
  cases c with
  | pos h => exact absurd rfl (hpos h)
  | setWriteDisabled h => exact absurd rfl (hflush h)
  | openWrite => cases r <;> exact ⟨rfl, rfl⟩
  | selectTXID => rcases r with e | _ | text <;> exact ⟨rfl, rfl⟩
  | manifestGet | ltxFiles | release | acquire | acquireKey | manifestPut | compact | openRead
  | cacheGet =>
    obtain ⟨-, -, hposition, hflushed, -⟩ := (s.step_frame json _ r).session nofun
    exact ⟨hflushed, hposition⟩
  | _ => exact ⟨rfl, rfl⟩

/-- The process owns the write session `h`. -/
def Owns (h : Sess) : Prop := ∃ plan, s.session = some (h, plan)

/-- The files of the current manifest are `manifest`. -/
def Finds : Option Slice → Prop
  | none => s.current = some none
  | some none => s.current = some (some [])
  | some (some plan) => AllValid plan ∧ ∃ base, s.current = some (some base) ∧
    ∀ k, HasKey base k ↔ HasKey plan k

/-- The write session was opened when the files of the manifest were `manifest`, and the manifest
is still the current one unless the session was opened on a listing. -/
def Knows : Option Slice → Prop
  | some none => s.lapsed = true
  | manifest => s.Finds manifest

/-- The process has not used the write lease so far. -/
structure Unlocked : Prop where
  write : s.write = false
  current : s.current = none
  levels : s.levels = 0
  found : s.found = none
  flushed : s.flushed = false

/-- A write that holds the lease and has not asked for its position. -/
structure Writing : Prop where
  role : s.role = .write
  write : s.write = true
  found : s.found = none
  position : s.position = none
  flushed : s.flushed = false

/-- A write that runs on the session `h`, opened on the files `manifest` at position `n`. -/
structure Running (h : Sess) (manifest : Option Slice) (n : ℕ) : Prop where
  role : s.role = .write
  write : s.write = true
  found : s.found = none
  session : s.session = some (h, manifest.join)
  position : s.position = some n
  max : ∀ plan, manifest.join = some plan → n = manifestMaxTXID plan
  knows : s.Knows manifest

/-- The manifest `files` is a listing of all levels. -/
def Rebuilt (files : List FileInfo) : Prop :=
  s.role = .write ∧ s.levels = snapshotLevel + 1 ∧ s.listed = files ∧ ∃ m, s.current = some m

/-- The manifest `files` is the current one with the file that the write has flushed. -/
def Committed (files : List FileInfo) : Prop :=
  s.role = .write ∧ s.flushed = true ∧ ∃ h plan base n,
    s.session = some (h, some plan) ∧ s.current = some (some base) ∧
    (∀ k, HasKey base k ↔ HasKey plan k) ∧ s.position = some n ∧ n = manifestMaxTXID plan ∧
    n + 1 < 2 ^ 64 ∧ ∀ k, HasKey files k ↔ HasKey plan k ∨ k = nextKey n

/-- The manifest `files` is the current one with a merge of the snapshot applied. -/
def Merged (files : List FileInfo) : Prop :=
  s.pass = true ∧ ∃ T S base client, s.role = .compaction T ∧ s.snapshot = some (some S) ∧
    s.current = some (some base) ∧ AllValid S ∧ AllValid base ∧
    Merging T S compactionTopLevel client s.merged ∧
    files = applyManifestDelta base s.merged (supersede S [] s.merged).2

/-- The manifest `files` is empty, as it was when the write opened its session on a listing. -/
def Emptied (files : List FileInfo) : Prop :=
  s.role = .write ∧ s.flushed = true ∧ s.lapsed = true ∧ files = []

/-- The file of the write is in the index: the manifest names it, or there is none. -/
def Published : Prop :=
  s.role = .write ∧ s.write = true ∧ s.found = none ∧ s.flushed = true ∧ ∃ n, s.position = some n ∧
    n + 1 < 2 ^ 64 ∧ ((∃ h, s.session = some (h, none)) ∨
      ∃ files, s.current = some (some files) ∧ HasKey files (nextKey n))

/-- The key of the write was recorded before. -/
def Deduplicated : Prop :=
  s.role = .write ∧ s.write = true ∧ ∃ text t, s.found = some text ∧ parseTXID text = some t

/-- What a process may call. -/
def Allows : Op B → Prop
  | .manifestPut data =>
    s.write = true ∧ ∃ files, encodeManifest json files = .ok data ∧ AllValid files ∧
      (s.Rebuilt files ∨ s.Committed files ∨ s.Merged files ∨ s.Emptied files)
  | .openWrite m =>
    s.Writing ∧ s.session = none ∧ ∃ manifest, m = manifest.join ∧ s.Finds manifest
  | .acquire _ _ => s.Unlocked
  | .ltxFiles .build level => level = 0 ∨ level = s.levels
  | .deleteLTXFiles site files =>
    s.pass = true ∧ s.write = false ∧ s.stored = true ∧ (∃ T, s.role = .compaction T) ∧
      (site = .sources → ∃ S, s.snapshot = some (some S) ∧
        ∀ k, HasKey files k → HasKey (supersede S [] s.merged).2 k)
  | .compact level files =>
    s.pass = true ∧ s.stored = false ∧ ∃ T S, s.role = .compaction T ∧
      s.snapshot = some (some S) ∧ AllValid S ∧ ∃ below, level = below + 1 ∧
        level ≤ compactionTopLevel ∧ Merging T S below files s.merged
  | .selectTXID h _ | .pos h =>
    s.Writing ∧ ∃ manifest, s.session = some (h, manifest.join) ∧ s.Knows manifest
  | .insertKey h _ text => s.flushed = false ∧ ∃ manifest n, s.Running h manifest n ∧
    text = formatTXID ((n + 1) % 2 ^ 64)
  | .commit h | .setWriteDisabled h => s.flushed = false ∧ ∃ manifest n, s.Running h manifest n
  | .release _ true => s.Published ∨ s.Deduplicated
  | .evict => s.role = .write → s.Published
  | .openRead plan => s.role = .read ∧ s.snapshot = some plan
  | .cachePut h => s.role = .read ∧ s.opened = some h
  | .runRead h => s.role = .read ∧ (s.hit = some h ∨ s.opened = some h)
  | .runEmpty =>
    s.role = .read ∧ (s.snapshot = some (some []) ∨
      s.snapshot = some none ∧ ∀ level ≤ snapshotLevel, level ∈ s.empty)
  | _ => True

/-- What a process may rely on in an answer. -/
def Learns : (c : Op B) → Resp c → Prop
  | .manifestGet, .ok data => ∃ files, decodeManifest json data = .ok files
  | .manifestGet, .error e => e.is .manifestNotFound = true →
    (∀ files, s.snapshot ≠ some (some files)) ∧ ∀ files, s.current ≠ some (some files)
  | .ltxFiles _ level, .ok files => ∀ f ∈ files, f.key.Valid ∧ f.level = level
  | .compact level files, .ok info => mergeSources level files ≠ [] ∧
    info = mergedFile level (mergeSources level files) info.size info.createdAt
  | .compact level files, .error e => e.is .noCompaction = true → mergeSources level files = []
  | .selectTXID _ _, .ok (some text) => ∃ t, t < 2 ^ 64 ∧ text = formatTXID t
  | .pos h, .ok n => ∀ plan, s.session = some (h, some plan) → n = manifestMaxTXID plan
  | .setWriteDisabled _, none => ∀ n, s.position = some n → n + 1 < 2 ^ 64
  | .manifestFiles h, captured => (s.session = some (h, none) → captured = none) ∧
    (s.flushed = true → ∀ plan n, s.session = some (h, some plan) → s.position = some n →
      ∃ files, captured = some files ∧ ∀ k, HasKey files k ↔ HasKey plan k ∨ k = nextKey n)
  | _, _ => True

end Track

/-- The protocol of the programs. -/
def tracked {B : Type} (json : ManifestJson B) : Protocol (Op B) Resp Track where
  allow s c := s.Allows json c
  next s c r s' := s.Learns json c r ∧ s' = s.step json c r

instance {B : Type} (json : ManifestJson B) : (tracked json).Steps fun s => s.step json :=
  ⟨And.right⟩

section Programs

variable {B : Type} {json : ManifestJson B} {cfg : Config} {d : Descriptor} {key : String}
  {held : Lease.Held} {s : Track} {h : Sess} {n : ℕ} {files : List FileInfo} {m : Seen}
  {manifest : Option Slice}
variable {T : ℤ}

/-! ### Calls and methods -/

theorem tracked_keeps {k : Kind} (hk : k = .clock ∨ k = .registry ∨ k = .queue) (c : Op B)
    (hc : c.kind = k) :
    (tracked json).allow s c ∧ ∀ r s', (tracked json).next s c r s' → s' = s := by
  subst hc
  cases c with
  | lost | expiresAt | now | ctxErr | database | releaseDatabase | loadOrStorePending | sendJob
  | deletePending | addPass => exact ⟨trivial, fun r s' hnext => hnext.2⟩
  | _ => rcases hk with hk | hk | hk <;> cases hk

theorem readManifest_tracked :
    (readManifest json).Obeys (tracked json) (fun s' res => ∃ seen, s' = s.see seen ∧
      ∀ m, res = .ok m → seen = some m ∧ match m with
        | some files => AllValid files ∧ (keys files).Nodup
        | none => (∀ files, s.snapshot ≠ some (some files)) ∧
          ∀ files, s.current ≠ some (some files)) s := by
  refine .perform trivial ?_
  rintro (e | data) _ ⟨hlearn, rfl⟩
  · by_cases hfound : e.is .manifestNotFound = true
    · simp only [if_pos hfound]
      refine ⟨some none, by simp [Track.step, shownManifest, hfound], ?_⟩
      rintro m ⟨rfl⟩
      exact ⟨rfl, hlearn hfound⟩
    · simp only [if_neg hfound]
      exact ⟨_, rfl, nofun⟩
  · obtain ⟨files, hdecode⟩ := hlearn
    simp only [hdecode]
    refine ⟨some (some files), by simp [Track.step, shownManifest, hdecode], ?_⟩
    rintro m ⟨rfl⟩
    exact ⟨rfl, decodeManifest_valid json hdecode⟩

theorem writeManifest_tracked (hwrite : s.write = true) (hvalid : AllValid files)
    (hfrom : s.Rebuilt files ∨ s.Committed files ∨ s.Merged files ∨ s.Emptied files) :
    (writeManifest json files).Obeys (tracked json) (fun s' r =>
      (r = none → ∃ base, s' = { s with current := some (some base), stored := true } ∧
        AllValid base ∧ ∀ k, HasKey base k ↔ HasKey files k) ∧
      (r ≠ none → s' = s ∨ s' = { s with current := none })) s := by
  unfold writeManifest
  split
  · exact ⟨nofun, fun _ => .inl rfl⟩
  · next data hdata =>
    obtain ⟨base, hdecode, -, hkeys⟩ := decodeManifest_encodeManifest json hvalid hdata
    refine Prog.obeys_perform.mpr ⟨⟨hwrite, files, hdata, hvalid, hfrom⟩, ?_⟩
    rintro (_ | e) _ ⟨-, rfl⟩
    · refine ⟨fun _ => ⟨base, ?_, (decodeManifest_valid json hdecode).1, hkeys⟩,
        fun h => absurd rfl h⟩
      simp [Track.step, shownManifest, hdecode]
    · exact ⟨nofun, fun _ => .inr rfl⟩

theorem valid_append_listing {level : ℕ} {found : List FileInfo} (hvalid : AllValid files)
    (hfound : ∀ f ∈ found, f.key.Valid ∧ f.level = level) : AllValid (files ++ found) := by
  intro k hk
  rcases hasKey_append.mp hk with hk | hk
  · exact hvalid k hk
  · obtain ⟨f, hf, rfl⟩ := hasKey_iff.mp hk
    exact (hfound f hf).1

theorem rebuildManifest_tracked :
    (rebuildManifest : RuntimeM B _).Obeys (tracked json) (fun s' res =>
      (∃ levels listed, s' = { s with levels, listed }) ∧ ∀ all, res = .ok all →
        AllValid all ∧ s'.levels = snapshotLevel + 1 ∧ s'.listed = all) s := by
  refine rebuildManifest_obeys (fun level files s' => (∃ levels listed,
    s' = { s with levels, listed }) ∧ AllValid files ∧ (level = 0 ∧ files = [] ∨
      level ≠ 0 ∧ s'.levels = level ∧ s'.listed = files)) ?_ ?_ ?_ ?_ ?_
  · exact ⟨⟨_, _, rfl⟩, fun k hk => absurd hk not_hasKey_nil, .inl ⟨rfl, rfl⟩⟩
  · rintro level files s' ⟨-, -, hcase⟩
    exact hcase.imp And.left fun hcase => hcase.2.1.symm
  · rintro level files _ e _ ⟨⟨levels, listed, rfl⟩, -⟩ ⟨-, rfl⟩
    exact ⟨⟨_, _, rfl⟩, nofun⟩
  · rintro level files _ found _ ⟨⟨levels, listed, rfl⟩, hvalid, hcase⟩ ⟨hlearn, rfl⟩
    have hvalid' := valid_append_listing hvalid hlearn
    rcases hcase with ⟨rfl, rfl⟩ | ⟨hne, rfl, rfl⟩
    · exact ⟨⟨_, _, rfl⟩, hvalid', .inr ⟨one_ne_zero, rfl, rfl⟩⟩
    · rw [Track.step, if_neg hne]
      exact ⟨⟨_, _, rfl⟩, hvalid', .inr ⟨Nat.succ_ne_zero _, rfl, rfl⟩⟩
  · rintro files s' ⟨hs', hvalid, hcase⟩
    refine ⟨hs', fun all hall => ?_⟩
    cases hall
    exact ⟨hvalid, (hcase.resolve_left fun hzero => Nat.succ_ne_zero _ hzero.1).2⟩

/-! ### Write attempts -/

/-- `s'` differs from `s` by a repair of the manifest. -/
def Track.Repairs (s s' : Track) : Prop :=
  ∃ current levels listed stored, s' = { s with current, levels, listed, stored }

/-- A write that has returned `res`. -/
def Track.Acknowledges (s : Track) (res : Except Err WriteResult) : Prop :=
  ∀ r, res = .ok r → ∃ t, s.acked = some t ∧ t < 2 ^ 64 ∧ r.txid = formatTXID t

/-- A write that keeps to the protocol from `s` on, with the result of its record. -/
abbrev Acknowledging (json : ManifestJson B) (p : RuntimeM B (Except Err WriteResult))
    (s : Track) : Prop :=
  p.Obeys (tracked json) Track.Acknowledges s

theorem tracked_fails {p : RuntimeM B (Except Err WriteResult)} (h : Fails p) :
    Acknowledging json p s := by
  obtain ⟨honly, hfails⟩ := h
  induction p generalizing s with
  | done a =>
    obtain ⟨e, rfl⟩ := hfails
    exact nofun
  | call c k ih =>
    refine ⟨?_, fun r s' _ => ih r (honly.2 r) (hfails r)⟩
    have hc := honly.1
    cases c with
    | release held cancellable =>
      cases cancellable with
      | false => trivial
      | true => cases hc
    | abandon | rollback | closeSession => trivial
    | _ => cases hc

theorem Track.see_of_write (h : s.write = true) (seen : Option Seen) :
    s.see seen = { s with current := seen } := if_pos h

theorem acknowledge_tracked (hpub : s.Published) (hn : s.position = some n) :
    Acknowledging json (acknowledge cfg held h (formatTXID (n + 1)) files) s := by
  obtain ⟨hrole, hwrite, hfound, hflushed, n', hn', hlt, hfrom⟩ := id hpub
  obtain rfl : n' = n := Option.some.inj (hn'.symm.trans hn)
  refine .does (fun _ => hpub) fun _ => ?_
  refine .does trivial fun _ => ?_
  refine .does (.inl hpub) ?_
  rintro (_ | e)
  · refine (enqueueCompaction_only files).bind_obeys (tracked_keeps (by simp)) fun _ => ?_
    rintro r ⟨rfl⟩
    refine ⟨n' + 1, ?_, hlt, rfl⟩
    simp [Track.step, Track.result, hfound, hn]
  · exact nofun

theorem Track.Running.committed (hrun : s.Running h (some (some files)) n)
    (hflushed : s.flushed = true) (hlt : n + 1 < 2 ^ 64) {captured : List FileInfo}
    (hkeys : ∀ k, HasKey captured k ↔ HasKey files k ∨ k = Track.nextKey n) :
    AllValid captured ∧ s.Committed captured := by
  obtain ⟨hvalid, base, hbase, hsame⟩ := hrun.knows
  refine ⟨fun k hk => ?_, hrun.role, hflushed, h, files, base, n, hrun.session, hbase, hsame,
    hrun.position, hrun.max files rfl, hlt, hkeys⟩
  rcases (hkeys k).mp hk with hk | rfl
  · exact hvalid k hk
  · exact ⟨Nat.zero_le _, Nat.succ_pos n, le_rfl⟩

theorem rebuildAndStore_tracked {α : Type} {Q : Track → α → Prop} (hrole : s.role = .write)
    (hwrite : s.write = true) (hm : s.current = some m) {fail : Err → RuntimeM B α}
    {store : List FileInfo → Option Err → RuntimeM B α}
    (hfail : ∀ s' e, s.Repairs s' → (fail e).Obeys (tracked json) Q s')
    (hstore : ∀ s' all r, s.Repairs s' → (r = none → s'.Finds (some (appended all))) →
      (store all r).Obeys (tracked json) Q s') :
    (rebuildManifest >>= fun res => match res with
      | .error e => fail e
      | .ok all => writeManifest json all >>= store all :
        RuntimeM B α).Obeys (tracked json) Q s := by
  refine rebuildManifest_tracked.bind ?_
  rintro _ (e | all) ⟨⟨levels, listed, rfl⟩, hall⟩
  · exact hfail _ e ⟨_, levels, listed, _, rfl⟩
  obtain ⟨hvalid, hlevels, hlisted⟩ := hall all rfl
  refine (writeManifest_tracked (s := { s with levels, listed }) hwrite hvalid
    (.inl ⟨hrole, hlevels, hlisted, m, hm⟩)).bind ?_
  intro s' r ⟨hstored, hfailed⟩
  have hrepairs : s.Repairs s' := by
    cases r with
    | none =>
      obtain ⟨base, rfl, -⟩ := hstored rfl
      exact ⟨_, levels, listed, _, rfl⟩
    | some e => rcases hfailed nofun with rfl | rfl <;> exact ⟨_, levels, listed, _, rfl⟩
  refine hstore s' all r hrepairs fun hr => ?_
  obtain ⟨base, rfl, -, hkeys⟩ := hstored hr
  cases all with
  | nil =>
    obtain rfl := eq_nil_of_not_hasKey fun k hk => not_hasKey_nil ((hkeys k).mp hk)
    rfl
  | cons => exact ⟨hvalid, base, rfl, hkeys⟩

/-- A flushed write without a manifest is published, whatever it does to the manifest. -/
theorem Track.Running.published (hrun : s.Running h none n) (hflushed : s.flushed = true)
    (hlt : n + 1 < 2 ^ 64) {s' : Track} (hs' : s.Repairs s') :
    s'.Published ∧ s'.position = some n := by
  obtain ⟨current, levels, listed, stored, rfl⟩ := hs'
  exact ⟨⟨hrun.role, hrun.write, hrun.found, hflushed, n, hrun.position, hlt,
    .inl ⟨h, hrun.session⟩⟩, hrun.position⟩

section

variable (hrun : s.Running h manifest n)
include hrun

theorem publish_tracked (hflushed : s.flushed = true) (hlt : n + 1 < 2 ^ 64) :
    Acknowledging json (publish json cfg held manifest h (formatTXID (n + 1))) s := by
  rcases manifest with _ | _ | plan
  case some.some =>
    refine .perform trivial ?_
    rintro captured _ ⟨hlearn, rfl⟩
    obtain ⟨all, rfl, hkeys⟩ := hlearn.2 hflushed plan n hrun.session hrun.position
    obtain ⟨hvalid, hcommitted⟩ := hrun.committed hflushed hlt hkeys
    refine (writeManifest_tracked hrun.write hvalid (.inr (.inl hcommitted))).bind ?_
    rintro s' (_ | e) ⟨hstored, -⟩
    · obtain ⟨base, rfl, -, hbase⟩ := hstored rfl
      have hnext : HasKey base (Track.nextKey n) := (hbase _).mpr ((hkeys _).mpr (.inr rfl))
      exact acknowledge_tracked ⟨hrun.role, hrun.write, hrun.found, hflushed, n, hrun.position, hlt,
        .inr ⟨base, rfl, hnext⟩⟩ hrun.position
    · exact tracked_fails closeAndFail_fails
  case some.none =>
    -- the session captured nothing, and the manifest is stored as empty as it was
    refine .perform trivial ?_
    rintro captured _ ⟨hlearn, rfl⟩
    obtain rfl := hlearn.1 hrun.session
    refine (writeManifest_tracked hrun.write (fun k hk => absurd hk not_hasKey_nil)
      (.inr (.inr (.inr ⟨hrun.role, hflushed, hrun.knows, rfl⟩)))).bind ?_
    rintro s' (_ | e) ⟨hstored, -⟩
    · obtain ⟨base, rfl, -⟩ := hstored rfl
      exact acknowledge_tracked ⟨hrun.role, hrun.write, hrun.found, hflushed, n, hrun.position, hlt,
        .inl ⟨h, hrun.session⟩⟩ hrun.position
    · exact tracked_fails closeAndFail_fails
  case none =>
    have hack : ∀ s' files, s.Repairs s' →
        Acknowledging json (acknowledge cfg held h (formatTXID (n + 1)) files) s' := by
      intro s' files hs'
      obtain ⟨hpub, hn⟩ := hrun.published hflushed hlt hs'
      exact acknowledge_tracked hpub hn
    refine rebuildAndStore_tracked hrun.role hrun.write hrun.knows ?_ ?_
    · exact fun s' e hs' => hack s' [] hs'
    rintro s' all (_ | e) hs' -
    · exact hack s' all hs'
    · exact hack s' [] hs'

theorem confirmFlush_tracked (hflushed : s.flushed = true) (hlt : n + 1 < 2 ^ 64) :
    Acknowledging json
      (confirmFlush json cfg held manifest h (formatTXID ((n + 1) % 2 ^ 64))) s := by
  refine (leaseStale_only held).bind_obeys (tracked_keeps (by simp)) fun stale => ?_
  cases stale with
  | true => exact tracked_fails closeAndAbandon_fails
  | false =>
    rw [sessionTXID, Prog.bind_assoc]
    refine .does trivial ?_
    rintro (e | txid)
    · exact tracked_fails closeAndAbandon_fails
    simp only [Prog.pure_eq_done, Prog.done_bind]
    split
    · exact tracked_fails closeAndAbandon_fails
    · next heq =>
      rw [not_not.mp heq, Nat.mod_eq_of_lt hlt]
      exact publish_tracked hrun hflushed hlt

theorem flush_tracked (hflushed : s.flushed = false) :
    Acknowledging json (flush json cfg held manifest h (formatTXID ((n + 1) % 2 ^ 64))) s := by
  have hallow : s.Allows json (.setWriteDisabled h : Op B) := ⟨hflushed, manifest, n, hrun⟩
  rw [flush, disableWrite, Prog.bind_assoc]
  refine .perform hallow ?_
  rintro (_ | e) _ ⟨hlearn, rfl⟩
  · refine confirmFlush_tracked ⟨hrun.role, hrun.write, hrun.found, hrun.session, hrun.position,
      hrun.max, ?_⟩ rfl (hlearn n hrun.position)
    rcases manifest with _ | _ | plan <;> exact hrun.knows
  · exact tracked_fails closeAndFail_fails

theorem commitAndFlush_tracked (hflushed : s.flushed = false) :
    Acknowledging json
      (commitAndFlush json cfg held manifest h (formatTXID ((n + 1) % 2 ^ 64))) s := by
  refine (leaseStale_only held).bind_obeys (tracked_keeps (by simp)) fun stale => ?_
  cases stale with
  | true =>
    exact tracked_fails (.perform rfl fun _ => closeAndAbandon_fails)
  | false =>
    refine .does ⟨hflushed, manifest, n, hrun⟩ ?_
    rintro (_ | e)
    · exact flush_tracked hrun hflushed
    · exact tracked_fails (.perform rfl fun _ => closeAndFail_fails)

end

theorem mutate_tracked (hw : s.Writing) (hsession : s.session = some (h, manifest.join))
    (hknows : s.Knows manifest) : Acknowledging json (mutate json cfg key held manifest h) s := by
  refine .does trivial ?_
  rintro (_ | e)
  · refine .does trivial ?_
    rintro (_ | e)
    · simp only [nextTXID, recordIdempotent, Prog.bind_assoc]
      refine .perform ⟨hw, manifest, hsession, hknows⟩ ?_
      rintro (e | pos) _ ⟨hlearn, rfl⟩
      · exact tracked_fails failTransaction_fails
      have hrun : ({ s with position := some pos } : Track).Running h manifest pos := by
        refine ⟨hw.role, hw.write, hw.found, hsession, rfl, ?_, ?_⟩
        · intro plan hplan
          exact hlearn plan (hplan ▸ hsession)
        · rcases manifest with _ | _ | plan <;> exact hknows
      refine .does ⟨hw.flushed, manifest, pos, hrun, rfl⟩ ?_
      rintro (_ | e)
      · exact commitAndFlush_tracked hrun hw.flushed
      · exact tracked_fails failTransaction_fails
    · exact tracked_fails failTransaction_fails
  · simp only
    split <;> exact tracked_fails failTransaction_fails

theorem repairForRetry_tracked (hrole : s.role = .write) (hwrite : s.write = true) (text : String) :
    (repairForRetry json text).Obeys (tracked json) (fun s' _ => s.Repairs s') s := by
  unfold repairForRetry
  split
  · exact ⟨_, _, _, _, rfl⟩
  · next tx _ =>
    refine readManifest_tracked.bind ?_
    rintro _ res ⟨seen, rfl, hseen⟩
    rw [Track.see_of_write hwrite]
    rcases res with e | m
    · exact ⟨_, _, _, _, rfl⟩
    obtain ⟨rfl, -⟩ := hseen m rfl
    simp only [repairUncovered]
    split
    · exact ⟨_, _, _, _, rfl⟩
    refine rebuildAndStore_tracked (m := m) (s := { s with current := some m }) hrole hwrite
      rfl ?_ ?_
    · rintro _ e ⟨current, levels, listed, stored, rfl⟩
      exact ⟨current, levels, listed, stored, rfl⟩
    · rintro _ all (_ | e) ⟨current, levels, listed, stored, rfl⟩ - <;>
        exact ⟨current, levels, listed, stored, rfl⟩

theorem deduplicate_tracked {t : ℕ} (hrole : s.role = .write) (hwrite : s.write = true)
    (hfound : s.found = some (formatTXID t)) (ht : t < 2 ^ 64) :
    Acknowledging json (deduplicate json held manifest h (formatTXID t)) s := by
  refine .does trivial fun _ => ?_
  refine .does trivial fun _ => ?_
  have hrepair : (if manifest.isSome then repairForRetry json (formatTXID t) else pure none :
      RuntimeM B _).Obeys (tracked json) (fun s' _ => s.Repairs s') s := by
    split
    · exact repairForRetry_tracked hrole hwrite _
    · exact ⟨_, _, _, _, rfl⟩
  refine hrepair.bind ?_
  rintro _ (_ | e) ⟨current, levels, listed, stored, rfl⟩
  · have hparse := parseTXID_formatTXID ht
    refine .does (.inr ⟨hrole, hwrite, _, t, hfound, hparse⟩) ?_
    rintro (_ | e)
    · rintro r ⟨rfl⟩
      refine ⟨t, ?_, ht, rfl⟩
      simp [Track.step, Track.result, hfound, hparse]
    · exact nofun
  · exact tracked_fails failWithLease_fails

section

variable (hw : s.Writing) (hsession : s.session = some (h, manifest.join))
  (hknows : s.Knows manifest)
include hw hsession hknows

theorem lookupIdempotent_tracked :
    (lookupIdempotent key h : RuntimeM B _).Obeys (tracked json) (fun s' res => ∀ txid,
      res = .ok txid → (txid = "" ∧ s' = s) ∨ ∃ t, t < 2 ^ 64 ∧ txid = formatTXID t ∧
        s' = { s with found := some txid, levels := 0, listed := [] }) s := by
  refine .does trivial ?_
  rintro (_ | e)
  · refine .perform ⟨hw, manifest, hsession, hknows⟩ ?_
    rintro (e | _ | text) _ ⟨hlearn, rfl⟩
    · exact nofun
    · rintro _ ⟨rfl⟩
      exact .inl ⟨rfl, rfl⟩
    rintro _ ⟨rfl⟩
    obtain ⟨t, ht, rfl⟩ := hlearn
    exact .inr ⟨t, ht, rfl, rfl⟩
  · exact nofun

theorem transaction_tracked : Acknowledging json (transaction json cfg key held manifest h) s := by
  refine .does trivial ?_
  rintro (_ | e)
  · refine (lookupIdempotent_tracked hw hsession hknows).bind ?_
    rintro s' (e | txid) hfound
    · exact tracked_fails failTransaction_fails
    rcases hfound txid rfl with ⟨rfl, rfl⟩ | ⟨t, ht, rfl, rfl⟩
    · exact mutate_tracked hw hsession hknows
    simp only [if_pos (formatTXID_ne_empty t)]
    exact deduplicate_tracked
      (s := { s with found := some (formatTXID t), levels := 0, listed := [] }) hw.role hw.write
      rfl ht
  · exact tracked_fails (.perform rfl fun _ => failWithLease_fails)

end

theorem repairTail_tracked (hrole : s.role = .write) (hwrite : s.write = true)
    (hknows : s.Finds (some (some files))) :
    (repairTail json files).Obeys (tracked json) (fun s' res => s.Repairs s' ∧ ∀ slice,
      res = .ok slice → s'.Finds (some slice)) s := by
  obtain ⟨hvalid, base, hbase, hkeys⟩ := id hknows
  rw [repairTail, tailTXID, Prog.bind_assoc]
  refine .does trivial ?_
  rintro (e | found)
  · exact ⟨⟨_, _, _, _, rfl⟩, nofun⟩
  simp only [Prog.pure_eq_done, Prog.done_bind]
  split
  · refine rebuildAndStore_tracked hrole hwrite hbase ?_ ?_
    · exact fun s' e hs' => ⟨hs', nofun⟩
    rintro s' all (_ | e) hs' hknows'
    · refine ⟨hs', fun slice hslice => ?_⟩
      cases hslice
      exact hknows' rfl
    · exact ⟨hs', nofun⟩
  · refine ⟨⟨_, _, _, _, rfl⟩, fun slice hslice => ?_⟩
    cases hslice
    exact hknows

theorem planFiles_tracked (hrole : s.role = .write) (hwrite : s.write = true) :
    (planFiles json).Obeys (tracked json) (fun s' res => s.Repairs s' ∧ ∀ manifest,
      res = .ok manifest → s'.Finds manifest) s := by
  refine readManifest_tracked.bind ?_
  rintro _ res ⟨seen, rfl, hseen⟩
  rw [Track.see_of_write hwrite]
  rcases res with e | _ | files
  · exact ⟨⟨_, _, _, _, rfl⟩, nofun⟩
  · refine ⟨⟨_, _, _, _, rfl⟩, fun manifest hmanifest => ?_⟩
    cases hmanifest
    exact (hseen none rfl).1
  obtain ⟨rfl, hvalid, -⟩ := hseen (some files) rfl
  refine (repairTail_tracked (s := { s with current := some (some files) }) hrole hwrite
    ⟨hvalid, files, rfl, fun k => Iff.rfl⟩).bind ?_
  rintro _ (e | slice) ⟨⟨current, levels, listed, stored, rfl⟩, hknows⟩
  · exact ⟨⟨current, levels, listed, stored, rfl⟩, nofun⟩
  refine ⟨⟨current, levels, listed, stored, rfl⟩, fun manifest hmanifest => ?_⟩
  cases hmanifest
  exact hknows slice rfl

theorem attemptWithLease_tracked (hw : s.Writing) (hsession : s.session = none) :
    Acknowledging json (attemptWithLease json cfg key held) s := by
  refine (planFiles_tracked hw.role hw.write).bind ?_
  rintro _ (e | manifest) ⟨⟨current, levels, listed, stored, rfl⟩, hfinds⟩
  · exact tracked_fails failWithLease_fails
  have hfinds := hfinds manifest rfl
  have hw' : ({ s with current, levels, listed, stored } : Track).Writing :=
    ⟨hw.role, hw.write, hw.found, hw.position, hw.flushed⟩
  refine .does ⟨hw', hsession, manifest, rfl, hfinds⟩ ?_
  rintro (e | h)
  · exact tracked_fails failWithLease_fails
  refine transaction_tracked ⟨hw.role, hw.write, hw.found, hw.position, hw.flushed⟩ rfl ?_
  rcases manifest with _ | _ | plan
  · exact hfinds
  · exact decide_eq_true ⟨rfl, hfinds⟩
  · exact hfinds

/-- **A write attempt keeps to the protocol**, and its result is that of its record. -/
theorem withWriteAttempt_tracked :
    Acknowledging json (withWriteAttempt json cfg d key) { role := .write } := by
  refine .does trivial ?_
  rintro (e | _)
  · exact nofun
  have hentry : Acknowledging json (attemptWithEntry json cfg d key) { role := .write } := by
    refine .does ⟨rfl, rfl, rfl, rfl, rfl⟩ ?_
    rintro (e | held)
    · exact nofun
    · exact attemptWithLease_tracked ⟨rfl, rfl, rfl, rfl, rfl⟩ rfl
  refine hentry.bind fun s' res hres => ?_
  refine .does trivial fun _ => ?_
  exact hres

/-! ### Passes -/

/-- A pass on the snapshot `files` that holds the compaction lease and has stored nothing. -/
structure Track.Passing (s : Track) (T : ℤ) (files : List FileInfo) : Prop where
  role : s.role = .compaction T
  pass : s.pass = true
  stored : s.stored = false
  snapshot : s.snapshot = some (some files)
  valid : AllValid files

theorem compactLevels_tracked (count below : ℕ) (c : ManifestClient) (hs : s.Passing T files)
    (hmerging : Merging T files below c.files s.merged)
    (hcount : below + count = compactionTopLevel) :
    (compactLevels T ((List.range' below count).map (· + 1)) c s.merged : RuntimeM B _).Obeys
      (tracked json) (fun s' res => s' = { s with merged := s'.merged } ∧ (res.2 = none →
        s'.merged = res.1 ∧ ∃ client, Merging T files compactionTopLevel client res.1)) s := by
  induction count generalizing below c s with
  | zero =>
    obtain rfl : below = compactionTopLevel := hcount
    exact ⟨rfl, fun _ => ⟨rfl, c.files, hmerging⟩⟩
  | succ count ih =>
    have hcount' : below + 1 + count = compactionTopLevel := by omega
    rw [range'_succ, map_cons, compactLevels, Nat.add_sub_cancel, levelCount_eq_countLTXFiles]
    split
    · next hle => exact ih (below + 1) c hs (hmerging.skip (.inl hle)) hcount'
    · next hgt =>
      have hallow : s.Allows json (.compact (below + 1) c.files : Op B) :=
        ⟨hs.pass, hs.stored, T, files, hs.role, hs.snapshot, hs.valid, below, rfl, by omega,
          hmerging⟩
      refine .perform hallow ?_
      rintro (e | info) s' ⟨hlearn, hs'⟩
      · obtain rfl : s' = s := hs'
        simp only
        split
        · next hnone => exact ih (below + 1) c hs (hmerging.skip (.inr (hlearn hnone))) hcount'
        · exact ⟨rfl, nofun⟩
      · have hmerging' := hmerging.merge (not_le.mp hgt) hlearn.1 hlearn.2
        subst hs'
        refine (ih (s := { s with merged := s.merged ++ [info] }) (below + 1) (c.recordWrite info)
          ⟨hs.role, hs.pass, hs.stored, hs.snapshot, hs.valid⟩ hmerging' hcount').mono ?_
        exact fun s'' res h => h

theorem compactManifest_tracked (hs : s.Passing (effectiveThreshold T) files)
    (hmerged : s.merged = []) :
    (compactManifest files T : RuntimeM B _).Obeys (tracked json) (fun s' res =>
      s' = { s with merged := s'.merged } ∧ ∀ merge, res = .ok merge →
        merge.merged = s'.merged ∧ merge.sources = (supersede files [] s'.merged).2 ∧
          ∃ client,
            Merging (effectiveThreshold T) files compactionTopLevel client s'.merged) s := by
  have hlevels := @compactLevels_tracked B json s files (effectiveThreshold T) compactionTopLevel 0
    (.new files) hs (hmerged ▸ Merging.start) rfl
  rw [hmerged, ← range_eq_range'] at hlevels
  refine hlevels.bind ?_
  rintro s' ⟨merged, _ | e⟩ ⟨hs', hdone⟩
  · obtain ⟨rfl, client, hmerging⟩ := hdone rfl
    refine ⟨hs', ?_⟩
    rintro merge ⟨rfl⟩
    exact ⟨rfl, rfl, client, hmerging⟩
  · exact ⟨hs', nofun⟩

theorem hasKey_olderThan {cutoff : ℤ} {k : FileKey} (hk : HasKey (olderThan cutoff files) k) :
    HasKey files k := by
  obtain ⟨f, hf, rfl⟩ := hasKey_iff.mp hk
  exact hasKey_of_mem (mem_of_mem_filter hf)

/-- A pass on `files` that has stored its manifest and released the write lease. -/
structure Track.Stored (s : Track) (files : List FileInfo) : Prop where
  role : ∃ T, s.role = .compaction T
  pass : s.pass = true
  write : s.write = false
  stored : s.stored = true
  snapshot : s.snapshot = some (some files)

theorem deleteFiles_tracked (hs : s.Stored files) (retention : ℤ) :
    (deleteFiles (supersede files [] s.merged).2 retention : RuntimeM B _).Obeys (tracked json)
      (fun s' _ => s' = s) s := by
  unfold deleteFiles
  split
  · rfl
  refine .does trivial fun now => ?_
  generalize (now - if retention < 0 then 0 else retention) = cutoff
  simp only
  split
  · rfl
  refine Prog.obeys_perform.mpr ⟨⟨hs.pass, hs.write, hs.stored, hs.role, fun _ =>
    ⟨files, hs.snapshot, fun k hk => hasKey_olderThan hk⟩⟩, ?_⟩
  rintro r s' ⟨-, hs'⟩
  exact hs'

theorem gc_tracked (hs : s.Stored files) (retention : ℤ) :
    (gc json retention).Obeys (tracked json)
      (fun s' _ => ∃ levels listed, s' = { s with levels, listed }) s := by
  refine readManifest_tracked.bind ?_
  rintro _ res ⟨seen, rfl, -⟩
  have hsee : s.see seen = s := by simp [Track.see, hs.write, hs.pass]
  rw [hsee]
  rcases res with e | _ | active
  · exact ⟨_, _, rfl⟩
  · exact ⟨_, _, rfl⟩
  refine rebuildManifest_tracked.bind ?_
  rintro _ (e | all) ⟨⟨levels, listed, rfl⟩, -⟩
  · exact ⟨levels, listed, rfl⟩
  refine .does trivial fun now => ?_
  generalize (now - if retention < 0 then 0 else retention) = cutoff
  simp only
  split
  · exact ⟨levels, listed, rfl⟩
  refine Prog.obeys_perform.mpr ⟨⟨hs.pass, hs.write, hs.stored, hs.role, nofun⟩, ?_⟩
  rintro r _ ⟨-, rfl⟩
  exact ⟨levels, listed, rfl⟩

theorem finishPass_tracked (hs : s.Stored files) :
    (finishPass json cfg (supersede files [] s.merged).2).Keeps (tracked json) s := by
  refine (deleteFiles_tracked hs _).bind ?_
  rintro s _ rfl
  refine .does trivial fun passes => ?_
  split
  · exact (gc_tracked hs _).bind fun _ _ _ => trivial
  · trivial

theorem applyMerge_tracked {merge : Compaction} {client : List FileInfo} (hs : s.Passing T files)
    (hwrite : s.write = true) (hmerged : merge.merged = s.merged)
    (hsources : merge.sources = (supersede files [] s.merged).2)
    (hmerging : Merging T files compactionTopLevel client s.merged) :
    (applyMerge json cfg files merge held).Keeps (tracked json) s := by
  refine readManifest_tracked.bind ?_
  rintro _ res ⟨seen, rfl, hseen⟩
  rw [Track.see_of_write hwrite]
  rcases res with e | _ | base
  · exact .perform trivial fun _ _ _ => trivial
  · -- the snapshot was read from a manifest, and manifests are never removed
    exact absurd hs.snapshot ((hseen none rfl).2.1 files)
  obtain ⟨rfl, hbase, -⟩ := hseen (some base) rfl
  have hvalid : AllValid (applyManifestDelta base s.merged merge.sources) :=
    applyManifestDelta_valid hbase (hmerging.valid hs.valid (by decide)).2
  rw [hmerged]
  refine (writeManifest_tracked (s := { s with current := some (some base) }) hwrite hvalid
    (.inr (.inr (.inl ⟨hs.pass, T, files, base, client, hs.role, hs.snapshot, rfl, hs.valid,
      hbase, hmerging, by rw [hsources]⟩)))).bind ?_
  rintro s' stored ⟨hstored, -⟩
  refine .does trivial fun released => ?_
  cases stored with
  | some e => trivial
  | none =>
    obtain ⟨base', rfl, -⟩ := hstored rfl
    simp only [hsources]
    exact finishPass_tracked
      (s := { s with current := some (some base'), stored := true, write := false })
      ⟨⟨T, hs.role⟩, hs.pass, rfl, rfl, hs.snapshot⟩

theorem mergeSnapshot_tracked (hs : s.Passing (effectiveThreshold cfg.compaction.threshold) files)
    (hmerged : s.merged = []) (hunlocked : s.Unlocked) :
    (mergeSnapshot json cfg d files).Keeps (tracked json) s := by
  refine (compactManifest_tracked hs hmerged).bind ?_
  rintro s' (e | merge) ⟨hs', hmerge⟩
  · trivial
  obtain ⟨hm, hsources, client, hmerging⟩ := hmerge merge rfl
  simp only
  split
  · trivial
  have hallow : s'.Unlocked := by
    rw [hs']
    exact ⟨hunlocked.write, hunlocked.current, hunlocked.levels, hunlocked.found, hunlocked.flushed⟩
  refine .does hallow ?_
  rintro (e | writeHeld)
  · trivial
  rw [hs'] at hm hsources hmerging ⊢
  exact applyMerge_tracked (s := { s with merged := s'.merged, write := true })
    ⟨hs.role, hs.pass, hs.stored, hs.snapshot, hs.valid⟩ rfl hm hsources hmerging

/-- **A compaction pass keeps to the protocol.** -/
theorem runCompaction_tracked :
    (runCompaction json cfg d).Keeps (tracked json)
      { role := .compaction (effectiveThreshold cfg.compaction.threshold) } := by
  have hpass : (compactDatabase json cfg d).Keeps (tracked json)
      { role := .compaction (effectiveThreshold cfg.compaction.threshold) } := by
    refine readManifest_tracked.bind ?_
    rintro _ res ⟨seen, rfl, hseen⟩
    rcases res with e | _ | _ | ⟨f, files⟩
    · trivial
    · trivial
    · trivial
    · obtain ⟨rfl, hvalid, -⟩ := hseen _ rfl
      refine .does trivial ?_
      rintro (e | held)
      · trivial
      refine (mergeSnapshot_tracked ⟨rfl, rfl, rfl, rfl, hvalid⟩ rfl
        ⟨rfl, rfl, rfl, rfl, rfl⟩).bind fun _ _ _ => ?_
      exact .perform trivial fun _ _ _ => trivial
  refine .does trivial ?_
  rintro (e | _)
  · exact ⟨trivial, fun _ _ _ => trivial⟩
  · refine hpass.bind fun _ _ _ => ?_
    exact ⟨trivial, fun _ _ _ => ⟨trivial, fun _ _ _ => trivial⟩⟩

/-! ### Reads -/

theorem probeLevels_tracked (levels : List ℕ) :
    (probeLevels levels : RuntimeM B _).Obeys (tracked json) (fun s' res =>
      s' = { s with empty := s'.empty } ∧ s.empty ⊆ s'.empty ∧
        (res = .ok false → levels ⊆ s'.empty)) s := by
  induction levels generalizing s with
  | nil => exact ⟨rfl, fun _ h => h, fun _ => nil_subset _⟩
  | cons level levels ih =>
    refine .does trivial ?_
    rintro (e | found)
    · exact ⟨rfl, fun _ h => h, nofun⟩
    by_cases hempty : found.isEmpty = true
    · have hstep : s.step json (.ltxFiles .probe level) (.ok found) =
          { s with empty := level :: s.empty } := if_pos hempty
      rw [hstep]
      simp only [if_pos hempty]
      refine (ih (s := { s with empty := level :: s.empty })).mono ?_
      rintro s' res ⟨hs', hsub, hall⟩
      refine ⟨hs', fun l hl => hsub (mem_cons_of_mem _ hl), fun hres => ?_⟩
      exact cons_subset.mpr ⟨hsub mem_cons_self, hall hres⟩
    · have hstep : s.step json (.ltxFiles .probe level) (.ok found) = s := if_neg hempty
      rw [hstep]
      simp only [if_neg hempty]
      exact ⟨rfl, fun _ h => h, nofun⟩

theorem withEmptyRead_tracked (hrole : s.role = .read) (hempty : s.snapshot = some (some []) ∨
      s.snapshot = some none ∧ ∀ level ≤ snapshotLevel, level ∈ s.empty) :
    (withEmptyRead : RuntimeM B _).Keeps (tracked json) s := by
  refine .does trivial ?_
  rintro (_ | e)
  · exact Prog.obeys_perform.mpr ⟨⟨hrole, hempty⟩, fun _ _ _ => trivial⟩
  · trivial

theorem openAndRun_tracked (hrole : s.role = .read) (hm : s.snapshot = some m) :
    (openAndRun m : RuntimeM B _).Keeps (tracked json) s := by
  refine .does ⟨hrole, hm⟩ ?_
  rintro (e | h)
  · trivial
  refine .does ⟨hrole, .inr rfl⟩ ?_
  rintro (_ | e)
  · exact .perform ⟨hrole, rfl⟩ fun _ _ _ => trivial
  · exact .perform trivial fun _ _ _ => trivial

theorem readFresh_tracked (hrole : s.role = .read) (hwrite : s.write = false)
    (hpass : s.pass = false) : (readFresh json).Keeps (tracked json) s := by
  refine readManifest_tracked.bind ?_
  rintro _ res ⟨seen, rfl, hseen⟩
  have hsee : s.see seen = { s with snapshot := seen } := by simp [Track.see, hwrite, hpass]
  rw [hsee]
  rcases res with e | _ | _ | ⟨f, files⟩
  · trivial
  · obtain ⟨rfl, -⟩ := hseen _ rfl
    rw [hasLTX, Prog.bind_assoc]
    refine .does trivial ?_
    rintro (_ | e)
    · refine (probeLevels_tracked _).bind ?_
      rintro s' (e | _ | _) ⟨hs', -, hall⟩
      · trivial
      · refine withEmptyRead_tracked (hs' ▸ hrole) (.inr ⟨hs' ▸ rfl, fun level hlevel => ?_⟩)
        have hmem : ∀ level ≤ snapshotLevel,
            level ∈ [0, snapshotLevel, 1, 2, 3, 4, 5, 6, 7, 8] := by
          decide
        exact hall rfl (hmem level hlevel)
      · exact openAndRun_tracked (hs' ▸ hrole) (hs' ▸ rfl)
    · trivial
  · obtain ⟨rfl, -⟩ := hseen _ rfl
    exact withEmptyRead_tracked hrole (.inl rfl)
  · obtain ⟨rfl, -⟩ := hseen _ rfl
    exact openAndRun_tracked hrole rfl

/-- **A read keeps to the protocol.** -/
theorem withRead_tracked (identity : Option Err) :
    (withRead json d identity).Keeps (tracked json) { role := .read } := by
  have hread : (readWithEntry json).Keeps (tracked json) { role := .read } := by
    refine .does trivial ?_
    rintro (_ | h)
    · exact readFresh_tracked rfl rfl rfl
    refine .does ⟨rfl, .inl rfl⟩ ?_
    rintro (_ | e)
    · trivial
    refine .does nofun fun _ => ?_
    split
    · exact readFresh_tracked rfl rfl rfl
    · trivial
  cases identity with
  | some e => trivial
  | none =>
    refine .does trivial ?_
    rintro (e | _)
    · trivial
    · refine hread.bind fun _ _ _ => ?_
      exact .perform trivial fun _ _ _ => trivial

end Programs

end Walrusd.Runtime
