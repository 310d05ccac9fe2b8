import Walrusd.Runtime.Durability
import Walrusd.Runtime.Read

/-!
# Recovering from a lost manifest

The manifest is meant to be an index that can be derived from the replica at any time. One write
attempt and one read run here on a replica with any files and any manifest object, and every call
of the object store succeeds.

A manifest that lags behind the level-0 files is rebuilt before the session is opened, and without a
manifest a session is opened on a listing. But a manifest object that does not decode is an error
for writes and for reads, and nothing ever replaces it. And a replica without a manifest stays
without one when the next acknowledged write is a retry of a recorded key.

## Main definitions

* `Recovery`, `recovering` — an attempt with a working object store.
* `Derived` — what a derived index promises.
* `Relists`, `RelistsNext` — rebuilding succeeds, now and after the next write.

## Main results

* `derived_iff` — when a damaged manifest is recovered from.
* `undecodable_stuck` — no session is opened.
-/

namespace Walrusd.Runtime

open Program Litestream Function List Option

variable {B : Type}

/-! ### Runs with a working object store -/

/-- The calls of the object store succeed; reading the manifest fails only for want of one. -/
def Succeeds : (c : Op B) → Resp c → Prop
  | .manifestGet, .error e => e.is .manifestNotFound = true
  | .manifestPut _, some _ | .initReplica, some _ | .setWriteDisabled _, some _ => False
  | .openWrite _, .error _ | .openRead _, .error _ | .ltxFiles _ _, .error _ => False
  | _, _ => True

/-- The storage, and what a program has done: the registry or the lease refused it, it has read the
manifest, and it has opened a session on a file list or, with `none`, on a listing. -/
structure Recovery (B : Type) where
  storage : Storage B
  refused : Bool
  asked : Bool
  opened : Option (Option (List FileInfo))

namespace Recovery

/-- Nothing has been done. -/
def start (rep : Replica B) : Recovery B := ⟨.initial rep, false, false, none⟩

/-- The record after an answer. -/
def step (g : Recovery B) (st : Storage B) : (c : Op B) → Resp c → Recovery B
  | .database, .error _ | .acquire _ _, .error _ => { g with storage := st, refused := true }
  | .manifestGet, _ => { g with storage := st, asked := true }
  | .openWrite files, _ | .openRead files, _ =>
    { g with storage := st, opened := g.opened.or (some files) }
  | _, _ => { g with storage := st }

@[simp] theorem storage_step (g : Recovery B) (st : Storage B) (c : Op B) (r : Resp c) :
    (g.step st c r).storage = st := by
  cases c with
  | database | acquire => cases r <;> rfl
  | _ => rfl

variable {g : Recovery B} {rep : Replica B}

theorem refused_step (h : g.refused = true) (st : Storage B) (c : Op B) (r : Resp c) :
    (g.step st c r).refused = true := by
  cases c with
  | database | acquire => cases r <;> first | exact h | exact rfl
  | _ => exact h

/-- The first session counts. -/
theorem opened_step {files : Option (List FileInfo)} (h : g.opened = some files) (st : Storage B)
    (c : Op B) (r : Resp c) : (g.step st c r).opened = some files := by
  cases c with
  | database | acquire => cases r <;> exact h
  | openWrite | openRead => simp [Recovery.step, h]
  | _ => exact h

/-- The attempt was refused, or its session is on a list that reaches as far as every level-0 file
of the replica `rep`. -/
def Reaches (g : Recovery B) (rep : Replica B) : Prop :=
  g.refused = true ∨ ∃ files, g.opened = some files ∧
    ∀ k, HasKey rep.infos k → k.level = 0 → k.maxTXID ≤ manifestMaxTXID (files.getD rep.infos)

theorem Reaches.step (h : g.Reaches rep) (st : Storage B) (c : Op B) (r : Resp c) :
    (g.step st c r).Reaches rep := by
  rcases h with h | ⟨files, hopened, hmax⟩
  · exact .inl (refused_step h st c r)
  · exact .inr ⟨files, opened_step hopened st c r, hmax⟩

end Recovery

/-- The calls that change nothing and are not recorded. -/
def Op.unrecorded (c : Op B) : Bool :=
  !c.alters && match c with
    | .database | .acquire _ _ | .manifestGet => false
    | _ => true

/-- Programs with a working object store; new files have times that the clock can show. -/
def recovering (timely : ℤ → Prop) : Protocol (Op B) Resp (Recovery B) where
  allow _ _ := True
  next g c r g' := ∃ st, g.storage.Serves c r st ∧ Succeeds c r ∧ g' = g.step st c r ∧
    ∀ f ∈ st.replica.infos, f ∈ g.storage.replica.infos ∨ timely f.createdAt

/-- What `BuildManifest` has collected when it has listed the levels below `level`. -/
inductive Listed (infos : List FileInfo) : ℕ → List FileInfo → Prop
  | start : Listed infos 0 []
  | level {level files found} (h : Listed infos level files)
      (hfound : ∀ f, f ∈ found ↔ f ∈ infos ∧ f.level = level) :
      Listed infos (level + 1) (files ++ found)

theorem Listed.hasKey_iff {infos files : List FileInfo} {level : ℕ} (h : Listed infos level files)
    (k : FileKey) : HasKey files k ↔ HasKey infos k ∧ k.level < level := by
  induction h with
  | start => simp
  | @level level files found h hfound ih =>
    rw [hasKey_append, ih, hasKey_level hfound, Nat.lt_succ_iff_lt_or_eq]
    tauto

/-- Whatever `BuildManifest` returns for these files can be marshalled. -/
def Relists (json : ManifestJson B) (infos : List FileInfo) : Prop :=
  ∀ files, Listed infos (snapshotLevel + 1) files → ∃ data, encodeManifest json files = .ok data

/-- The stored manifest decodes and names every level-0 file. -/
def Indexed (json : ManifestJson B) (rep : Replica B) : Prop :=
  ∃ data files, rep.manifest = some data ∧ decodeManifest json data = .ok files ∧
    ∀ k, HasKey rep.infos k → k.level = 0 → HasKey files k

/-- There is no manifest that decodes. -/
def Unreadable (json : ManifestJson B) (rep : Replica B) : Prop :=
  ∀ data files, rep.manifest = some data → decodeManifest json data ≠ .ok files

/-- What a derived index promises for a replica: an attempt opens its session on a list that reaches
as far as every level-0 file, if it succeeds then the manifest decodes and names every level-0 file,
and when there is no manifest that decodes then a read opens its session on a listing, unless there
is no file. -/
structure Derived (json : ManifestJson B) (timely : ℤ → Prop) (cfg : Config) (d : Descriptor)
    (key : String) (rep : Replica B) : Prop where
  write : (withWriteAttempt json cfg d key).Obeys (recovering timely) (fun g res =>
    g.Reaches rep ∧ ∀ r, res = .ok r → Indexed json g.storage.replica) (.start rep)
  read : Unreadable json rep → (withRead json d none).Obeys (recovering timely) (fun g _ =>
    g.refused = true ∨ g.asked = false ∨ g.opened = some none ∨ rep.infos = []) (.start rep)

/-! ### Stages of a write attempt -/

/-- The result of an attempt that started on `rep₀`. -/
def Heals (json : ManifestJson B) (rep₀ : Replica B) (g : Recovery B)
    (res : Except Err WriteResult) : Prop :=
  g.Reaches rep₀ ∧ ∀ r, res = .ok r → Indexed json g.storage.replica

/-- The program upholds `Q` from the record `g` on. -/
abbrev Upholds {α : Type} (timely : ℤ → Prop) (Q : Recovery B → α → Prop) (p : RuntimeM B α)
    (g : Recovery B) : Prop :=
  p.Obeys (recovering timely) Q g

/-- From the record `g` on, an attempt that started on `rep₀` heals it. -/
abbrev Mends (json : ManifestJson B) (timely : ℤ → Prop) (rep₀ : Replica B)
    (p : RuntimeM B (Except Err WriteResult)) (g : Recovery B) : Prop :=
  Upholds timely (Heals json rep₀) p g

/-- The attempt runs on the session `s`, opened on the file list `manifest`: what the session has
captured names every level-0 file. -/
structure Ready (manifest : Option Slice) (s : Sess) (st : Storage B) : Prop where
  valid : AllValid st.replica.infos
  session : ∃ ses, st.sessions s = some ses ∧
    (manifest = none ∧ ses.captured = false ∨ ∃ plan, manifest = some (some plan) ∧
      ses.captured = true ∧ AllValid ses.client.files ∧
      ∀ k, HasKey st.replica.infos k → k.level = 0 → HasKey ses.client.files k)

section Stages

variable {json : ManifestJson B} {cfg : Config} {d : Descriptor} {key : String}
  {held : Lease.Held} {s : Sess} {rep₀ : Replica B} {g : Recovery B} {manifest : Option Slice}
  {α : Type} {Q : Recovery B → α → Prop} {timely : ℤ → Prop}
variable {c : Op B}

theorem heals_of_fails {p : RuntimeM B (Except Err WriteResult)} (hp : Fails p)
    (h : g.Reaches rep₀) : Mends json timely rep₀ p g := by
  obtain ⟨-, hfails⟩ := hp
  induction p generalizing g with
  | done res =>
    obtain ⟨e, rfl⟩ := hfails
    exact ⟨h, by rintro _ ⟨⟩⟩
  | call c k ih =>
    refine ⟨trivial, ?_⟩
    rintro r _ ⟨st, -, -, rfl, -⟩
    exact ih r (h.step st c r) (hfails r)

theorem heals_of_only {p : RuntimeM B (Except Err WriteResult)}
    (honly : p.Only fun c => c.touches = false) (h : g.Reaches rep₀)
    (hindexed : Indexed json g.storage.replica) : Mends json timely rep₀ p g := by
  induction p generalizing g with
  | done res => exact ⟨h, fun _ _ => hindexed⟩
  | call c k ih =>
    refine ⟨trivial, ?_⟩
    rintro r _ ⟨st, hserves, -, rfl, -⟩
    refine ih r (honly.2 r) (h.step st c r) ?_
    rw [Recovery.storage_step, hserves.1.replica_eq honly.1]
    exact hindexed

theorem recovering_quiet {r : Resp c} {g' : Recovery B} (hc : c.unrecorded = true)
    (h : (recovering timely).next g c r g') :
    g' = g ∧ g.storage.Serves c r g.storage ∧ Succeeds c r := by
  obtain ⟨st, hserves, hsucceeds, rfl, -⟩ := h
  cases c with
  | database | acquire | manifestGet | manifestPut | deleteLTXFiles | compact | openWrite | openRead
  | insertKey | commit | rollback | setWriteDisabled | closeSession | closeRead => cases hc
  | _ =>
    obtain rfl := hserves.1.eq_of_alters rfl
    exact ⟨rfl, hserves, hsucceeds⟩

theorem recovering_quiet_call {f : Resp c → RuntimeM B α} (hc : c.unrecorded = true)
    (hf : ∀ r, g.storage.Serves c r g.storage ∧ Succeeds c r → Upholds timely Q (f r) g) :
    Upholds timely Q (ask c >>= f) g := by
  refine .perform trivial fun r g' hnext => ?_
  obtain ⟨rfl, hanswer⟩ := recovering_quiet hc hnext
  exact hf r hanswer

theorem recovering_quiet_stage {β : Type} {p : RuntimeM B β} {f : β → RuntimeM B α}
    (honly : p.Only fun c => c.unrecorded = true) (hf : ∀ b, Upholds timely Q (f b) g) :
    Upholds timely Q (p >>= f) g :=
  honly.bind_obeys (fun _ hc => ⟨trivial, fun _ _ hnext => (recovering_quiet hc hnext).1⟩) hf

/-! ### Listings and the manifest -/

theorem rebuildManifest_recovering {f : Except Err (List FileInfo) → RuntimeM B α}
    (hok : ∀ files, Listed g.storage.replica.infos (snapshotLevel + 1) files →
      Upholds timely Q (f (.ok files)) g) : Upholds timely Q (rebuildManifest >>= f) g := by
  refine Prog.Obeys.bind (rebuildManifest_obeys (Q := fun g' res => g' = g ∧ ∃ files,
    res = .ok files ∧ Listed g.storage.replica.infos (snapshotLevel + 1) files)
    (fun level files g' => g' = g ∧ Listed g.storage.replica.infos level files) ?_ ?_ ?_ ?_ ?_) ?_
  · exact ⟨rfl, .start⟩
  · exact fun _ _ _ _ => trivial
  · intro level files _ e _ _ hnext
    exact (recovering_quiet rfl hnext).2.2.elim
  · rintro level files _ found _ ⟨rfl, hfiles⟩ hnext
    obtain ⟨rfl, ⟨-, hcurrent⟩, -⟩ := recovering_quiet rfl hnext
    exact ⟨rfl, hfiles.level hcurrent⟩
  · rintro files _ ⟨rfl, hfiles⟩
    exact ⟨rfl, files, rfl, hfiles⟩
  · rintro _ _ ⟨rfl, files, rfl, hfiles⟩
    exact hok files hfiles

/-- A rebuilt list names the files of a valid replica. -/
theorem Listed.names {infos files : List FileInfo} (h : Listed infos (snapshotLevel + 1) files)
    (hvalid : AllValid infos) (k : FileKey) : HasKey files k ↔ HasKey infos k := by
  rw [h.hasKey_iff, and_iff_left_iff_imp]
  exact fun hk => Nat.lt_succ_of_le (hvalid k hk).1

/-- The record after a manifest was stored. -/
def Recovery.store (g : Recovery B) (data : B) : Recovery B :=
  { g with storage := { g.storage with replica := g.storage.replica.store data } }

theorem writeManifest_recovering {f : Option Err → RuntimeM B α} {files : List FileInfo}
    (hvalid : AllValid files)
    (herror : ∀ e, encodeManifest json files = .error e → Upholds timely Q (f (some e)) g)
    (hkeys : ∀ k, HasKey g.storage.replica.infos k → k.level = 0 → HasKey files k)
    (hf : ∀ data, Indexed json (g.store data).storage.replica →
      Upholds timely Q (f none) (g.store data)) :
    Upholds timely Q (writeManifest json files >>= f) g := by
  rw [writeManifest]
  cases hdata : encodeManifest json files with
  | error e => exact herror e hdata
  | ok data =>
    obtain ⟨decoded, hdecoded, -, hsame⟩ := decodeManifest_encodeManifest json hvalid hdata
    refine .perform trivial ?_
    rintro (_ | e) _ ⟨st, ⟨hst, -⟩, hsucceeds, rfl, -⟩
    · obtain rfl := hst
      refine hf data ⟨data, decoded, rfl, hdecoded, fun k hk hlevel => ?_⟩
      exact (hsame k).mpr (hkeys k hk hlevel)
    · exact hsucceeds.elim

theorem readManifest_recovering {f : Except Err (Option (List FileInfo)) → RuntimeM B α}
    (hnone : g.storage.replica.manifest = none →
      Upholds timely Q (f (.ok none)) { g with asked := true })
    (hsome : ∀ data files, g.storage.replica.manifest = some data →
      decodeManifest json data = .ok files →
      Upholds timely Q (f (.ok (some files))) { g with asked := true })
    (herror : ∀ data e, g.storage.replica.manifest = some data →
      decodeManifest json data = .error e →
      Upholds timely Q (f (.error e)) { g with asked := true }) :
    Upholds timely Q (readManifest json >>= f) g := by
  rw [readManifest, Prog.bind_assoc]
  refine .perform trivial ?_
  rintro (e | data) _ ⟨st, ⟨⟨rfl, hmanifest⟩, -⟩, hsucceeds, rfl, -⟩
  · simp only [if_pos (show e.is .manifestNotFound = true from hsucceeds)]
    exact hnone (hmanifest hsucceeds)
  cases hdecode : decodeManifest json data with
  | error e =>
    simp only [hdecode]
    exact herror data e hmanifest hdecode
  | ok files =>
    simp only [hdecode]
    exact hsome data files hmanifest hdecode

/-! ### The transaction -/

section

variable {st : Storage B} {ses x : Session} (h : Ready manifest s st)
  (hses : st.sessions s = some ses)
include h hses

/-- The transaction keeps what the attempt knows. -/
theorem Ready.setSession (hclient : x.client = ses.client) (hcaptured : x.captured = ses.captured) :
    Ready manifest s (st.setSession s (some x)) := by
  obtain ⟨ses', hses', hfrom⟩ := h.session
  obtain rfl := some.inj (hses'.symm.trans hses)
  refine ⟨h.valid, x, update_self .., ?_⟩
  rw [hclient, hcaptured]
  exact hfrom

/-- The flushed file is in the replica, and the session has captured it. -/
theorem Ready.flush {info : FileInfo} (hlands : ses.Lands info) :
    Ready manifest s (st.flush s ses info) := by
  have hnew : info.key.Valid := by
    rw [hlands.2]
    exact ⟨Nat.zero_le _, Nat.succ_pos _, le_rfl⟩
  obtain ⟨ses', hses', hfrom⟩ := h.session
  obtain rfl := some.inj (hses'.symm.trans hses)
  refine ⟨fun k hk => ?_, _, update_self .., hfrom.imp_right ?_⟩
  · rcases Replica.hasKey_put.mp hk with hk | rfl
    · exact h.valid k hk
    · exact hnew
  rintro ⟨plan, hplan, hcaptured, hvalid, hkeys⟩
  refine ⟨plan, hplan, hcaptured, fun k hk => ?_, fun k hk hlevel => ?_⟩
  · rcases ManifestClient.hasKey_recordWrite.mp hk with hk | rfl
    · exact hvalid k hk
    · exact hnew
  · refine ManifestClient.hasKey_recordWrite.mpr ?_
    exact (Replica.hasKey_put.mp hk).imp_left fun hk => hkeys k hk hlevel

end

/-- Storing the index of the flushed session, and the acknowledgement. -/
theorem publish_recovering (hlists : manifest = none → Relists json g.storage.replica.infos)
    (h : Ready manifest s g.storage) (hreaches : g.Reaches rep₀) (txid : String) :
    Mends json timely rep₀ (publish json cfg held manifest s txid) g := by
  have hack (files : List FileInfo) :
      (acknowledge cfg held s txid files : RuntimeM B _).Only fun c => c.touches = false := by
    refine .perform rfl fun _ => .perform rfl fun _ =>
      .perform rfl ?_
    rintro (_ | e)
    · refine ((enqueueCompaction_only files).mono fun c hc => ?_).bind fun _ => trivial
      exact Op.touches_of_kind hc rfl
    · trivial
  have hstored (data : B) : (g.store data).Reaches rep₀ := hreaches
  obtain ⟨ses, hses, ⟨rfl, -⟩ | ⟨plan, rfl, hcaptured, hvalid, hkeys⟩⟩ := h.session
  · refine rebuildManifest_recovering fun files hfiles => ?_
    have hnames := hfiles.names h.valid
    refine writeManifest_recovering (fun k hk => h.valid k ((hnames k).mp hk)) (fun e he => ?_)
      (fun k hk _ => (hnames k).mpr hk) ?_
    · obtain ⟨data, hdata⟩ := hlists rfl files hfiles
      rw [hdata] at he
      cases he
    · exact fun data hindexed => heals_of_only (hack files) (hstored data) hindexed
  · refine recovering_quiet_call rfl ?_
    rintro captured ⟨⟨⟨-, ses', hses', hfiles⟩, -⟩, -⟩
    cases hses'.symm.trans hses
    rw [if_pos hcaptured] at hfiles
    subst hfiles
    refine writeManifest_recovering hvalid (fun e _ => ?_) hkeys ?_
    · exact heals_of_fails closeAndFail_fails hreaches
    · exact fun data hindexed => heals_of_only (hack _) (hstored data) hindexed

theorem infos_put_rows (rep : Replica B) (info : FileInfo) (rows : List Row) :
    (rep.put ⟨info, []⟩).infos = (rep.put ⟨info, rows⟩).infos := by
  simp [Replica.infos, Replica.put]

/-- Without a manifest, what a flush of the session leaves can be rebuilt. -/
def Flushes (json : ManifestJson B) (timely : ℤ → Prop) (manifest : Option Slice) (s : Sess)
    (st : Storage B) : Prop :=
  manifest = none → ∀ ses info, st.sessions s = some ses → ses.Lands info →
    (info ∈ st.replica.infos ∨ timely info.createdAt) →
    Relists json (st.replica.put ⟨info, []⟩).infos

theorem Flushes.setSession {st : Storage B} {ses x : Session}
    (h : Flushes json timely manifest s st) (hses : st.sessions s = some ses)
    (hclient : x.client = ses.client) :
    Flushes json timely manifest s (st.setSession s (some x)) := by
  intro hnone ses' info hses' hlands
  obtain rfl := some.inj (hses'.symm.trans (update_self ..))
  refine h hnone ses info hses ?_
  rwa [Session.Lands, Session.nextFile, Session.pos, ← hclient]

theorem leaseStale_unrecorded :
    (leaseStale cfg held : RuntimeM B _).Only fun c => c.unrecorded = true := by
  refine (leaseStale_only held).mono fun c hc => ?_
  cases c with
  | lost | expiresAt | now | ctxErr => rfl
  | _ => cases hc

section

variable (h : Ready manifest s g.storage) (hreaches : g.Reaches rep₀)
include h hreaches

theorem confirmFlush_recovering (hlists : manifest = none → Relists json g.storage.replica.infos)
    (next : String) : Mends json timely rep₀ (confirmFlush json cfg held manifest s next) g := by
  refine recovering_quiet_stage leaseStale_unrecorded fun stale => ?_
  cases stale with
  | true => exact heals_of_fails closeAndAbandon_fails hreaches
  | false =>
    have htxid : (sessionTXID s : RuntimeM B _).Only fun c => c.unrecorded = true := by
      refine .perform rfl ?_
      rintro (e | txid) <;> trivial
    refine recovering_quiet_stage htxid ?_
    rintro (e | txid)
    · exact heals_of_fails closeAndAbandon_fails hreaches
    simp only
    split
    · exact heals_of_fails closeAndAbandon_fails hreaches
    · exact publish_recovering hlists h hreaches txid

theorem commitAndFlush_recovering (hflushes : Flushes json timely manifest s g.storage)
    (next : String) : Mends json timely rep₀ (commitAndFlush json cfg held manifest s next) g := by
  refine recovering_quiet_stage leaseStale_unrecorded fun stale => ?_
  cases stale with
  | true =>
    exact heals_of_fails (.perform rfl fun _ => closeAndAbandon_fails) hreaches
  | false =>
    refine .perform trivial ?_
    rintro (_ | e) _ ⟨st, hserves, -, rfl, -⟩
    · obtain ⟨⟨ses, hses, rfl⟩, -⟩ := hserves
      have hready := h.setSession hses (x := { ses with committed := true }) rfl rfl
      have hflushes' := hflushes.setSession hses (x := { ses with committed := true }) rfl
      refine .perform trivial ?_
      rintro (_ | e) _ ⟨st', hserves', hsucceeds', rfl, htimely⟩
      · obtain ⟨⟨ses', info, hses', -, hlands, rfl⟩, -⟩ := hserves'
        refine confirmFlush_recovering (hready.flush hses' hlands)
          ((hreaches.step ..).step ..) (fun hnone => ?_) next
        have hlists := hflushes' hnone ses' info hses' hlands
          (htimely info (List.mem_map_of_mem (Replica.mem_put.mpr (.inr rfl))))
        rwa [infos_put_rows _ _ ses'.staged] at hlists
      · exact hsucceeds'.elim
    · exact heals_of_fails (.perform rfl fun _ => closeAndFail_fails) (hreaches.step ..)

theorem mutate_recovering (hflushes : ∀ ses, g.storage.sessions s = some ses →
      ses.row key = none → Flushes json timely manifest s g.storage) :
    Mends json timely rep₀ (mutate json cfg key held manifest s) g := by
  refine recovering_quiet_call rfl ?_
  rintro (_ | e) -
  · refine recovering_quiet_call rfl ?_
    rintro (_ | e) -
    · have hpos : (nextTXID s : RuntimeM B _).Only fun c => c.unrecorded = true := by
        refine .perform rfl ?_
        rintro (e | n) <;> trivial
      refine recovering_quiet_stage hpos ?_
      rintro (e | next)
      · exact heals_of_fails failTransaction_fails hreaches
      refine .perform trivial ?_
      rintro (_ | e) _ ⟨st, hserves, -, rfl, -⟩
      · obtain ⟨⟨ses, hses, hrow, rfl⟩, -⟩ := hserves
        exact commitAndFlush_recovering (h.setSession hses (x := ses.stage _ _) rfl rfl)
          (hreaches.step ..)
          ((hflushes ses hses hrow).setSession hses (x := ses.stage _ _) rfl) next
      · exact heals_of_fails failTransaction_fails (hreaches.step ..)
    · exact heals_of_fails failTransaction_fails hreaches
  · simp only
    split <;> exact heals_of_fails failTransaction_fails hreaches

end

section

variable (hvalid : AllValid g.storage.replica.infos) (hreaches : g.Reaches rep₀)
  (hindexed : Indexed json g.storage.replica)
include hvalid hreaches hindexed

theorem repairForRetry_recovering {f : Option Err → RuntimeM B (Except Err WriteResult)}
    (text : String) (hf : ∀ err, (f err).Only fun c => c.touches = false) :
    Mends json timely rep₀ (repairForRetry json text >>= f) g := by
  unfold repairForRetry
  split
  · exact heals_of_only (hf none) hreaches hindexed
  rw [Prog.bind_assoc]
  refine readManifest_recovering (fun hnone => ?_) (fun data files _ _ => ?_)
    fun data e hdata hdecode => ?_
  · obtain ⟨data, -, hdata, -⟩ := hindexed
    rw [hnone] at hdata
    cases hdata
  · simp only [repairUncovered]
    split
    · exact heals_of_only (hf none) hreaches hindexed
    rw [Prog.bind_assoc]
    refine rebuildManifest_recovering fun rebuilt hrebuilt => ?_
    have hnames := hrebuilt.names hvalid
    simp only [Prog.bind_assoc]
    refine writeManifest_recovering (fun k hk => hvalid k ((hnames k).mp hk))
      (fun e _ => heals_of_only (hf _) hreaches hindexed) (fun k hk _ => (hnames k).mpr hk)
      fun data hstored => ?_
    exact heals_of_only (hf none) hreaches hstored
  · obtain ⟨data', files, hdata', hfiles, -⟩ := hindexed
    cases hdata.symm.trans hdata'
    rw [hdecode] at hfiles
    cases hfiles

theorem deduplicate_recovering (text : String) :
    Mends json timely rep₀ (deduplicate json held manifest s text) g := by
  unfold deduplicate
  refine .perform trivial ?_
  rintro _ _ ⟨st, hserves, -, rfl, -⟩
  refine .perform trivial ?_
  rintro _ _ ⟨st', hserves', -, rfl, -⟩
  have hrep : st'.replica = g.storage.replica :=
    (hserves'.1.replica_eq rfl).trans ((congrArg Storage.replica (Recovery.storage_step ..)).trans
      (hserves.1.replica_eq rfl))
  have hreaches' := (hreaches.step st (.rollback s) ()).step st' (.closeSession s) ()
  split
  · refine repairForRetry_recovering (hrep ▸ hvalid) hreaches' (hrep ▸ hindexed) text ?_
    rintro (_ | e)
    · refine .perform rfl ?_
      rintro (_ | e) <;> trivial
    · exact .perform rfl fun _ => trivial
  · refine heals_of_only (.perform rfl ?_) hreaches' (hrep ▸ hindexed)
    rintro (_ | e) <;> trivial

end

/-- The transaction of a session that sees the row of the key, if there is one, only when the
replica is indexed. -/
theorem transaction_recovering (h : Ready manifest s g.storage) (hreaches : g.Reaches rep₀)
    (hflushes : ∀ ses, g.storage.sessions s = some ses → ses.row key = none →
      Flushes json timely manifest s g.storage)
    (hrow : ∀ ses row, g.storage.sessions s = some ses → ses.row key = some row →
      row.text ≠ "" → Indexed json g.storage.replica) :
    Mends json timely rep₀ (transaction json cfg key held manifest s) g := by
  unfold transaction
  refine recovering_quiet_call rfl ?_
  rintro (_ | e) -
  · simp only [lookupIdempotent, Prog.bind_assoc]
    refine recovering_quiet_call rfl ?_
    rintro (_ | e) -
    · simp only [Prog.bind_assoc]
      refine recovering_quiet_call rfl ?_
      rintro (e | _ | text) ⟨⟨hanswers, -⟩, -⟩
      · exact heals_of_fails failTransaction_fails hreaches
      · exact mutate_recovering h hreaches hflushes
      obtain ⟨-, ses, hses, hfound⟩ := hanswers
      obtain ⟨row, hrow', rfl⟩ := map_eq_some_iff.mp hfound.symm
      by_cases htext : row.text = ""
      · rw [htext]
        exact mutate_recovering h hreaches hflushes
      change Mends json timely rep₀ (if row.text ≠ "" then
        deduplicate json held manifest s row.text else mutate json cfg key held manifest s) _
      rw [if_pos htext]
      have hindexed := hrow ses row hses hrow' htext
      exact deduplicate_recovering h.valid hreaches hindexed row.text
    · exact heals_of_fails failTransaction_fails hreaches
  · exact heals_of_fails (.perform rfl fun _ => failWithLease_fails) hreaches

/-! ### The file list of the session -/

/-- What is rebuilt after the next write on a listing can be marshalled. -/
def RelistsNext (json : ManifestJson B) (timely : ℤ → Prop) (rep : Replica B) : Prop :=
  ∀ info, ((Storage.initial rep).newSession none).Lands info → timely info.createdAt →
    Relists json (rep.put ⟨info, []⟩).infos

/-- The recorded row of a key. -/
def Replica.recorded (rep : Replica B) (key : String) : Option Row :=
  (rep.rowsOf rep.infos).find? fun r => r.key = key

theorem row_newSession (rep : Replica B) (key : String) :
    ((Storage.initial rep).newSession none).row key = rep.recorded key := by
  simp [Session.row, Storage.newSession, Storage.initial, Replica.recorded]

/-- Without a manifest the session is opened on a listing. -/
theorem attemptWithLease_absent (hopened : g.opened = none)
    (hvalid : AllValid g.storage.replica.infos) (habsent : g.storage.replica.manifest = none)
    (hrow : ∀ row, g.storage.replica.recorded key = some row → row.text = "")
    (hlists : g.storage.replica.recorded key = none → RelistsNext json timely g.storage.replica) :
    Mends json timely g.storage.replica (attemptWithLease json cfg key held) g := by
  have hdecode {data : B} (hdata : g.storage.replica.manifest = some data) {P : Prop} : P := by
    rw [habsent] at hdata
    cases hdata
  simp only [attemptWithLease, planFiles, Prog.bind_assoc]
  refine readManifest_recovering (fun _ => ?_) (fun data files hdata _ => hdecode hdata)
    fun data e hdata _ => hdecode hdata
  refine .perform trivial ?_
  rintro (e | s) _ ⟨st, ⟨hst, -⟩, hsucceeds, rfl, -⟩
  · exact hsucceeds.elim
  obtain ⟨rfl, rfl⟩ := hst
  have hsession {ses : Session} (hses : (g.storage.openSession none).sessions g.storage.opened =
      some ses) : ses = (Storage.initial g.storage.replica).newSession none :=
    some.inj (hses.symm.trans (update_self ..))
  refine transaction_recovering ⟨hvalid, _, update_self .., ?_⟩ ?_ ?_ ?_
  · exact .inl ⟨rfl, rfl⟩
  · refine .inr ⟨none, ?_, fun k hk _ => le_manifestMaxTXID hk⟩
    simp [Recovery.step, hopened]
  · rintro ses hses hnew - ses' info hses' hlands htimely
    obtain rfl := hsession hses
    obtain rfl := hsession hses'
    refine hlists ((row_newSession _ _).symm.trans hnew) info hlands (htimely.resolve_left ?_)
    -- the new file ends after every file of the listing
    intro hinfo
    have hle : info.maxTXID ≤ manifestMaxTXID g.storage.replica.infos :=
      le_manifestMaxTXID (hasKey_of_mem hinfo)
    rw [hlands.2] at hle
    exact absurd hle (Nat.not_succ_le_self _)
  · intro ses row hses hfound htext
    obtain rfl := hsession hses
    exact absurd (hrow row ((row_newSession _ _).symm.trans hfound)) htext

/-- A manifest that lags behind the level-0 files is rebuilt. -/
theorem attemptWithLease_lagging (hlists : Relists json g.storage.replica.infos)
    (hopened : g.opened = none) (hvalid : AllValid g.storage.replica.infos) {data : B}
    {files : List FileInfo} (hdata : g.storage.replica.manifest = some data)
    (hfiles : decodeManifest json data = .ok files) {k : FileKey}
    (hk : HasKey g.storage.replica.infos k) (hlevel : k.level = 0)
    (hlags : manifestMaxTXID files < k.maxTXID) :
    Mends json timely g.storage.replica (attemptWithLease json cfg key held) g := by
  simp only [attemptWithLease, planFiles, Prog.bind_assoc]
  refine readManifest_recovering (fun hnone => ?_) (fun data' files' hdata' hfiles' => ?_)
    fun data' e hdata' hdecode => ?_
  · rw [hdata] at hnone
    cases hnone
  · obtain rfl := some.inj (hdata'.symm.trans hdata)
    obtain rfl := Except.ok.inj (hfiles'.symm.trans hfiles)
    simp only [repairTail, tailTXID, Prog.bind_assoc]
    refine recovering_quiet_call rfl ?_
    rintro (e | level0) ⟨⟨-, hcurrent⟩, hsucceeds⟩
    · exact hsucceeds.elim
    have htail : maxTXIDFrom 0 level0 > manifestMaxTXID files' :=
      lt_of_lt_of_le hlags (le_manifestMaxTXID ((hasKey_level hcurrent k).mpr ⟨hk, hlevel⟩))
    simp only [Prog.bind_assoc, Prog.pure_eq_done, Prog.done_bind, if_pos htail]
    refine rebuildManifest_recovering fun rebuilt hlisted => ?_
    simp only [Prog.bind_assoc]
    have hrebuilt := hlisted.names hvalid
    have hvalid' : AllValid rebuilt := fun k hk => hvalid k ((hrebuilt k).mp hk)
    refine writeManifest_recovering hvalid' (fun e he => ?_) (fun k hk _ => (hrebuilt k).mpr hk) ?_
    · obtain ⟨data, hdata⟩ := hlists rebuilt hlisted
      rw [hdata] at he
      cases he
    intro stored hindexed
    have happended : appended rebuilt = some rebuilt := by
      cases rebuilt with
      | nil => exact absurd ((hrebuilt k).mpr hk) not_hasKey_nil
      | cons => rfl
    simp only [happended, Prog.done_bind]
    refine .perform trivial ?_
    rintro (e | s) _ ⟨st, ⟨hst, -⟩, hsucceeds, rfl, -⟩
    · exact hsucceeds.elim
    obtain ⟨rfl, rfl⟩ := hst
    refine transaction_recovering ⟨hvalid, _, update_self .., ?_⟩ ?_ (fun _ _ _ => nofun) ?_
    · exact .inr ⟨rebuilt, rfl, rfl, hvalid', fun k hk _ => (hrebuilt k).mpr hk⟩
    · refine .inr ⟨some rebuilt, ?_, fun k hk _ => ?_⟩
      · simp [Recovery.step, Recovery.store, hopened]
      · exact le_manifestMaxTXID ((hrebuilt k).mpr hk)
    · exact fun _ _ _ _ _ => hindexed
  · obtain rfl := some.inj (hdata'.symm.trans hdata)
    rw [hdecode] at hfiles
    cases hfiles

theorem withWriteAttempt_recovering {rep : Replica B}
    (h : ∀ held (g : Recovery B), g.opened = none → g.storage.replica = rep →
      Mends json timely rep (attemptWithLease json cfg key held) g) :
    Mends json timely rep (withWriteAttempt json cfg d key) (.start rep) := by
  refine .perform trivial ?_
  rintro (e | _) _ ⟨st, ⟨hst, -⟩, -, rfl, -⟩
  · exact ⟨.inl rfl, by rintro _ ⟨⟩⟩
  obtain rfl := hst
  have hentry : Mends json timely rep (attemptWithEntry json cfg d key) (.start rep) := by
    refine .perform trivial ?_
    rintro (e | held) _ ⟨st, ⟨hst, -⟩, -, rfl, -⟩
    · exact ⟨.inl rfl, by rintro _ ⟨⟩⟩
    · obtain rfl := hst
      exact h held _ rfl rfl
  exact hentry.bind fun g res hres => recovering_quiet_call rfl fun _ _ => hres

end Stages

/-! ### Reads -/

section Reads

variable {json : ManifestJson B} {d : Descriptor} {rep : Replica B} {g : Recovery B}
  {timely : ℤ → Prop}

theorem probeLevels_recovering {α : Type} {Q : Recovery B → α → Prop}
    {f : Except Err Bool → RuntimeM B α} (levels : List ℕ)
    (hf : ∀ found, (found = false → ∀ k, HasKey g.storage.replica.infos k → k.level ∉ levels) →
      Upholds timely Q (f (.ok found)) g) : Upholds timely Q (probeLevels levels >>= f) g := by
  induction levels with
  | nil => exact hf false fun _ _ _ => not_mem_nil
  | cons level levels ih =>
    rw [probeLevels, Prog.bind_assoc]
    refine recovering_quiet_call rfl ?_
    rintro (e | listed) ⟨⟨-, hcurrent⟩, hsucceeds⟩
    · exact hsucceeds.elim
    simp only
    split
    · next hempty =>
      refine ih fun found hfound => hf found fun hfalse k hk hlevel => ?_
      rcases mem_cons.mp hlevel with hlevel | hlevel
      · have hlisted := (hasKey_level hcurrent k).mpr ⟨hk, hlevel⟩
        rw [isEmpty_iff.mp hempty] at hlisted
        exact not_hasKey_nil hlisted
      · exact hfound hfalse k hk hlevel
    · exact hf true (by rintro ⟨⟩)

/-- A read that was refused, opened its session on a listing, or found no file. -/
def Recovery.Settled (g : Recovery B) (rep : Replica B) : Prop :=
  g.refused = true ∨ g.opened = some none ∨ rep.infos = []

theorem Recovery.Settled.step (h : g.Settled rep) (st : Storage B) (c : Op B) (r : Resp c) :
    (g.step st c r).Settled rep := by
  rcases h with h | h | h
  · exact .inl (refused_step h st c r)
  · exact .inr (.inl (opened_step h st c r))
  · exact .inr (.inr h)

theorem settled_of_settled {α : Type} (p : RuntimeM B α) (h : g.Settled rep) :
    p.Obeys (recovering timely) (fun g _ => g.Settled rep) g := by
  refine Prog.obeys_of_closed (fun _ _ _ => trivial) ?_ p h
  rintro g c r _ hg ⟨st, -, -, rfl, -⟩
  exact hg.step st c r

/-- Without a manifest a read opens its session on a listing, unless there is no file. -/
theorem readFresh_recovering (hopened : g.opened = none) (hrep : g.storage.replica = rep)
    (hvalid : AllValid rep.infos) (habsent : rep.manifest = none) :
    (readFresh json).Obeys (recovering timely) (fun g _ => g.Settled rep) g := by
  have hdecode {data : B} (hdata : g.storage.replica.manifest = some data) {P : Prop} : P := by
    rw [hrep, habsent] at hdata
    cases hdata
  refine readManifest_recovering (fun _ => ?_) (fun data files hdata _ => hdecode hdata)
    fun data e hdata _ => hdecode hdata
  simp only [hasLTX, Prog.bind_assoc]
  refine recovering_quiet_call rfl ?_
  rintro (_ | e) ⟨-, hsucceeds⟩
  · refine probeLevels_recovering _ fun found hfound => ?_
    cases found with
    | true =>
      refine .perform trivial ?_
      rintro (e | s) _ ⟨st, -, hsucceeds, rfl, -⟩
      · exact hsucceeds.elim
      · refine settled_of_settled _ (.inr (.inl ?_))
        simp [Recovery.step, hopened]
    | false =>
      refine settled_of_settled _ (.inr (.inr (eq_nil_of_not_hasKey fun k hk => ?_)))
      have hlevel : k.level ∈ [0, snapshotLevel, 1, 2, 3, 4, 5, 6, 7, 8] := by
        have := (hvalid k hk).1
        simp only [snapshotLevel] at this ⊢
        interval_cases k.level <;> decide
      exact hfound rfl k (hrep ▸ hk) hlevel
  · exact hsucceeds.elim

theorem withRead_recovering (hvalid : AllValid rep.infos) (habsent : rep.manifest = none) :
    (withRead json d none).Obeys (recovering timely) (fun g _ =>
      g.refused = true ∨ g.asked = false ∨ g.opened = some none ∨ rep.infos = [])
      (.start rep) := by
  have hsettled (g : Recovery B) (h : g.Settled rep) :
      g.refused = true ∨ g.asked = false ∨ g.opened = some none ∨ rep.infos = [] :=
    h.imp_right .inr
  refine .perform trivial ?_
  rintro (e | _) _ ⟨st, ⟨hst, -⟩, -, rfl, -⟩
  · exact .inl rfl
  obtain rfl := hst
  have hread : (readWithEntry json).Obeys (recovering timely)
      (fun g _ => g.Settled rep ∨ g.asked = false) (.start rep) := by
    have hfresh := (@readFresh_recovering B json rep (.start rep) timely rfl rfl hvalid
      habsent).mono fun g _ h => (.inl h : g.Settled rep ∨ g.asked = false)
    refine recovering_quiet_call rfl ?_
    rintro (_ | s) -
    · exact hfresh
    refine recovering_quiet_call rfl ?_
    rintro (_ | e) -
    · exact .inr rfl
    refine recovering_quiet_call rfl fun _ _ => ?_
    split
    · exact hfresh
    · exact .inr rfl
  refine hread.bind fun g res hg => recovering_quiet_call rfl fun _ _ => ?_
  exact hg.elim (hsettled _) fun h => .inr (.inl h)

end Reads

/-! ### Runs that do not recover -/

section Stuck

variable {json : ManifestJson B} {cfg : Config} {d : Descriptor} {key : String}
  {rep : Replica B} {g : Recovery B} {α : Type} {Q : Recovery B → α → Prop} {timely : ℤ → Prop}

theorem answered {c : Op B} {r : Resp c} (hanswers : g.storage.Answers c r g.storage)
    (hcurrent : g.storage.Current c r) (hsucceeds : Succeeds c r) :
    (recovering timely).next g c r (g.step g.storage c r) :=
  ⟨_, ⟨hanswers, hcurrent⟩, hsucceeds, rfl, fun _ => .inl⟩

theorem obeys_next (c : Op B) (r : Resp c) {f : Resp c → RuntimeM B α} {g' : Recovery B}
    (h : Upholds timely Q (ask c >>= f) g) (hnext : (recovering timely).next g c r g') :
    Upholds timely Q (f r) g' := h.2 r g' hnext

theorem obeys_answer (c : Op B) (r : Resp c) {f : Resp c → RuntimeM B α} {st : Storage B}
    (h : Upholds timely Q (ask c >>= f) g) (hanswers : g.storage.Answers c r st)
    (hcurrent : g.storage.Current c r) (hsucceeds : Succeeds c r)
    (hrep : st.replica = g.storage.replica) : Upholds timely Q (f r) (g.step st c r) :=
  obeys_next c r h ⟨st, ⟨hanswers, hcurrent⟩, hsucceeds, rfl, fun _ hf => .inl (hrep ▸ hf)⟩

/-- A lease. -/
def someHeld : Lease.Held := ⟨0, "lease", 0⟩

theorem obeys_attemptWithLease {Q : Recovery B → Except Err WriteResult → Prop}
    (h : (withWriteAttempt json cfg d key).Obeys (recovering timely) Q (.start rep)) :
    (attemptWithLease json cfg key someHeld >>= fun res => do
      ask .releaseDatabase
      return res).Obeys (recovering timely) Q (.start rep) := by
  have hentry := obeys_answer .database (.ok ()) h rfl trivial trivial rfl
  simp only [attemptWithEntry, Prog.bind_assoc] at hentry
  exact obeys_answer (.acquire _ _) (.ok someHeld) hentry rfl trivial trivial rfl

/-- An attempt that has the lease and fails without a session does not reach the files. -/
theorem not_obeys_failWithLease {asked : Bool} {e : Err}
    (h : Mends json timely rep (failWithLease someHeld e >>= fun res => do
      ask .releaseDatabase
      return res) ⟨.initial rep, false, asked, none⟩) : False := by
  rw [failWithLease, Prog.bind_assoc] at h
  have hrelease := obeys_answer (.release someHeld false) none h rfl trivial trivial rfl
  obtain ⟨hreaches, -⟩ := obeys_answer .releaseDatabase () hrelease rfl trivial trivial rfl
  rcases hreaches with hrefused | ⟨files, hopened, -⟩
  · cases hrefused
  · cases hopened

/-- An acknowledged write has left a manifest. -/
theorem not_obeys_acknowledged {r : WriteResult} (hnone : g.storage.replica.manifest = none)
    (h : Mends json timely rep (do ask .releaseDatabase return .ok r) g) : False := by
  obtain ⟨-, hindexed⟩ := obeys_answer .releaseDatabase () h rfl trivial trivial rfl
  obtain ⟨data, files, hdata, -⟩ := hindexed _ rfl
  cases hnone.symm.trans hdata

theorem obeys_rebuildManifest {f : Except Err (List FileInfo) → RuntimeM B α}
    {files : List FileInfo} (h : Upholds timely Q (rebuildManifest >>= f) g)
    (hfiles : Listed g.storage.replica.infos (snapshotLevel + 1) files) :
    Upholds timely Q (f (.ok files)) g := by
  have hloop : ∀ level files, Listed g.storage.replica.infos level files → ∀ count,
      level + count = snapshotLevel + 1 →
      Upholds timely Q (buildLevels (fun level => (ask (.ltxFiles .build level) : RuntimeM B _))
        (List.range' level count) files >>= f) g := by
    intro level files hfiles
    induction hfiles with
    | start =>
      intro count hcount
      rw [rebuildManifest, buildManifest, range_eq_range'] at h
      rwa [← hcount, Nat.zero_add] at h
    | @level level files found hlisted hfound ih =>
      intro count hcount
      have hstep := ih (count + 1) (by omega)
      rw [range'_succ, buildLevels, Prog.bind_assoc] at hstep
      exact obeys_answer (.ltxFiles .build level) (.ok found) hstep rfl hfound trivial rfl
  exact hloop _ files hfiles 0 rfl

theorem enqueueCompaction_nil : (enqueueCompaction cfg [] : RuntimeM B _) = pure () := by
  have hpos : ¬ effectiveThreshold cfg.compaction.threshold < 0 := by
    unfold effectiveThreshold
    split <;> omega
  simp [enqueueCompaction, manifestNeedsCompaction, hpos]

/-- A lease that is not lost and has not expired is not stale. -/
theorem obeys_leaseStale {f : Bool → RuntimeM B α} {held : Lease.Held}
    (h : Upholds timely Q (leaseStale cfg held >>= f) g) : Upholds timely Q (f false) g := by
  simp only [leaseStale, Prog.bind_assoc] at h
  have hlost := obeys_answer (.lost held) false h rfl trivial trivial rfl
  simp only [Bool.false_eq_true, if_false, Prog.bind_assoc] at hlost
  have hnow := obeys_answer .now (0 : ℤ) hlost rfl trivial trivial rfl
  have hexpiry := obeys_answer (.expiresAt held) (cfg.lease.clockSkewAllowance + 1 : ℤ) hnow rfl
    trivial trivial rfl
  simp only [Prog.pure_eq_done, Prog.done_bind, add_sub_cancel_left, zero_lt_one, decide_true,
    Bool.not_true] at hexpiry
  exact hexpiry

/-- The TXID of a flushed session is the one that was recorded. -/
theorem pos_flushed {ses : Session} {info : FileInfo} (h : ses.Lands info) :
    manifestMaxTXID (ses.client.recordWrite info).files = (ses.pos + 1) % 2 ^ 64 := by
  have hkey : info.key = ⟨0, ses.pos + 1, ses.pos + 1⟩ := by rw [h.2]; rfl
  rw [Nat.mod_eq_of_lt h.1]
  refine le_antisymm (manifestMaxTXID_le_iff.mpr fun k hk => ?_) ?_
  · rcases ManifestClient.hasKey_recordWrite.mp hk with hk | rfl
    · exact (le_manifestMaxTXID hk).trans (Nat.le_succ _)
    · rw [hkey]
  have hnew : HasKey (ses.client.recordWrite info).files _ :=
    ManifestClient.hasKey_recordWrite.mpr (.inr hkey)
  exact le_manifestMaxTXID hnew

section

variable (h : Mends json timely rep (withWriteAttempt json cfg d key) (.start rep))
include h

/-- With a manifest that does not decode the attempt ends without a session. -/
theorem not_obeys_of_undecodable {data : B} {e : Err} (hdata : rep.manifest = some data)
    (hdecode : decodeManifest json data = .error e) : False := by
  have hlease := obeys_attemptWithLease h
  simp only [attemptWithLease, planFiles, readManifest, Prog.bind_assoc] at hlease
  have hread := obeys_answer .manifestGet (.ok data) hlease ⟨rfl, hdata⟩ trivial trivial rfl
  simp only [hdecode, Prog.pure_eq_done, Prog.done_bind] at hread
  exact not_obeys_failWithLease hread

/-- The rebuilt list of a lagging manifest cannot be marshalled: the attempt ends without a
session. -/
theorem not_obeys_of_unmarshalled {data : B} {files rebuilt : List FileInfo} {e : Err} {k : FileKey}
    (hdata : rep.manifest = some data) (hdecode : decodeManifest json data = .ok files)
    (hk : HasKey rep.infos k) (hlevel : k.level = 0) (hlags : manifestMaxTXID files < k.maxTXID)
    (hlisted : Listed rep.infos (snapshotLevel + 1) rebuilt)
    (he : encodeManifest json rebuilt = .error e) : False := by
  have hlease := obeys_attemptWithLease h
  simp only [attemptWithLease, planFiles, readManifest, Prog.bind_assoc] at hlease
  have hread := obeys_answer .manifestGet (.ok data) hlease ⟨rfl, hdata⟩ trivial trivial rfl
  simp only [hdecode, repairTail, tailTXID, Prog.pure_eq_done, Prog.done_bind, Prog.bind_assoc]
    at hread
  have hcurrent : (Storage.initial rep).Current (.ltxFiles .tail 0)
      (.ok (rep.infos.filter fun f => f.level = 0)) := fun f => by simp [Storage.initial]
  have htail := obeys_answer (.ltxFiles .tail 0) (.ok _) hread rfl hcurrent trivial rfl
  have hlong : maxTXIDFrom 0 (rep.infos.filter fun f => f.level = 0) > manifestMaxTXID files :=
    hlags.trans_le (le_manifestMaxTXID ((hasKey_level hcurrent k).mpr ⟨hk, hlevel⟩))
  simp only [Prog.done_bind, if_pos hlong, Prog.bind_assoc] at htail
  have hwrite := obeys_rebuildManifest htail hlisted
  simp only [writeManifest, he, Prog.pure_eq_done, Prog.done_bind] at hwrite
  exact not_obeys_failWithLease hwrite

/-- Without a manifest the attempt opens its session on a listing and finds the recorded result. -/
theorem obeys_lookup (habsent : rep.manifest = none) :
    ((if ((rep.recorded key).map Row.text).getD "" ≠ "" then
        deduplicate json someHeld none 0 (((rep.recorded key).map Row.text).getD "")
      else mutate json cfg key someHeld none 0) >>= fun res => do
        ask .releaseDatabase
        return res).Obeys (recovering timely) (Heals json rep)
      ⟨(Storage.initial rep).openSession none, false, true, some none⟩ := by
  have hlease := obeys_attemptWithLease h
  simp only [attemptWithLease, planFiles, readManifest, Prog.bind_assoc] at hlease
  have hread := obeys_answer .manifestGet (.error .manifestNotFound) hlease
    ⟨rfl, fun _ => habsent⟩ trivial rfl rfl
  have hopen := obeys_answer (.openWrite none) (.ok _) hread ⟨rfl, rfl⟩ trivial trivial rfl
  simp only [transaction, lookupIdempotent, Prog.bind_assoc] at hopen
  have hbegin := obeys_answer (.beginImmediate _) none hopen rfl trivial trivial rfl
  have hschema := obeys_answer (.execSchema _) none hbegin rfl trivial trivial rfl
  have hsession : ((Storage.initial rep).openSession none).sessions 0 =
      some ((Storage.initial rep).newSession none) := rfl
  have hselect := obeys_answer (.selectTXID _ key) (.ok ((rep.recorded key).map Row.text)) hschema
    ⟨rfl, _, hsession, by rw [row_newSession]⟩ trivial trivial rfl
  cases hrow : rep.recorded key with
  | none =>
    rw [hrow] at hselect
    exact hselect
  | some row =>
    rw [hrow] at hselect
    exact hselect

/-- What is rebuilt after the write cannot be marshalled: the write is acknowledged and leaves no
manifest. -/
theorem not_obeys_of_unlisted {info : FileInfo} {rebuilt : List FileInfo} {e : Err}
    (habsent : rep.manifest = none) (hrow : rep.recorded key = none)
    (hlands : ((Storage.initial rep).newSession none).Lands info) (htimely : timely info.createdAt)
    (hlisted : Listed (rep.put ⟨info, []⟩).infos (snapshotLevel + 1) rebuilt)
    (he : encodeManifest json rebuilt = .error e) : False := by
  have hmutate := obeys_lookup h habsent
  simp only [hrow, map_none, getD_none, ne_eq, not_true_eq_false, if_false, mutate,
    Prog.bind_assoc] at hmutate
  have hcallback := obeys_answer (.callback 0) none hmutate rfl trivial trivial rfl
  simp only [Prog.bind_assoc] at hcallback
  have hctx := obeys_answer .ctxErr none hcallback rfl trivial trivial rfl
  simp only [nextTXID, Prog.bind_assoc] at hctx
  have hpos := obeys_answer (.pos 0) (.ok _) hctx ⟨rfl, _, rfl, rfl⟩ trivial trivial rfl
  simp only [Prog.pure_eq_done, Prog.done_bind, recordIdempotent, Prog.bind_assoc] at hpos
  have hinsert := obeys_answer (.insertKey 0 key _) none hpos
    ⟨_, rfl, (row_newSession rep key).trans hrow, rfl⟩ trivial trivial rfl
  simp only [Prog.done_bind, commitAndFlush, Prog.bind_assoc] at hinsert
  have hfresh := obeys_leaseStale hinsert
  simp only [Bool.false_eq_true, if_false, Prog.bind_assoc] at hfresh
  have hcommit := obeys_answer (.commit 0) none hfresh ⟨_, rfl, rfl⟩ trivial trivial rfl
  simp only [flush, disableWrite, Prog.bind_assoc] at hcommit
  have htimely' : ∀ rows, ∀ f ∈ (rep.put ⟨info, rows⟩).infos,
      f ∈ rep.infos ∨ timely f.createdAt := by
    intro rows f hf
    obtain ⟨o, ho, rfl⟩ := List.mem_map.mp hf
    rcases Replica.mem_put.mp ho with ⟨ho, -⟩ | rfl
    · exact .inl (List.mem_map_of_mem ho)
    · exact .inr htimely
  have hflush := obeys_next (.setWriteDisabled 0) none hcommit
    ⟨_, ⟨⟨_, info, rfl, rfl, hlands, rfl⟩, trivial⟩, trivial, rfl, htimely' _⟩
  simp only [Prog.pure_eq_done, Prog.done_bind, confirmFlush, Prog.bind_assoc] at hflush
  have hfresh' := obeys_leaseStale hflush
  simp only [Bool.false_eq_true, if_false, Prog.bind_assoc, sessionTXID] at hfresh'
  have htxid := obeys_answer (.txid 0) (.ok _) hfresh'
    ⟨rfl, _, rfl, congrArg formatTXID (pos_flushed hlands).symm⟩ trivial trivial rfl
  simp only [Prog.pure_eq_done, Prog.done_bind, ne_eq, not_true_eq_false, if_false, publish,
    Prog.bind_assoc] at htxid
  have hwrite := obeys_rebuildManifest htxid ((infos_put_rows rep info _) ▸ hlisted)
  simp only [writeManifest, he, Prog.pure_eq_done, Prog.done_bind, acknowledge, Prog.bind_assoc]
    at hwrite
  have hevict := obeys_answer .evict () hwrite rfl trivial trivial rfl
  have hclose := obeys_answer (.closeSession 0) () hevict rfl trivial trivial rfl
  have hrelease := obeys_answer (.release someHeld true) none hclose rfl trivial trivial rfl
  simp only [enqueueCompaction_nil, Prog.pure_eq_done, Prog.done_bind] at hrelease
  exact not_obeys_acknowledged (by exact habsent) hrelease

/-- Without a manifest the retry of a recorded key is acknowledged and leaves none. -/
theorem not_obeys_of_recorded {row : Row} (habsent : rep.manifest = none)
    (hrow : rep.recorded key = some row) (htext : row.text ≠ "") : False := by
  have hselect := obeys_lookup h habsent
  simp only [hrow, map_some, getD_some] at hselect
  -- the recorded result is not empty, so the write is acknowledged again
  rw [if_pos htext] at hselect
  simp only [deduplicate, Prog.bind_assoc] at hselect
  have hrollback := obeys_answer (.rollback _) () hselect rfl trivial trivial rfl
  have hclose := obeys_answer (.closeSession _) () hrollback rfl trivial trivial rfl
  have hrelease := obeys_answer (.release someHeld true) none hclose rfl trivial trivial rfl
  exact not_obeys_acknowledged (by exact habsent) hrelease

end

end Stuck

/-! ### When the manifest is a derived index -/

/-- The manifest is absent, or it does not decode, or its highest TXID lags behind a level-0
file. -/
def Damaged (json : ManifestJson B) (rep : Replica B) : Prop :=
  Unreadable json rep ∨ ∃ data files k, rep.manifest = some data ∧
    decodeManifest json data = .ok files ∧ HasKey rep.infos k ∧ k.level = 0 ∧
    manifestMaxTXID files < k.maxTXID

/-- **When a damaged manifest is recovered from.** For every replica of well-formed LTX names whose
manifest is absent, undecodable or lagging: the manifest acts as a derived index if and only if it
decodes and can be rebuilt, or it is absent, the key of the next write has no recorded result, and a
write can be followed by a rebuild. Rebuilding fails only if the list cannot be marshalled. -/
theorem derived_iff {json : ManifestJson B} {timely : ℤ → Prop} {cfg : Config} {d : Descriptor}
    {key : String} {rep : Replica B} (hvalid : AllValid rep.infos) (hdamaged : Damaged json rep) :
    Derived json timely cfg d key rep ↔
      (rep.manifest = none ∧ (∀ row, rep.recorded key = some row → row.text = "") ∧
        (rep.recorded key = none → RelistsNext json timely rep)) ∨
      ∃ data files, rep.manifest = some data ∧ decodeManifest json data = .ok files ∧
        Relists json rep.infos := by
  constructor
  · intro h
    cases hmanifest : rep.manifest with
    | none =>
      refine Or.inl ⟨rfl, fun row hrow => ?_, fun hrow info hlands htimely files hfiles => ?_⟩
      · by_contra htext
        exact not_obeys_of_recorded h.write hmanifest hrow htext
      cases he : encodeManifest json files with
      | error e =>
        exact (not_obeys_of_unlisted h.write hmanifest hrow hlands htimely hfiles he).elim
      | ok data => exact ⟨data, rfl⟩
    | some data =>
      cases hdecode : decodeManifest json data with
      | error e => exact (not_obeys_of_undecodable h.write hmanifest hdecode).elim
      | ok files =>
        refine Or.inr ⟨data, files, rfl, hdecode, fun rebuilt hlisted => ?_⟩
        obtain hnone | ⟨data', files', k, hdata', hdecode', hk, hlevel, hlags⟩ := hdamaged
        · exact absurd hdecode (hnone data files hmanifest)
        cases he : encodeManifest json rebuilt with
        | error e =>
          exact (not_obeys_of_unmarshalled h.write hdata' hdecode' hk hlevel hlags hlisted he).elim
        | ok data => exact ⟨data, rfl⟩
  · rintro (⟨habsent, hrow, hlists⟩ | ⟨data, files, hdata, hdecode, hlists⟩)
    · refine ⟨withWriteAttempt_recovering ?_, fun _ => withRead_recovering hvalid habsent⟩
      rintro held g hopened rfl
      exact attemptWithLease_absent hopened hvalid habsent hrow hlists
    refine ⟨withWriteAttempt_recovering ?_, fun h => absurd hdecode (h data files hdata)⟩
    rintro held g hopened rfl
    obtain hnone | ⟨data', files', k, hdata', hdecode', hk, hlevel, hlags⟩ := hdamaged
    · exact absurd hdecode (hnone data files hdata)
    · exact attemptWithLease_lagging hlists hopened hvalid hdata' hdecode' hk hlevel hlags

namespace Recovering

/-- A database. -/
def database : Descriptor := ⟨⟨"db"⟩, ""⟩

/-- A replica with two level-0 files and this manifest object. -/
def replica (manifest : Option (Option ManifestDocument)) : Replica (Option ManifestDocument) :=
  ⟨[⟨⟨0, 1, 1, 1, 10⟩, [⟨1, "a", formatTXID 1⟩]⟩, ⟨⟨0, 2, 2, 1, 20⟩, []⟩], manifest⟩

/-- The manifest that lists the first file. -/
def lagging : Option ManifestDocument := some ⟨1, [⟨0, 1, 1, 1, 10⟩]⟩

end Recovering

open Recovering in
/-- A lagging manifest is recovered from. -/
theorem derived_lagging :
    Derived .plain (fun _ => True) defaultConfig database "a" (replica (some lagging)) ∧
      Damaged .plain (replica (some lagging)) := by
  have hdamaged : Damaged .plain (replica (some lagging)) :=
    Or.inr ⟨lagging, [⟨0, 1, 1, 1, 10⟩], ⟨0, 2, 2⟩, rfl, rfl, by decide, rfl, by decide⟩
  have hvalid : ∀ k ∈ keys (replica (some lagging)).infos, k.Valid := by decide
  have hlists : Relists .plain (replica (some lagging)).infos := fun files _ => ⟨_, rfl⟩
  exact ⟨(derived_iff hvalid hdamaged).mpr (Or.inr ⟨lagging, _, rfl, rfl, hlists⟩), hdamaged⟩

open Recovering in
/-- The manifest object does not decode: a write attempt and a read that are not refused end with an
error, and neither has opened a session. -/
theorem undecodable_stuck :
    Damaged .plain (replica (some none)) ∧
    (∃ tr e g, Returns (withWriteAttempt .plain defaultConfig database "a") tr (.error e) ∧
      (recovering fun _ => True).Runs (.start (replica (some none))) tr g ∧ g.refused = false ∧
      g.opened = none ∧ g.storage.replica.manifest = some none) ∧
    ∃ tr e g, Returns (withRead .plain database none) tr (some e) ∧
      (recovering fun _ => True).Runs (.start (replica (some none))) tr g ∧ g.refused = false ∧
      g.asked = true ∧ g.opened = none := by
  refine ⟨Or.inl ?_, ?_, ?_⟩
  · rintro data files ⟨rfl⟩ ⟨⟩
  · refine ⟨[⟨.database, .ok ()⟩, ⟨.acquire ⟨"db"⟩ "", .ok someHeld⟩, ⟨.manifestGet, .ok none⟩,
      ⟨.release someHeld false, none⟩, ⟨.releaseDatabase, ()⟩], _, _,
      .call (.call (.call (.call (.call (.done _))))), .cons (answered rfl trivial trivial)
      (.cons (answered rfl trivial trivial) (.cons (answered ⟨rfl, rfl⟩ trivial trivial)
      (.cons (answered rfl trivial trivial) (.cons (answered rfl trivial trivial)
      (.nil _))))), rfl, rfl, rfl⟩
  · refine ⟨[⟨.database, .ok ()⟩, ⟨.cacheGet, none⟩, ⟨.manifestGet, .ok none⟩,
      ⟨.releaseDatabase, ()⟩], _, _, .call (.call (.call (.call (.done _)))),
      .cons (answered rfl trivial trivial) (.cons (answered rfl trivial trivial)
      (.cons (answered ⟨rfl, rfl⟩ trivial trivial) (.cons (answered rfl trivial trivial)
      (.nil _)))), rfl, rfl, rfl⟩

end Walrusd.Runtime
