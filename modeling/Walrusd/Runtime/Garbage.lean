import Walrusd.Runtime.Stamps

/-!
# Garbage collection

`GC` reads the manifest, lists all levels, and deletes the listed files that the manifest does not
name and that are older than the retention. It holds no lease that keeps writes away. A file that is
committed in between is safe only if it is young enough, and that rests on more than the retention:
a repair may add a file of any age to the manifest.

## Main definitions

* `Sweep`, `sweep` — what a pass relies on when it deletes garbage.
* `Setup.Retains`, `Cluster.Orderly` — the conditions under which garbage collection is safe.

## Main results

* `Cluster.gc_keeps_commits`.
-/

namespace Walrusd.Runtime

open Program Litestream Function List Option

/-! ### What a pass knows -/

/-- What a pass knows: whether it holds the compaction lease and has stored its manifest, the
manifest that it read since, and the time that it asked for last. -/
structure Sweep where
  retention : ℤ
  pass : Bool := false
  stored : Bool := false
  active : Option (List FileInfo) := none
  time : Option ℤ := none

namespace Sweep

variable {B : Type} (json : ManifestJson B) (s : Sweep)

/-- The record after an answer. -/
def step : (c : Op B) → Resp c → Sweep
  | .acquireKey _ _, .ok _ => { s with pass := true, active := none }
  | .releaseKey _, _ => { s with pass := false }
  | .manifestGet, r => { s with active := (shownManifest json r).join }
  | .manifestPut _, none => { s with stored := true, active := none }
  | .manifestPut _, some _ => { s with active := none }
  | .now, t => { s with time := some t }
  | _, _ => s

/-- A pass deletes garbage only when it has stored its manifest and holds the compaction lease, and
then only files that the manifest it read does not name and that are older than the retention. -/
def Allows : Op B → Prop
  | .deleteLTXFiles .garbage files => s.pass = true ∧ s.stored = true ∧ ∃ active t,
    s.active = some active ∧ s.time = some t ∧ ∀ f ∈ files, ¬ HasKey active f.key ∧
      f.createdAt ≤ t - if s.retention < 0 then 0 else s.retention
  | _ => True

end Sweep

/-- The protocol of passes; other programs have no record. -/
def sweep {B : Type} (json : ManifestJson B) : Protocol (Op B) Resp (Option Sweep) where
  allow s c := ∀ t ∈ s, t.Allows c
  next s c r s' := s' = s.map fun t => t.step json c r

section Programs

variable {B α : Type} {json : ManifestJson B} {cfg : Config} {d : Descriptor} {s : Sweep}

theorem sweep_none (p : RuntimeM B α) : p.Keeps (sweep json) none :=
  (Prog.obeys_of_closed (J := fun s => s = none) (fun s c hs t ht => by rw [hs] at ht; cases ht)
    (fun s c r s' hs hn => by rw [hn, hs]; rfl) p rfl).mono fun _ _ _ => trivial

theorem sweep_bind {c : Op B} {f : Resp c → RuntimeM B α} {Q : Option Sweep → α → Prop}
    (hc : s.Allows c) (hf : ∀ r, (f r).Obeys (sweep json) Q (some (s.step json c r))) :
    (ask c >>= f).Obeys (sweep json) Q (some s) := by
  refine .perform ?_ ?_
  · rintro t ⟨rfl⟩
    exact hc
  · rintro r _ rfl
    exact hf r

theorem sweep_keeps {k : Kind} (hk : k = .listing ∨ k = .compact) (c : Op B) (hc : c.kind = k) :
    (sweep json).allow (some s) c ∧ ∀ r s', (sweep json).next (some s) c r s' → s' = some s := by
  subst hc
  have hsame (hallow : s.Allows c) (hstep : ∀ r, s.step json c r = s) :
      (sweep json).allow (some s) c ∧
        ∀ r s', (sweep json).next (some s) c r s' → s' = some s := by
    refine ⟨?_, ?_⟩
    · rintro t ⟨rfl⟩
      exact hallow
    · rintro r _ rfl
      exact congrArg some (hstep r)
  cases c with
  | initReplica | ltxFiles | compact => exact hsame trivial fun r => rfl
  | _ => rcases hk with hk | hk <;> cases hk

theorem readManifest_sweep :
    (readManifest json).Obeys (sweep json) (fun s' res => ∃ active, s' = some { s with active } ∧
      ∀ files, res = .ok (some files) → active = some files) (some s) := by
  refine sweep_bind trivial ?_
  rintro (e | data)
  · simp only
    split <;> exact ⟨_, rfl, nofun⟩
  simp only [Sweep.step, shownManifest]
  cases decodeManifest json data with
  | error e => exact ⟨_, rfl, nofun⟩
  | ok files =>
    refine ⟨some files, rfl, ?_⟩
    rintro _ ⟨rfl⟩
    rfl

theorem writeManifest_sweep (files : List FileInfo) :
    (writeManifest json files).Obeys (sweep json) (fun s' err => ∃ t, s' = some t ∧
      t.retention = s.retention ∧ t.pass = s.pass ∧ (err = none → t.stored = true)) (some s) := by
  unfold writeManifest
  split
  · exact ⟨s, rfl, rfl, rfl, nofun⟩
  refine Prog.obeys_perform.mpr ⟨?_, ?_⟩
  · rintro t ⟨rfl⟩
    trivial
  rintro (_ | e) _ rfl
  · exact ⟨_, rfl, rfl, rfl, fun _ => rfl⟩
  · exact ⟨_, rfl, rfl, rfl, nofun⟩

theorem delete_sweep {site : Site} {files : List FileInfo}
    (hallow : s.Allows (.deleteLTXFiles site files : Op B)) :
    (if files.isEmpty then return none else ask (.deleteLTXFiles site files) :
      RuntimeM B (Option Err)).Obeys (sweep json) (fun s' _ => s' = some s) (some s) := by
  split
  · rfl
  refine Prog.obeys_perform.mpr ⟨?_, ?_⟩
  · rintro t ⟨rfl⟩
    exact hallow
  · rintro r _ rfl
    rfl

theorem gc_sweep (hpass : s.pass = true) (hstored : s.stored = true) :
    (gc json s.retention).Keeps (sweep json) (some s) := by
  refine readManifest_sweep.bind ?_
  rintro _ (e | _ | files) ⟨active, rfl, hactive⟩
  · trivial
  · trivial
  refine rebuildManifest_only.bind_obeys (sweep_keeps (.inl rfl)) ?_
  rintro (e | all)
  · trivial
  refine sweep_bind trivial fun now => (delete_sweep ?_).mono fun _ _ _ => trivial
  refine ⟨hpass, hstored, files, now, hactive files rfl, rfl, fun f hf => ?_⟩
  obtain ⟨hunnamed, hold⟩ := mem_filter.mp hf
  have hnot : manifestContains files f = false := by
    simpa using (mem_filter.mp hunnamed).2
  refine ⟨fun hkey => ?_, of_decide_eq_true hold⟩
  rw [manifestContains_iff.mpr hkey] at hnot
  cases hnot

theorem deleteFiles_sweep (files : List FileInfo) (retention : ℤ) :
    (deleteFiles files retention : RuntimeM B _).Obeys (sweep json)
      (fun s' _ => ∃ time, s' = some { s with time }) (some s) := by
  unfold deleteFiles
  split
  · exact ⟨_, rfl⟩
  refine sweep_bind trivial fun now => (delete_sweep (by exact trivial)).mono ?_
  rintro _ _ rfl
  exact ⟨_, rfl⟩

theorem finishPass_sweep (sources : List FileInfo) (hpass : s.pass = true)
    (hstored : s.stored = true) (hretention : s.retention = cfg.compaction.retention) :
    (finishPass json cfg sources).Keeps (sweep json) (some s) := by
  refine (deleteFiles_sweep sources _).bind ?_
  rintro _ _ ⟨time, rfl⟩
  refine sweep_bind trivial fun passes => ?_
  rw [← hretention]
  split
  · exact (gc_sweep (s := { s with time }) hpass hstored).bind fun _ _ _ => trivial
  · trivial

theorem applyMerge_sweep (files : List FileInfo) (merge : Compaction) (held : Lease.Held)
    (hpass : s.pass = true) (hretention : s.retention = cfg.compaction.retention) :
    (applyMerge json cfg files merge held).Keeps (sweep json) (some s) := by
  refine readManifest_sweep.bind ?_
  rintro _ (e | base) ⟨active, rfl, -⟩
  · exact sweep_bind trivial fun _ => trivial
  refine (writeManifest_sweep _).bind ?_
  rintro _ stored ⟨t, rfl, htretention, htpass, htstored⟩
  refine sweep_bind trivial fun _ => ?_
  cases stored with
  | some e => trivial
  | none =>
    exact finishPass_sweep _ (htpass.trans hpass) (htstored rfl) (htretention.trans hretention)

theorem mergeSnapshot_sweep (files : List FileInfo) (hpass : s.pass = true)
    (hretention : s.retention = cfg.compaction.retention) :
    (mergeSnapshot json cfg d files).Keeps (sweep json) (some s) := by
  refine (compactManifest_only files _).bind_obeys (sweep_keeps (.inr rfl)) ?_
  rintro (e | merge)
  · trivial
  simp only
  split
  · trivial
  refine sweep_bind trivial ?_
  rintro (e | writeHeld)
  · trivial
  · exact applyMerge_sweep files merge writeHeld hpass hretention

theorem sweep_allows {c : Op B} (hc : c.kind ≠ .delete) (s : Option Sweep) :
    (sweep json).allow s c := by
  rintro t -
  cases c <;> first | exact trivial | exact absurd rfl hc

/-- **A pass deletes only what is garbage by the manifest that it has read.** -/
theorem runCompaction_sweep :
    (runCompaction json cfg d).Keeps (sweep json)
      (some { retention := cfg.compaction.retention }) := by
  have hpending (s : Option Sweep) : (ask .deletePending : RuntimeM B Unit).Keeps (sweep json) s :=
    Prog.obeys_perform.mpr ⟨sweep_allows (by simp [Op.kind]) s, fun _ _ _ => trivial⟩
  refine sweep_bind trivial ?_
  rintro (e | _)
  · exact hpending _
  have hdatabase : (compactDatabase json cfg d).Keeps (sweep json)
      (some { retention := cfg.compaction.retention }) := by
    refine readManifest_sweep.bind ?_
    rintro _ (e | _ | _ | ⟨f, files⟩) ⟨active, rfl, -⟩
    · trivial
    · trivial
    · trivial
    · refine sweep_bind trivial ?_
      rintro (e | held)
      · trivial
      · refine (mergeSnapshot_sweep (f :: files) rfl rfl).bind fun s _ _ => ?_
        exact .perform (sweep_allows (by simp [Op.kind]) s) fun _ _ _ => trivial
  refine hdatabase.bind fun s _ _ => ?_
  exact .perform (sweep_allows (by simp [Op.kind]) s) fun _ s' _ => hpending s'

end Programs

/-! ### The conditions -/

/-- The retention of every node is longer than a pass and a write attempt together, whatever the
clocks show, if files are stamped at most `lag` before they are uploaded. -/
def Setup.Retains {B : Type} (P : Setup B) (lag : ℤ) : Prop := ∀ i j m : ℕ,
  (P.nodes i).passTimeout + (P.nodes j).cfg.requestTimeout + lag + (P.nodes i).clock <
    (if (P.nodes i).cfg.compaction.retention < 0 then 0
      else (P.nodes i).cfg.compaction.retention) + (P.nodes m).clock

namespace Cluster

variable {B : Type} {P : Setup B} {w w' : Cluster B} {i j : ℕ} {T : Task} {c : Op B} {r : Resp c}
  {lag : ℤ} {g : ℕ → Option Sweep}
variable {k : FileKey} {M files : List FileInfo}

/-- The file that the process `i` has uploaded is stamped at most `lag` ago. -/
def Dated (P : Setup B) (lag : ℤ) (w : Cluster B) (i : ℕ) (w' : Cluster B) : Prop :=
  ∀ n ∈ (w.track i).position, ∀ o ∈ w'.storage.replica.objects, o.info.key = Track.nextKey n →
    ∀ T ∈ w.tasks i, w.localNow P T - lag ≤ o.info.createdAt

instance (P : Setup B) (lag : ℤ) (w : Cluster B) (i : ℕ) (w' : Cluster B) :
    Decidable (w.Dated P lag i w') :=
  inferInstanceAs (Decidable (∀ n ∈ _, ∀ o ∈ _, _ → ∀ T ∈ _, _))

/-- Files are stamped when they are uploaded, a listing does not make a file older than it is, and
no listing is stored as the manifest while a pass is deleting files. -/
def Orderly (P : Setup B) (lag : ℤ) (w : Cluster B) (i : ℕ) :
    (c : Op B) → Resp c → Cluster B → Prop
  | .manifestPut _, _, _ => (w.track i).role = .write → (w.track i).levels = snapshotLevel + 1 →
    ∀ j ∈ w.passLease.holder, ∀ T ∈ w.tasks j, w.Live T → (w.track j).stored = false
  | .deleteLTXFiles .garbage files, _, _ => ∀ f ∈ files, ∀ o ∈ w.storage.replica.objects,
    o.info.key = f.key → o.info.createdAt ≤ f.createdAt
  | .setWriteDisabled _, none, w' => w.Dated P lag i w'
  | .setWriteDisabled _, some _, w' | .commit _, _, w' =>
    w'.storage.replica.objects = w.storage.replica.objects ∨ w.Dated P lag i w'
  | _, _, _ => True

instance (P : Setup B) (lag : ℤ) (w : Cluster B) (i : ℕ) (c : Op B) (r : Resp c)
    (w' : Cluster B) : Decidable (w.Orderly P lag i c r w') := by
  unfold Orderly
  induction c using Op.casesOn with
  | deleteLTXFiles site => cases site <;> infer_instance
  | setWriteDisabled => cases r <;> infer_instance
  | _ => infer_instance

/-- Where the objects come from: a new one is the result of a merge, or it is stamped at most `lag`
ago. -/
theorem Orderly.object_cases (hgood : w.Orderly P lag i c r w') (h : w.Facts P)
    (hallow : w.Permits P i c) (hcall : w.Answers P i c r w') (hT : w.tasks i = some T) {o : Object}
    (ho : o ∈ w'.storage.replica.objects) :
    o ∈ w.storage.replica.objects ∨ 0 < o.info.level ∨
      w.localNow P T - lag ≤ o.info.createdAt := by
  have hobjects : w'.storage.replica.objects = w.storage.replica.objects →
      o ∈ w.storage.replica.objects := fun heq => heq ▸ ho
  obtain ⟨T', st, write, pass, -, -, hanswers, -, -, -, rfl⟩ := hcall
  rw [replica_after] at ho hobjects
  rcases hanswers.replica_cases with heq | ⟨data, -, heq⟩ | ⟨site, files, gone, -, -, heq⟩ |
    ⟨level, files, info, rfl, hmerge, heq⟩ | ⟨s, ses, info, hc, hses, hland, heq⟩
  · exact .inl (hobjects (by rw [heq]))
  · exact .inl (hobjects (by rw [heq]; rfl))
  · rw [heq] at ho
    exact .inl (mem_of_mem_filter ho)
  · rw [heq] at ho
    rcases Replica.mem_put.mp ho with ⟨ho, -⟩ | rfl
    · exact .inl ho
    obtain ⟨-, -, T'', S, -, -, -, below, rfl, -⟩ := hallow
    refine .inr (.inl ?_)
    rw [hmerge.2.2]
    exact Nat.succ_pos below
  · obtain ⟨hflushed, m, n, hrun⟩ : (w.track i).flushed = false ∧ ∃ m n,
        (w.track i).Running s m n := by
      rcases hc with rfl | rfl <;> exact hallow
    have hcases : o ∈ w.storage.replica.objects ∨
        w.Dated P lag i (w.after P i T' c r st write pass) := by
      rcases hc with rfl | rfl
      · exact hgood.imp_left fun heq => hobjects (by rwa [replica_after] at heq)
      cases r with
      | none => exact .inr hgood
      | some e => exact hgood.imp_left fun heq => hobjects (by rwa [replica_after] at heq)
    rcases hcases with hold | hdated
    · exact .inl hold
    rw [heq] at ho
    rcases Replica.mem_put.mp ho with ⟨hold, -⟩ | rfl
    · exact .inl hold
    right
    right
    have hof := (h.sessions i s m.join hrun.session).2 ses hses
    have hkey : info.key = Track.nextKey n := by
      rw [hland.2, ← hof.position hflushed n hrun.position]
      rfl
    refine hdated n hrun.position _ ?_ hkey T hT
    rw [replica_after, heq]
    exact Replica.mem_put.mpr (.inr rfl)

/-! ### The invariant -/

/-- The objects named `k` are of level 0 and recent at time `τ`: no write attempt that was running
then can have uploaded them and stored a manifest before. -/
def Recent (P : Setup B) (lag : ℤ) (w : Cluster B) (τ : ℤ) (k : FileKey) : Prop :=
  k.level = 0 ∧ ∀ o ∈ w.storage.replica.objects, o.info.key = k → ∃ n m,
    τ + (P.nodes m).clock ≤ o.info.createdAt + (P.nodes n).cfg.requestTimeout + lag

theorem Recent.call {τ : ℤ} (h : w.Recent P lag τ k) (htimely : P.Timely) (hτ : τ ≤ w.now)
    (hfacts : w.Facts P) (hallow : w.Permits P i c) (hcall : w.Answers P i c r w')
    (hgood : w.Orderly P lag i c r w') : w'.Recent P lag τ k := by
  refine ⟨h.1, fun o ho hkey => ?_⟩
  obtain ⟨T, hT⟩ := hcall.task
  rcases hgood.object_cases hfacts hallow hcall hT ho with hold | hlevel | hnew
  · exact h.2 o hold hkey
  · have hzero : o.info.level = 0 := (congrArg FileKey.level hkey).trans h.1
    omega
  have hpos := (htimely T.node 0).1
  refine ⟨T.node, T.node, ?_⟩
  rw [localNow] at hnew
  omega

/-- What a pass has recorded of its sweep. -/
structure Sweeps (P : Setup B) (w : Cluster B) (i : ℕ) (s : Sweep) (T : Task) : Prop where
  task : w.tasks i = some T
  deadline : T.deadline = some (T.started.time + (P.nodes T.node).passTimeout)
  retention : s.retention = (P.nodes T.node).cfg.compaction.retention
  pass : s.pass = (w.track i).pass
  stored : s.stored = (w.track i).stored
  time : ∀ t, s.time = some t → t ≤ w.localNow P T
  read : ∀ M, s.active = some M → T.started.time ≤ (w.past.readAt i).time ∧
    (w.past.readAt i).time ≤ w.now

/-- The invariant: uploaded files are stamped after their attempt was started, and what the
manifest names while a pass collects garbage was named when the pass has read it, or is recent. -/
structure Tidy (P : Setup B) (lag : ℤ) (w : Cluster B) (g : ℕ → Option Sweep) : Prop where
  current : w.Current P
  started : ∀ i T, w.tasks i = some T → T.started.time ≤ w.now
  timed : ∀ i T, w.tasks i = some T → (w.track i).role = .write →
    T.deadline = some (T.started.time + (P.nodes T.node).cfg.requestTimeout)
  dated : ∀ i n, (w.track i).flushed = true → (w.track i).position = some n →
    (w.track i).role = .write ∧ ∃ T, w.tasks i = some T ∧
      ∀ o ∈ w.storage.replica.objects, o.info.key = Track.nextKey n →
        ∃ m, T.started.time + (P.nodes m).clock ≤ o.info.createdAt + lag
  role : ∀ i θ, (w.track i).role = .compaction θ → ∃ s, g i = some s
  sweeps : ∀ i s, g i = some s → ∃ T, w.Sweeps P i s T
  kept : ∀ i s M, g i = some s → s.pass = true → s.stored = true → s.active = some M →
    (∀ T, w.tasks i = some T → w.Live T) → ∀ files, w.manifest P = some files →
      ∀ k, HasKey files k → HasKey M k ∨ w.Recent P lag (w.past.readAt i).time k

theorem Sweep.step_sync {json : ManifestJson B} {s : Track} {x : Sweep} (hpass : x.pass = s.pass)
    (hstored : x.stored = s.stored) (c : Op B) (r : Resp c) :
    (x.step json c r).pass = (s.step json c r).pass ∧
      (x.step json c r).stored = (s.step json c r).stored := by
  cases c with
  | acquireKey =>
    cases r with
    | ok => exact ⟨rfl, hstored⟩
    | error => exact ⟨hpass, hstored⟩
  | releaseKey => exact ⟨rfl, hstored⟩
  | manifestPut =>
    cases r with
    | none => exact ⟨hpass, rfl⟩
    | some e => exact ⟨hpass, hstored⟩
  | manifestGet =>
    simp only [Track.step, Track.see]
    split
    · exact ⟨hpass, hstored⟩
    · split <;> exact ⟨hpass, hstored⟩
  | acquire | compact | openWrite | openRead | cacheGet | pos | setWriteDisabled =>
    cases r <;> exact ⟨hpass, hstored⟩
  | release held cancellable => cases cancellable <;> cases r <;> exact ⟨hpass, hstored⟩
  | ltxFiles site level =>
    cases r with
    | error => cases site <;> exact ⟨hpass, hstored⟩
    | ok found =>
      cases site with
      | build | probe =>
        simp only [Track.step]
        split <;> exact ⟨hpass, hstored⟩
      | _ => exact ⟨hpass, hstored⟩
  | selectTXID => rcases r with e | _ | text <;> exact ⟨hpass, hstored⟩
  | _ => exact ⟨hpass, hstored⟩

/-- The manifest that a pass knows of is the one that it has just read, or it knew of it before. -/
theorem Sweep.active_cases {json : ManifestJson B} {x : Sweep}
    (hM : (x.step json c r).active = some M) (hpass : (x.step json c r).pass = true)
    (hstored : (x.step json c r).stored = true) : c = .manifestGet ∨ c ≠ .manifestGet ∧
      (∀ data, c ≠ .manifestPut data) ∧ x.active = some M ∧ x.pass = true ∧ x.stored = true := by
  cases c with
  | manifestGet => exact .inl rfl
  | manifestPut => cases r <;> cases hM
  | acquireKey =>
    cases r with
    | ok => cases hM
    | error => exact .inr ⟨by rintro ⟨⟩, by rintro _ ⟨⟩, hM, hpass, hstored⟩
  | releaseKey => cases hpass
  | _ => exact .inr ⟨by rintro ⟨⟩, by rintro _ ⟨⟩, hM, hpass, hstored⟩

theorem Sweeps.call_self {s : Sweep} (h : w.Sweeps P i s T) (hstarted : T.started.time ≤ w.now)
    (hcall : w.Answers P i c r w') : w'.Sweeps P i (s.step P.json c r) T := by
  have htrack := hcall.track_self
  obtain ⟨hpass, hstored⟩ := @Sweep.step_sync B P.json _ _ h.pass h.stored c r
  have hnow : w'.localNow P T = w.localNow P T := by rw [localNow, localNow, hcall.now_eq]
  have hretention : (s.step P.json c r).retention = s.retention := by
    cases c with
    | acquireKey | manifestPut => cases r <;> rfl
    | _ => rfl
  refine ⟨hcall.tasks_eq ▸ h.task, h.deadline, hretention.trans h.retention, htrack ▸ hpass,
    htrack ▸ hstored, fun t ht => ?_, fun M hM => ?_⟩
  · rw [hnow]
    cases c with
    | now =>
      obtain rfl := some.inj ht
      obtain ⟨T', st, write, pass, hT', hcredible, -, -, -, -, -⟩ := hcall
      obtain rfl := some.inj (h.task.symm.trans hT')
      have heq : r = w.localNow P T := by simpa [credible] using hcredible
      exact heq.le
    | acquireKey | manifestPut => cases r <;> exact h.time t ht
    | _ => exact h.time t ht
  · rw [hcall.now_eq]
    rcases hcall.read_cases i with ⟨-, -, hread⟩ | ⟨hread, -, hne⟩
    · rw [hread]
      exact ⟨hstarted, le_rfl⟩
    rw [hread]
    cases c with
    | manifestGet => exact absurd rfl (hne rfl)
    | acquireKey | manifestPut => cases r <;> first | cases hM | exact h.read M hM
    | _ => exact h.read M hM

theorem Sweeps.call_other {s : Sweep} (h : w.Sweeps P j s T) (hne : j ≠ i)
    (hcall : w.Answers P i c r w') : w'.Sweeps P j s T := by
  have htrack : w'.track j = w.track j :=
    ((hcall.track_cases j).resolve_left fun heq => hne heq.1).2
  have hread : w'.past.readAt j = w.past.readAt j :=
    ((hcall.read_cases j).resolve_left fun heq => hne heq.1).1
  refine ⟨hcall.tasks_eq ▸ h.task, h.deadline, h.retention, htrack ▸ h.pass, htrack ▸ h.stored,
    fun t ht => ?_, fun M hM => ?_⟩
  · rw [localNow, hcall.now_eq]
    exact h.time t ht
  · rw [hread, hcall.now_eq]
    exact h.read M hM

/-- The step of a record of sweeps. -/
abbrev sweepStep (P : Setup B) (g : ℕ → Option Sweep) (i : ℕ) (c : Op B) (r : Resp c) :
    ℕ → Option Sweep := update g i ((g i).map fun s => s.step P.json c r)

theorem Tidy.call_dated (h : w.Tidy P lag g) (hfacts : w.Facts P) (hallow : w.Permits P i c)
    (hcall : w.Answers P i c r w') (hgood : w.Orderly P lag i c r w') {n : ℕ}
    (hflushed : (w'.track j).flushed = true) (hn : (w'.track j).position = some n) :
    (w'.track j).role = .write ∧
      ∃ T, w'.tasks j = some T ∧ ∀ o ∈ w'.storage.replica.objects,
        o.info.key = Track.nextKey n →
          ∃ m, T.started.time + (P.nodes m).clock ≤ o.info.createdAt + lag := by
  rw [hcall.tasks_eq]
  obtain ⟨T', hT'⟩ := hcall.task
  -- what was uploaded before stays dated
  have hold (hflushed : (w.track j).flushed = true) (hn : (w.track j).position = some n) :
      (w.track j).role = .write ∧ ∃ T, w.tasks j = some T ∧ ∀ o ∈ w'.storage.replica.objects,
        o.info.key = Track.nextKey n →
          ∃ m, T.started.time + (P.nodes m).clock ≤ o.info.createdAt + lag := by
    obtain ⟨hrole, T, hT, hdated⟩ := h.dated j n hflushed hn
    have hstarted := h.started j T hT
    refine ⟨hrole, T, hT, fun o ho hkey => ?_⟩
    rcases hgood.object_cases hfacts hallow hcall hT' ho with hold | hlevel | hnew
    · exact hdated o hold hkey
    · have hzero : o.info.level = 0 := congrArg FileKey.level hkey
      omega
    refine ⟨T'.node, ?_⟩
    rw [localNow] at hnew
    omega
  rcases hcall.track_cases j with ⟨rfl, heq⟩ | ⟨-, heq⟩
  · rw [heq] at hflushed hn ⊢
    rw [((w.track j).step_frame P.json c r).role]
    by_cases hpos : ∃ s, c = .pos s
    · obtain ⟨s, rfl⟩ := hpos
      have hunflushed : (w.track j).flushed = false := hallow.1.flushed
      have hsame : ((w.track j).step P.json (.pos s) r).flushed = (w.track j).flushed := by
        cases r <;> rfl
      rw [hsame, hunflushed] at hflushed
      cases hflushed
    by_cases hflush : ∃ s, c = .setWriteDisabled s
    · obtain ⟨s, rfl⟩ := hflush
      obtain ⟨hunflushed, m, n', hrun⟩ := hallow
      cases r with
      | some e =>
        rw [show (w.track j).flushed = true from hflushed] at hunflushed
        cases hunflushed
      | none =>
        have hstarted := h.started j T' hT'
        refine ⟨hrun.role, T', hT', fun o ho hkey => ⟨T'.node, ?_⟩⟩
        have hnew := hgood n hn o ho hkey T' hT'
        rw [localNow] at hnew
        omega
    obtain ⟨hsteady, hposition⟩ := (w.track j).step_steady P.json c r
      (fun s hc => hpos ⟨s, hc⟩) fun s hc => hflush ⟨s, hc⟩
    exact hold (hsteady ▸ hflushed) (hposition ▸ hn)
  · rw [heq] at hflushed hn ⊢
    exact hold hflushed hn

/-- A manifest that a write stores while a pass collects garbage names what was named before, and
recent files. -/
theorem Tidy.posts_kept (h : w.Tidy P lag g) (hbase : w.Base P) {data : B}
    {r : Resp (.manifestPut data)} (hgood : w.Orderly P lag i (.manifestPut data) r w')
    (hposts : w.Posts P i files w') {s : Sweep} (hne : j ≠ i) (hs : g j = some s)
    (hpass : s.pass = true) (hstored : s.stored = true) (hM : s.active = some M)
    (hlive : ∀ T, w.tasks j = some T → w.Live T) (hk : HasKey files k) :
    HasKey M k ∨ w.Recent P lag (w.past.readAt j).time k := by
  obtain ⟨T, hsweeps⟩ := h.sweeps j s hs
  have hholder : w.passLease.holder = some j := hbase.fenced.pass.holder j T hsweeps.task
    (hsweeps.pass.symm.trans hpass) (hlive T hsweeps.task)
  obtain ⟨T', hT', hlive'⟩ := hposts.live
  rcases hposts.source with ⟨hrole, hlevels, -, -⟩ | ⟨hrole, hflushed, ses, plan, base, n, -,
    hbase', hplan, hn, -, -, hfiles⟩ | ⟨hpass', -⟩ | ⟨-, -, -, rfl⟩
  · -- no listing is stored while the pass deletes files
    have hnot := hgood hrole hlevels j hholder T hsweeps.task (hlive T hsweeps.task)
    rw [← hsweeps.stored, hstored] at hnot
    cases hnot
  · have hmanifest := h.current.of_live hbase.fenced hT' hlive' hposts.write hbase'
    rcases (hfiles k).mp hk with hk | rfl
    · exact h.kept j s M hs hpass hstored hM hlive base hmanifest k ((hplan k).mpr hk)
    · -- the attempt that has uploaded the file is still running
      obtain ⟨-, T'', hT'', hdated⟩ := h.dated i n hflushed hn
      cases hT'.symm.trans hT''
      refine .inr ⟨rfl, fun o ho hkey => ?_⟩
      obtain ⟨m, hm⟩ := hdated o ho hkey
      have hdeadline := hlive' _ (h.timed i T' hT' hrole)
      have hread := (hsweeps.read M hM).2
      exact ⟨T'.node, m, by omega⟩
  · -- the pass that collects garbage holds the compaction lease
    have hholder' := hbase.fenced.pass.holder i T' hT' hpass' hlive'
    exact absurd (some.inj (hholder.symm.trans hholder')) hne
  · exact absurd hk not_hasKey_nil

section

variable (h : w.Tidy P lag g) (htimely : P.Timely) (hbase : w.Base P)
  (hallow : w.Permits P i c) (hcall : w.Answers P i c r w')
  (hgood : w.Orderly P lag i c r w')
include h htimely hbase hallow hcall hgood

theorem Tidy.call_kept {s : Sweep} (hs : sweepStep P g i c r j = some s) (hpass : s.pass = true)
    (hstored : s.stored = true) (hM : s.active = some M)
    (hlive : ∀ T, w'.tasks j = some T → w'.Live T) (hfiles : w'.manifest P = some files)
    (hk : HasKey files k) : HasKey M k ∨ w'.Recent P lag (w'.past.readAt j).time k := by
  have hlive' : ∀ T, w.tasks j = some T → w.Live T := by
    intro T hT d hd
    rw [← hcall.now_eq]
    exact hlive T (hcall.tasks_eq ▸ hT) d hd
  by_cases hj : j = i
  · subst hj
    rw [sweepStep, update_self] at hs
    obtain ⟨x, hx, rfl⟩ := map_eq_some_iff.mp hs
    have hsame : (∀ data, c ≠ .manifestPut data) → w.manifest P = some files := by
      intro hput
      rcases hcall.manifest_cases hallow with hsame | ⟨data, -, hc, -⟩
      · exact (manifest_congr hsame).symm.trans hfiles
      · exact absurd hc (hput data)
    rcases Sweep.active_cases hM hpass hstored with rfl | ⟨hget, hput, hM', hpass', hstored'⟩
    · -- the pass has read the manifest that is stored
      obtain ⟨T, st, write, pass, -, -, hanswers, -, -, -, -⟩ := hcall
      have hshown := manifest_of_shown hanswers (join_eq_some_iff.mp hM)
      rw [hsame (by rintro _ ⟨⟩)] at hshown
      cases hshown
      exact .inl hk
    · have hread : w'.past.readAt j = w.past.readAt j := by
        rcases hcall.read_cases j with ⟨-, hc, -⟩ | ⟨heq, -⟩
        · exact absurd hc hget
        · exact heq
      obtain ⟨T, hsweeps⟩ := h.sweeps j x hx
      rw [hread]
      exact (h.kept j x M hx hpass' hstored' hM' hlive' files (hsame hput) k hk).imp_right
        fun hrecent => hrecent.call htimely (hsweeps.read M hM').2 hbase.toFacts hallow hcall hgood
  · rw [sweepStep, update_of_ne hj] at hs
    obtain ⟨T, hsweeps⟩ := h.sweeps j s hs
    have hread : w'.past.readAt j = w.past.readAt j := by
      rcases hcall.read_cases j with ⟨heq, -⟩ | ⟨heq, -⟩
      · exact absurd heq hj
      · exact heq
    rw [hread]
    have hbefore : HasKey M k ∨ w.Recent P lag (w.past.readAt j).time k := by
      rcases hcall.manifest_cases hallow with hsame | ⟨data, posted, rfl, hposts⟩
      · exact h.kept j s M hs hpass hstored hM hlive' files
          ((manifest_congr hsame).symm.trans hfiles) k hk
      obtain ⟨decoded, hdecoded, -, hkeys⟩ := hposts.stores
      rw [hdecoded] at hfiles
      cases hfiles
      exact h.posts_kept hbase hgood hposts hj hs hpass hstored hM hlive' ((hkeys k).mp hk)
    exact hbefore.imp_right fun hrecent => hrecent.call htimely (hsweeps.read M hM).2 hbase.toFacts
      hallow hcall hgood

/-- **A call of an orderly run keeps the invariant.** -/
theorem Tidy.call : w'.Tidy P lag (sweepStep P g i c r) where
  current := h.current.call hallow hcall fun _ => hbase.fenced.holder_of_posts
  started j T hT := by
    rw [hcall.now_eq]
    exact h.started j T (hcall.tasks_eq ▸ hT)
  timed j T hT hrole := by
    rw [hcall.role_eq] at hrole
    exact h.timed j T (hcall.tasks_eq ▸ hT) hrole
  dated _ _ hflushed hn := h.call_dated hbase.toFacts hallow hcall hgood hflushed hn
  role j θ hrole := by
    rw [hcall.role_eq] at hrole
    by_cases hj : j = i
    · subst hj
      obtain ⟨s, hs⟩ := h.role j θ hrole
      exact ⟨s.step P.json c r, by rw [sweepStep, update_self, hs]; rfl⟩
    · rw [sweepStep, update_of_ne hj]
      exact h.role j θ hrole
  sweeps j s hs := by
    by_cases hj : j = i
    · subst hj
      rw [sweepStep, update_self] at hs
      obtain ⟨x, hx, rfl⟩ := map_eq_some_iff.mp hs
      obtain ⟨T, hsweeps⟩ := h.sweeps j x hx
      exact ⟨T, hsweeps.call_self (h.started j T hsweeps.task) hcall⟩
    · rw [sweepStep, update_of_ne hj] at hs
      obtain ⟨T, hsweeps⟩ := h.sweeps j s hs
      exact ⟨T, hsweeps.call_other hj hcall⟩
  kept _ _ _ hs hpass hstored hM hlive _ hfiles _ hk :=
    h.call_kept htimely hbase hallow hcall hgood hs hpass hstored hM hlive hfiles hk

end

/-- The record of a sweep that a program starts with. -/
def Launch.sweep (P : Setup B) : Launch → Option Sweep
  | .compaction n => some { retention := (P.nodes n).cfg.compaction.retention }
  | _ => none

theorem Launch.obeys_sweep (l : Launch) :
    (l.program P).Keeps (Runtime.sweep P.json) (l.sweep P) := by
  cases l with
  | compaction n => exact runCompaction_sweep.bind fun _ _ _ => trivial
  | write n key | read n => exact sweep_none _

theorem Tidy.launch (h : w.Tidy P lag g) (htimely : P.Timely) (hi : w.tasks i = none) (l : Launch) :
    (w.launch P i l).Tidy P lag (update g i (l.sweep P)) := by
  have htrack := track_launch_cases (P := P) (w := w) (i := i) l
  refine ⟨h.current.launch l, fun j T hT => ?_, fun j T hT hrole => ?_,
    fun j n hflushed hn => ?_, fun j θ hrole => ?_, fun j s hs => ?_,
    fun j s M hs hpass hstored hM hlive files hfiles k hk => ?_⟩
  · by_cases hj : j = i
    · subst hj
      rw [tasks_launch_self] at hT
      cases hT
      exact le_rfl
    · rw [tasks_launch_of_ne hj] at hT
      exact h.started j T hT
  · rcases htrack j with ⟨rfl, heq⟩ | ⟨hj, heq⟩ <;> rw [heq] at hrole
    · rw [tasks_launch_self] at hT
      cases hT
      cases l with
      | write n key =>
        have htimeout : (P.nodes n).requestTimeout = some (P.nodes n).cfg.requestTimeout :=
          if_pos (htimely n 0).1
        simp [Launch.timeout, htimeout, Launch.node, stamp]
      | compaction | read => cases hrole
    · rw [tasks_launch_of_ne hj] at hT
      exact h.timed j T hT hrole
  · rcases htrack j with ⟨-, heq⟩ | ⟨hj, heq⟩ <;> rw [heq] at hflushed hn ⊢
    · cases hflushed
    · rw [tasks_launch_of_ne hj]
      exact h.dated j n hflushed hn
  · rcases htrack j with ⟨rfl, heq⟩ | ⟨hj, heq⟩ <;> rw [heq] at hrole
    · rw [update_self]
      cases l with
      | compaction n => exact ⟨_, rfl⟩
      | write | read => cases hrole
    · rw [update_of_ne hj]
      exact h.role j θ hrole
  · rcases htrack j with ⟨rfl, heq⟩ | ⟨hj, heq⟩
    · rw [update_self] at hs
      cases l with
      | write | read => cases hs
      | compaction n =>
        cases hs
        exact ⟨_, tasks_launch_self _, rfl, rfl, by rw [heq], by rw [heq], by rintro _ ⟨⟩,
          by rintro _ ⟨⟩⟩
    · rw [update_of_ne hj] at hs
      obtain ⟨T, hsweeps⟩ := h.sweeps j s hs
      exact ⟨T, (tasks_launch_of_ne hj l).trans hsweeps.task, hsweeps.deadline, hsweeps.retention,
        heq ▸ hsweeps.pass, heq ▸ hsweeps.stored, hsweeps.time, hsweeps.read⟩
  · by_cases hj : j = i
    · subst hj
      rw [update_self] at hs
      cases l with
      | write | read => cases hs
      | compaction n =>
        cases hs
        cases hM
    · rw [update_of_ne hj] at hs
      exact h.kept j s M hs hpass hstored hM
        (fun T hT => hlive T (by rwa [tasks_launch_of_ne hj])) files hfiles k hk

theorem Tidy.move (h : w.Tidy P lag g) (hmove : w.Drifts P w') : w'.Tidy P lag g := by
  refine ⟨h.current.move hmove, fun j T hT => ?_, fun j T hT hrole => ?_,
    fun j n hflushed hn => ?_, fun j θ hrole => ?_, fun j s hs => ?_,
    fun j s M hs hpass hstored hM hlive files hfiles k hk => ?_⟩
  · exact (h.started j T (hmove.tasks ▸ hT)).trans hmove.now
  · exact h.timed j T (hmove.tasks ▸ hT) (hmove.track_eq j ▸ hrole)
  · rw [hmove.track_eq] at hflushed hn ⊢
    rw [hmove.replica, hmove.tasks]
    exact h.dated j n hflushed hn
  · exact h.role j θ (hmove.track_eq j ▸ hrole)
  · obtain ⟨T, hsweeps⟩ := h.sweeps j s hs
    refine ⟨T, hmove.tasks ▸ hsweeps.task, hsweeps.deadline, hsweeps.retention,
      hmove.track_eq j ▸ hsweeps.pass, hmove.track_eq j ▸ hsweeps.stored, fun t ht => ?_,
      fun M hM => ?_⟩
    · exact (hsweeps.time t ht).trans (Int.add_le_add_right hmove.now _)
    · rw [hmove.past]
      exact ⟨(hsweeps.read M hM).1, (hsweeps.read M hM).2.trans hmove.now⟩
  · rw [manifest_congr (congrArg Replica.manifest hmove.replica)] at hfiles
    rw [hmove.past, Recent, hmove.replica]
    exact h.kept j s M hs hpass hstored hM
      (fun T hT => hmove.live (hlive T (hmove.tasks ▸ hT))) files hfiles k hk

theorem tidy_initial (rep : Replica B) : (initial P rep).Tidy P lag fun _ => none :=
  ⟨current_initial rep, nofun, nofun, nofun, nofun, nofun, nofun⟩

/-! ### Deletions -/

/-- What a pass deletes as garbage is old, and was not named by the manifest that it has read. -/
theorem Tidy.garbage (h : w.Tidy P lag g) {r : Resp (.deleteLTXFiles .garbage files : Op B)}
    (hallow : (w.track i).Allows P.json (.deleteLTXFiles .garbage files))
    (hsweep : ∀ s ∈ g i, s.Allows (.deleteLTXFiles .garbage files : Op B))
    (hcall : w.Answers P i (.deleteLTXFiles .garbage files) r w')
    (hgood : w.Orderly P lag i (.deleteLTXFiles .garbage files) r w')
    (hk : HasKey w.storage.replica.infos k) (hgone : ¬ HasKey w'.storage.replica.infos k) :
    ∃ s T M, g i = some s ∧ w.tasks i = some T ∧ w.Live T ∧ s.pass = true ∧ s.stored = true ∧
      s.active = some M ∧ ¬ HasKey M k ∧ (w.past.readAt i).time ≤ w.now ∧
      ∃ o ∈ w.storage.replica.objects, o.info.key = k ∧
        o.info.createdAt + (if (P.nodes T.node).cfg.compaction.retention < 0 then 0
          else (P.nodes T.node).cfg.compaction.retention) ≤
          (w.past.readAt i).time + (P.nodes T.node).passTimeout + (P.nodes T.node).clock := by
  obtain ⟨-, -, -, ⟨θ, hrole⟩, -⟩ := hallow
  obtain ⟨s, hs⟩ := h.role i θ hrole
  obtain ⟨hpass, hstored, M, t, hM, ht, hold⟩ := hsweep s hs
  obtain ⟨T, hsweeps⟩ := h.sweeps i s hs
  obtain ⟨⟨T', hT', hlive⟩, hfiles⟩ := hcall.deleted hk hgone
  cases hsweeps.task.symm.trans hT'
  obtain ⟨f, hf, rfl⟩ := hasKey_iff.mp hfiles
  obtain ⟨o, ho, hkey⟩ := Replica.hasKey_infos.mp hk
  obtain ⟨hunnamed, hage⟩ := hold f hf
  obtain ⟨hstarted, hread⟩ := hsweeps.read M hM
  refine ⟨s, T, M, hs, hsweeps.task, hlive, hpass, hstored, hM, hunnamed, hread, o, ho, hkey, ?_⟩
  have hlisted : o.info.createdAt ≤ f.createdAt := hgood f hf o ho hkey
  have htime := hsweeps.time t ht
  have hdeadline := hlive _ hsweeps.deadline
  rw [hsweeps.retention] at hage
  rw [localNow] at htime
  omega

/-- The PUT of the manifest `data` has taken effect. -/
def Stores (w : Cluster B) (data : B) (r : Option Err) (w' : Cluster B) : Prop :=
  w'.storage.replica.manifest = some data ∧ (r = none ∨ w.storage.replica.manifest ≠ some data)

theorem Answers.not_stores {data : B} {r : Resp (.manifestPut data)}
    (hcall : w.Answers P i (.manifestPut data) r w') (hT : w.tasks i = some T)
    (hlive : ¬ w.Live T) : ¬ w.Stores data r w' := by
  obtain ⟨T', st, write, pass, hT', -, -, -, -, hbound, rfl⟩ := hcall
  cases hT.symm.trans hT'
  rintro ⟨hstored, heffect⟩
  rcases hbound rfl with hlive' | ⟨hfailed, rfl, -⟩
  · exact hlive hlive'
  rw [replica_after] at hstored
  rcases heffect with rfl | hne
  · cases hfailed
  · exact hne hstored

theorem expired_later {good : Cluster B → ℕ → (c : Op B) → Resp c → Cluster B → Prop}
    {a b : Pool (Cluster B) ℕ (Op B) Resp Outcome}
    (hab : Relation.ReflTransGen ((clusterSystem P).restrict good).Step a b)
    (hT : a.world.tasks j = some T) (hlive : ¬ a.world.Live T) :
    b.world.tasks j = some T ∧ ¬ b.world.Live T := by
  refine System.world_of_steps (I := fun w => w.tasks j = some T ∧ ¬ w.Live T) ?_ ?_ ?_ hab
    ⟨hT, hlive⟩
  · rintro w i p _ ⟨hT, hlive⟩ ⟨hi, l, -, rfl⟩
    refine ⟨?_, hlive⟩
    rw [tasks_launch_of_ne ?_]
    · exact hT
    rintro rfl
    rw [hi] at hT
    cases hT
  · rintro w i c r w' ⟨hT, hlive⟩ ⟨hcall, -⟩
    refine ⟨hcall.tasks_eq ▸ hT, fun hlive' => hlive fun d hd => ?_⟩
    rw [← hcall.now_eq]
    exact hlive' d hd
  · rintro w w' ⟨hT, hlive⟩ ⟨e, hmove⟩
    exact ⟨(move_drifts hmove).tasks ▸ hT, fun hlive' => hlive ((move_drifts hmove).live hlive')⟩

/-- **Garbage collection keeps what is committed.** In a timely setup whose retention is long
enough, and along every orderly run, a file that garbage collection deletes is not named by the
stored manifest, and no write attempt that has uploaded it goes on to store a manifest that names
it. -/
theorem gc_keeps_commits (htimely : P.Timely) (hretains : P.Retains lag) {rep : Replica B}
    (hrep : rep.Proper P.json) {a b : Pool (Cluster B) ℕ (Op B) Resp Outcome}
    (ha : ((clusterSystem P).restrict (Orderly P lag)).Reachable (initial P rep) a)
    {files : List FileInfo} {r : Resp (.deleteLTXFiles .garbage files : Op B)}
    (hab : ((clusterSystem P).restrict (Orderly P lag)).Answered a i
      (.deleteLTXFiles .garbage files) r b) {k : FileKey}
    (hk : HasKey a.world.storage.replica.infos k)
    (hgone : ¬ HasKey b.world.storage.replica.infos k) :
    (∀ M, a.world.manifest P = some M → ¬ HasKey M k) ∧
      ∀ j n, (a.world.track j).flushed = true → (a.world.track j).position = some n →
        Track.nextKey n = k → ∀ c d data r',
          Relation.ReflTransGen ((clusterSystem P).restrict (Orderly P lag)).Step b c →
          ((clusterSystem P).restrict (Orderly P lag)).Answered c j (.manifestPut data) r' d →
          c.world.Stores data r' d.world → ∀ M, d.world.manifest P = some M → ¬ HasKey M k := by
  have hinv := invariant_with (Runtime.sweep P.json) none (Launch.sweep P) Launch.obeys_sweep
    htimely (I := fun w g => w.Tidy P lag g) hrep (tidy_initial rep)
    (fun w g i l _ hI hi => hI.launch htimely hi l)
    (fun w g i c r w' hbase hI hallow _ _ hcall hgood _ =>
      ⟨_, rfl, hI.call htimely hbase hallow hcall hgood⟩)
    (fun w g w' _ hI hmove => hI.move hmove) ha
  obtain ⟨hbase, g, htidy, hobeys⟩ := hinv
  have hstep := hab.step
  obtain ⟨q, hproc, ⟨hcall, hgood⟩, -⟩ := hab
  obtain ⟨hallow, hsweep⟩ := (hobeys i _ hproc).1
  obtain ⟨s, T, M₀, hs, hT, hlive, hpass, hstored, hM₀, hunnamed, hread, o, ho, hkey, hold⟩ :=
    htidy.garbage hallow hsweep hcall hgood hk hgone
  refine ⟨fun M hM hnamed => ?_, fun j n hflushed hn hnext c d data r' hbc hcd hstores => ?_⟩
  · have honly : ∀ T', a.world.tasks i = some T' → a.world.Live T' := by
      intro T' hT'
      obtain rfl := some.inj (hT.symm.trans hT')
      exact hlive
    rcases htidy.kept i s M₀ hs hpass hstored hM₀ honly M hM k hnamed with hnamed' | ⟨-, hrecent⟩
    · exact hunnamed hnamed'
    obtain ⟨n, m, hle⟩ := hrecent o ho hkey
    have := hretains T.node n m
    omega
  · -- the deadline of the attempt has passed
    exfalso
    obtain ⟨hrole, T', hT', hdated⟩ := htidy.dated j n hflushed hn
    obtain ⟨m, hle⟩ := hdated o ho (hkey.trans hnext.symm)
    have hexpired : ¬ a.world.Live T' := by
      intro hlive'
      have hdeadline := hlive' _ (htidy.timed j T' hT' hrole)
      have := hretains T.node T'.node m
      omega
    obtain ⟨hT'', hexpired'⟩ := expired_later (.head hstep hbc) hT' hexpired
    obtain ⟨-, -, ⟨hcall', -⟩, -⟩ := hcd
    exact hcall'.not_stores hT'' hexpired' hstores

end Cluster

/-! ### Particular runs -/

namespace Collecting

open Script Covering

/-- A pass up to the point where it has read the manifest to collect garbage; it begins at `now` and
deletes the files that it has merged. -/
def sweeping (now : ℤ) : Moves :=
  .start 2 (.compaction 0) ::
    calls 2 ([.ok, .ok, .wrote (now + 34 * second), .wrote now, .wrote (now + 30 * second)] ++
      oks 5 ++ [.wrote 16, .ok])

/-- A write is acknowledged while the pass collects garbage. -/
def overlapping : Moves :=
  written ++ sweeping 0 ++ .start 3 (.write 0 "c") :: calls 3 (write (30 * second) 0) ++
    calls 2 (oks 11)

/-- The manifest with the file of a third write is not stored, and much later a pass collects
garbage. -/
def abandoned : Moves :=
  written ++ .start 3 (.write 0 "c") ::
    calls 3 (flushed (30 * second) 0 ++ oks 1 ++ [.fail (.other "unavailable")] ++ oks 2) ++
    .env (.tick (700 * second)) :: sweeping (700 * second) ++ calls 2 (oks 11)

/-- The garbage that a process is about to delete. -/
def collected (a : State) (i : ℕ) : Option (List FileInfo) :=
  match a.pending i with
  | some (.deleteLTXFiles .garbage files) => some files
  | _ => none

theorem pending_of_collected {a : State} {i : ℕ} {files : List FileInfo}
    (h : collected a i = some files) : a.pending i = some (.deleteLTXFiles .garbage files) := by
  unfold collected at h
  split at h
  · next heq =>
    rw [heq, some.inj h]
  · cases h

/-- What a run shows before and after the deletion of garbage. -/
structure View where
  garbage : Option (List FileInfo)
  manifest : Option (List FileInfo)
  before : List FileInfo
  after : List FileInfo
  deriving DecidableEq

/-- The view of two pools. -/
def view (retention : ℤ) (a b : State) : View :=
  ⟨collected a 2, a.world.manifest (retaining retention), a.world.storage.replica.infos,
    b.world.storage.replica.infos⟩

theorem overlapping_exec :
    ((clusterInterpreter (retaining 0)).exec (Cluster.initial (retaining 0) ⟨[], none⟩)
      overlapping).bind (fun a => ((clusterInterpreter (retaining 0)).step a (.call 2 .ok)).map
        (view 0 a)) =
      some ⟨some [⟨0, 3, 3, 0, 0⟩], some [⟨0, 3, 3, 0, 0⟩, ⟨1, 1, 2, 0, 0⟩],
        [⟨1, 1, 2, 0, 0⟩, ⟨0, 3, 3, 0, 0⟩], [⟨1, 1, 2, 0, 0⟩]⟩ := by
  decide +kernel

/-- The setup of the run in which garbage collection is safe. -/
abbrev patient : Setup (Option ManifestDocument) := retaining (600 * second)

theorem abandoned_exec :
    (((clusterInterpreter patient).restrict (Cluster.Orderly patient 0)).exec
      (Cluster.initial patient ⟨[], none⟩) abandoned).bind (fun a =>
        (((clusterInterpreter patient).restrict (Cluster.Orderly patient 0)).step a
          (.call 2 .ok)).map (view (600 * second) a)) =
      some ⟨some [⟨0, 3, 3, 0, 0⟩], some [⟨1, 1, 2, 0, 700 * second⟩],
        [⟨0, 3, 3, 0, 0⟩, ⟨1, 1, 2, 0, 700 * second⟩], [⟨1, 1, 2, 0, 700 * second⟩]⟩ := by
  decide +kernel

theorem patient_retains : patient.Retains 0 := fun _ _ _ =>
  (by decide : (retainer (600 * second)).passTimeout +
    (retainer (600 * second)).cfg.requestTimeout + 0 + 0 < 600 * second + 0)

theorem answered_of_view {S : System (Cluster (Option ManifestDocument)) ℕ
      (Op (Option ManifestDocument)) Resp Cluster.Outcome} {w : Cluster (Option ManifestDocument)}
    {St Ch En : Type} (I : Interpreter S St Ch En) {ms : List (Move ℕ St Ch En)} {x : Ch}
    {retention : ℤ} {v : View} {files : List FileInfo}
    (h : (I.exec w ms).bind (fun a => (I.step a (.call 2 x)).map (view retention a)) = some v)
    (hfiles : v.garbage = some files) : ∃ a b : State, S.Reachable w a ∧
      (∃ r, S.Answered a 2 (.deleteLTXFiles .garbage files) r b) ∧ view retention a b = v := by
  obtain ⟨a, ha, hrest⟩ := bind_eq_some_iff.mp h
  obtain ⟨b, hb, hview⟩ := map_eq_some_iff.mp hrest
  have hpending : collected a 2 = some files := by
    rw [← hfiles, ← hview]
    rfl
  exact ⟨a, b, I.exec_reachable ha, I.step_answered (pending_of_collected hpending) hb, hview⟩

end Collecting

open Collecting Covering in
/-- With retention zero, which the configuration admits, garbage collection deletes the file of a
write that was acknowledged after it had read the manifest. -/
theorem gc_deletes_commit : (∀ n, ((retaining 0).nodes n).cfg.compaction.retention = 0) ∧
    ∃ (a b : State) (M : List FileInfo) (r : Resp (.deleteLTXFiles .garbage [⟨0, 3, 3, 0, 0⟩])),
      (clusterSystem (retaining 0)).Reachable (Cluster.initial (retaining 0) ⟨[], none⟩) a ∧
      (clusterSystem (retaining 0)).Answered a 2 (.deleteLTXFiles .garbage [⟨0, 3, 3, 0, 0⟩]) r b ∧
      a.world.manifest (retaining 0) = some M ∧ HasKey M ⟨0, 3, 3⟩ ∧
      HasKey a.world.storage.replica.infos ⟨0, 3, 3⟩ ∧
      ¬ HasKey b.world.storage.replica.infos ⟨0, 3, 3⟩ := by
  obtain ⟨a, b, ha, ⟨r, hab⟩, hview⟩ := answered_of_view _ overlapping_exec rfl
  have hbefore : a.world.storage.replica.infos = _ := congrArg View.before hview
  have hafter : b.world.storage.replica.infos = _ := congrArg View.after hview
  refine ⟨fun n => rfl, a, b, _, r, ha, hab, congrArg Collecting.View.manifest hview, by decide,
    ?_, ?_⟩
  · rw [hbefore]
    decide
  · rw [hafter]
    decide

open Collecting Covering in
/-- A pass deletes the file of a write whose manifest was not stored long ago. -/
theorem gc_keeps_commits_abandoned : ∃ (a b : State)
    (r : Resp (.deleteLTXFiles .garbage [⟨0, 3, 3, 0, 0⟩])),
    ((clusterSystem patient).restrict (Cluster.Orderly patient 0)).Reachable
      (Cluster.initial patient ⟨[], none⟩) a ∧
    ((clusterSystem patient).restrict (Cluster.Orderly patient 0)).Answered a 2
      (.deleteLTXFiles .garbage [⟨0, 3, 3, 0, 0⟩]) r b ∧
    HasKey a.world.storage.replica.infos ⟨0, 3, 3⟩ ∧
    ¬ HasKey b.world.storage.replica.infos ⟨0, 3, 3⟩ ∧
    ∀ M, a.world.manifest patient = some M → ¬ HasKey M ⟨0, 3, 3⟩ := by
  obtain ⟨a, b, ha, ⟨r, hab⟩, hview⟩ := answered_of_view _ abandoned_exec rfl
  have hbefore : a.world.storage.replica.infos = _ := congrArg View.before hview
  have hafter : b.world.storage.replica.infos = _ := congrArg View.after hview
  have hk : HasKey a.world.storage.replica.infos ⟨0, 3, 3⟩ := by
    rw [hbefore]
    decide
  have hgone : ¬ HasKey b.world.storage.replica.infos ⟨0, 3, 3⟩ := by
    rw [hafter]
    decide
  exact ⟨a, b, r, ha, hab, hk, hgone,
    (Cluster.gc_keeps_commits retaining_timely patient_retains proper_empty ha hab hk hgone).1⟩

end Walrusd.Runtime
