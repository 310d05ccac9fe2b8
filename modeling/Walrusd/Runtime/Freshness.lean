import Walrusd.Runtime.Duty
import Walrusd.Runtime.Stamps

/-!
# What reads see

A read runs on a session whose file list was fixed when it was opened, and a cached session serves
later reads as well. A read that opens its session sees every write that was acknowledged before it
started. Whether a cached session does depends on when the manifest was read that it was opened on:
a write evicts the cached session of its node before it is acknowledged, but a read that began
before the write may cache its session afterwards, a retry that finds its key recorded evicts
nothing, and every use of a cached session prolongs its life.

## Main definitions

* `Cluster.Watchful`, `Cluster.Attentive`, `Cluster.Punctual` — the conditions on the steps of a
  run.
* `Cluster.Informed` — the invariant.

## Main results

* `Cluster.read_your_writes`.
* `Cluster.bounded_staleness`.
-/

namespace Walrusd.Runtime

open Program Litestream Function Option

namespace Cluster

variable {B : Type} {P : Setup B} {w w' : Cluster B} {i j : ℕ} {T : Task} {c : Op B} {r : Resp c}
  {g : ℕ → Duty}
variable {s : Sess} {t m : ℕ}

/-! ### Sessions and what they list -/

/-- The session `s`, while it is open, lists files that cover `t`. -/
def Lists (w : Cluster B) (s : Sess) (t : ℕ) : Prop :=
  ∀ ses, w.storage.sessions s = some ses → Covers ses.client.files t

theorem Lists.call (h : w.Lists s t) (hs : s < w.storage.opened) (hcall : w.Answers P i c r w') :
    w'.Lists s t := by
  obtain ⟨T, st, write, pass, -, -, hanswers, -, -, -, rfl⟩ := hcall
  intro ses hses
  obtain ⟨ses', hses', hmono⟩ := hanswers.files_mono (sessions_closeAll hses) hs
  exact (h ses' hses').mono hmono

theorem Lists.move (h : w.Lists s t) (hmove : w.Drifts P w') :
    w'.Lists s t := fun ses hses => h ses (hmove.sessions s ses hses)

/-- The write `i` is about to acknowledge `t`: it has published it and evicted the cached session
of its node, and its deadline has not passed. -/
structure Due (w : Cluster B) (g : ℕ → Duty) (i : ℕ) (T : Task) (t : ℕ) : Prop where
  task : w.tasks i = some T
  live : w.Live T
  evicted : ∃ found, g i = .write true found
  published : (w.track i).Published
  result : (w.track i).result = some t

/-- The TXID `t` was acknowledged, or is about to be, and `m` is the step at which the write was
acknowledged or last evicted cached sessions. -/
def Known (w : Cluster B) (g : ℕ → Duty) (m t : ℕ) : Prop :=
  (∃ i σ, w.past.settledAt i = some σ ∧ (w.track i).acked = some t ∧ m = σ.step) ∨
    ∃ i T, w.Due g i T t ∧ m = (w.past.markedAt T.node).step

theorem Known.covers (h : w.Known g m t) (hcovered : w.Covered P) (hbase : w.Base P) :
    Covers (w.index P) t := by
  rcases h with ⟨i, σ, -, hacked, -⟩ | ⟨i, T, hdue, -⟩
  · exact hcovered.acked i t hacked
  · exact hcovered.published hbase hdue.published hdue.task hdue.live hdue.result

/-- A write is about to acknowledge after a call only if it was before, or has just evicted. -/
theorem Due.before (h : w'.Due (update g i ((g i).step c r)) j T t) (hcall : w.Answers P i c r w') :
    w.Due g j T t ∨ j = i ∧ c = .evict := by
  have htask : w.tasks j = some T := hcall.tasks_eq ▸ h.task
  have hlive : w.Live T := by
    intro d hd
    rw [← hcall.now_eq]
    exact h.live d hd
  rcases hcall.track_cases j with ⟨rfl, heq⟩ | ⟨hne, heq⟩
  · obtain ⟨found, hevicted⟩ := h.evicted
    rw [update_self] at hevicted
    by_cases hc : c = .evict
    · exact .inr ⟨rfl, hc⟩
    left
    cases hg : g j with
    | none | read =>
      rw [hg] at hevicted
      cases hevicted
    | write evicted found' =>
      rw [hg] at hevicted
      have hclose : ∃ s, c = .closeSession s := by
        cases c with
        | evict => exact absurd rfl hc
        | closeSession s => exact ⟨s, rfl⟩
        | selectTXID => rcases r with e | _ | text <;> cases hevicted
        | _ => cases hevicted
      obtain ⟨s, rfl⟩ := hclose
      obtain ⟨rfl, -⟩ := Duty.write.inj hevicted
      have hsame : w'.track j = w.track j := heq
      exact ⟨htask, hlive, ⟨found', hg⟩, hsame ▸ h.published, hsame ▸ h.result⟩
  · obtain ⟨found, hevicted⟩ := h.evicted
    rw [update_of_ne hne] at hevicted
    exact .inl ⟨htask, hlive, ⟨found, hevicted⟩, heq ▸ h.published, heq ▸ h.result⟩

/-- An eviction by a write is stamped. -/
theorem Answers.marked_evict {r : Resp (.evict : Op B)} (hcall : w.Answers P i .evict r w')
    (hT : w.tasks i = some T) (hrole : (w.track i).role = .write) :
    w'.past.markedAt T.node = w.stamp := by
  obtain ⟨T', st, write, pass, hT', -, -, -, -, -, rfl⟩ := hcall
  cases hT.symm.trans hT'
  have hpast : (w.remember P i T .evict r st).markedAt =
      update w.past.markedAt T.node w.stamp := by
    unfold remember
    simp [hrole]
  exact (congrFun hpast _).trans (update_self ..)

/-- What is known after a call was known before it, or it has become known by the call. -/
theorem Known.before (h : w'.Known (update g i ((g i).step c r)) m t) (hcall : w.Answers P i c r w')
    (hmarked : ∀ n, (w.past.markedAt n).step ≤ w.past.steps) :
    (∃ m' ≤ m, w.Known g m' t) ∨ w.past.steps ≤ m := by
  rcases h with ⟨j, σ, hσ, hacked, rfl⟩ | ⟨j, T, hdue, rfl⟩
  · rcases hcall.settled_cases j with ⟨-, -, hstamp⟩ | ⟨hsame, hacked'⟩
    · rw [hstamp] at hσ
      cases hσ
      exact .inr le_rfl
    · exact .inl ⟨σ.step, le_rfl, .inl ⟨j, σ, hsame ▸ hσ, hacked' ▸ hacked, rfl⟩⟩
  · rcases hdue.before hcall with hold | ⟨rfl, rfl⟩
    · refine .inl ⟨(w.past.markedAt T.node).step, ?_, .inr ⟨j, T, hold, rfl⟩⟩
      rcases hcall.marked_cases T.node with heq | heq
      · rw [heq]
      · rw [heq]
        exact hmarked T.node
    · right
      have hT : w.tasks j = some T := hcall.tasks_eq ▸ hdue.task
      have hrole : (w.track j).role = .write := hcall.role_eq j ▸ hdue.published.1
      rw [hcall.marked_evict hT hrole]
      exact le_rfl

/-! ### The conditions -/

/-- A run is careful, a read opens its session on a listing only while there is no manifest, and
its probe of a level finds nothing only if there is no manifest and nothing on that level. -/
def Watchful (P : Setup B) (w : Cluster B) (i : ℕ) : (c : Op B) → Resp c → Cluster B → Prop
  | .openRead none, _, _ => w.manifest P = none
  | .ltxFiles .probe level, .ok [], _ =>
    w.manifest P = none ∧ ∀ f ∈ w.storage.replica.infos, f.level ≠ level
  | c, r, w' => w.Careful P i c r w'

instance (P : Setup B) (w : Cluster B) (i : ℕ) (c : Op B) (r : Resp c) (w' : Cluster B) :
    Decidable (w.Watchful P i c r w') := by
  unfold Watchful
  induction c using Op.casesOn with
  | openRead plan => cases plan <;> infer_instance
  | ltxFiles site => cases site <;> rcases r with _ | _ | _ <;> infer_instance
  | _ => infer_instance

theorem Watchful.careful (h : w.Watchful P i c r w') : w.Careful P i c r w' := by
  unfold Watchful at h
  split at h
  · trivial
  · trivial
  · exact h

/-- A session is cached only if the manifest that it was opened on was read after the last eviction
and the last acknowledgement on its node, and a write whose key was recorded is acknowledged only
when its node has no session cached. -/
def Attentive (P : Setup B) (w : Cluster B) (i : ℕ) : (c : Op B) → Resp c → Cluster B → Prop
  | .cachePut s, _, _ => ∀ T ∈ w.tasks i, (w.past.markedAt T.node).step < (w.past.plannedAt s).step
  | .release _ true, none, _ => (w.track i).found ≠ none →
    ∀ T ∈ w.tasks i, ((w.caches T.node).find P.key).isNone = true
  | c, r, w' => w.Watchful P i c r w'

instance (P : Setup B) (w : Cluster B) (i : ℕ) (c : Op B) (r : Resp c) (w' : Cluster B) :
    Decidable (w.Attentive P i c r w') := by
  unfold Attentive
  induction c using Op.casesOn with
  | release held cancellable => cases cancellable <;> cases r <;> infer_instance
  | _ => infer_instance

theorem Attentive.watchful (h : w.Attentive P i c r w') : w.Watchful P i c r w' := by
  unfold Attentive at h
  split at h
  · trivial
  · trivial
  · exact h

/-- A cached session is used only while the manifest that it was opened on was read no longer ago
than the idle time limit. -/
def Punctual (P : Setup B) (w : Cluster B) (i : ℕ) : (c : Op B) → Resp c → Cluster B → Prop
  | .cacheGet, some s, _ => ∀ T ∈ w.tasks i,
    w.now - (w.past.plannedAt s).time ≤ (P.nodes T.node).cfg.readInstanceIdleTTL
  | c, r, w' => w.Watchful P i c r w'

instance (P : Setup B) (w : Cluster B) (i : ℕ) (c : Op B) (r : Resp c) (w' : Cluster B) :
    Decidable (w.Punctual P i c r w') := by
  unfold Punctual
  induction c using Op.casesOn with
  | cacheGet => cases r <;> infer_instance
  | _ => infer_instance

theorem Punctual.watchful (h : w.Punctual P i c r w') : w.Watchful P i c r w' := by
  unfold Punctual at h
  split at h
  · trivial
  · exact h

/-! ### What holds in every watchful run -/

/-- How the duty of a process relates to its record. -/
structure Owes (s : Track) (x : Duty) : Prop where
  read : s.role = .read → x = .read
  unlocked : x = .read → s.write = false ∧ s.pass = false
  write : s.role = .write → ∃ evicted found, x = .write evicted found ∧
    (found = true → s.found ≠ none)

theorem Owes.step {s : Track} {x : Duty} (h : Owes s x) (hallow : x.Allows c) :
    Owes (s.step P.json c r) (x.step c r) := by
  have hrole := (s.step_frame P.json c r).role
  refine ⟨fun hread => ?_, fun hread => ?_, fun hwrite => ?_⟩
  · rw [h.read (hrole ▸ hread)]
    rfl
  · have hx : x = .read := by
      cases x with
      | read => rfl
      | none => cases hread
      | write evicted found =>
        obtain ⟨evicted', found', heq, -⟩ := @Duty.step_write B evicted found c r
        rw [heq] at hread
        cases hread
    subst hx
    obtain ⟨hw, hp, -⟩ := (s.step_frame P.json c r).lease hallow
    rw [hw, hp]
    exact h.unlocked rfl
  · obtain ⟨evicted, found, rfl, hfound⟩ := h.write (hrole ▸ hwrite)
    by_cases hselect : ∃ s key, c = .selectTXID s key
    · obtain ⟨h', key, rfl⟩ := hselect
      rcases r with e | _ | text
      · exact ⟨false, found, rfl, hfound⟩
      · exact ⟨false, found, rfl, hfound⟩
      · exact ⟨false, true, rfl, fun _ => some_ne_none text⟩
    · have hsame : (s.step P.json c r).found = s.found :=
        Track.found_step fun h' key heq => hselect ⟨h', key, heq⟩
      have hstep : ∃ evicted', (Duty.write evicted found).step c r = .write evicted' found := by
        cases c with
        | selectTXID h' key => exact absurd ⟨h', key, rfl⟩ hselect
        | _ => exact ⟨_, rfl⟩
      obtain ⟨evicted', heq⟩ := hstep
      exact ⟨evicted', found, heq, fun hf => by rw [hsame]; exact hfound hf⟩

/-- The sessions of reads and caches have been opened, and reads have begun before they have read
the manifest or opened a session. -/
structure Lodged (P : Setup B) (w : Cluster B) : Prop where
  cached : ∀ n, ∀ e ∈ (w.caches n).entries, e.key = P.key → ∀ s, e.inst = some s →
    s < w.storage.opened
  hit : ∀ i s, (w.track i).hit = some s → s < w.storage.opened
  opened : ∀ i s, (w.track i).opened = some s → s < w.storage.opened ∧ ∃ T, w.tasks i = some T ∧
    T.started.step ≤ (w.past.plannedAt s).step
  seen : ∀ i m, (w.track i).role = .read → (w.track i).snapshot = some m →
    ∃ T, w.tasks i = some T ∧ T.started.step ≤ (w.past.readAt i).step
  run : ∀ x ∈ w.past.runs, ∃ T, w.tasks x.proc = some T

/-- What was known when a process read the manifest is covered by what it has read, and by the
session that it opened; and a process that has found all probed levels empty has missed a level of
the index, if something was acknowledged before it started. -/
structure Informed (P : Setup B) (w : Cluster B) (g : ℕ → Duty) : Prop where
  covered : w.Covered P
  owes : ∀ i, Owes (w.track i) (g i)
  stamped : w.Stamped
  lodged : w.Lodged P
  reads : ∀ m t, w.Known g m t → ∀ j files, (w.track j).role = .read →
    m < (w.past.readAt j).step → (w.track j).snapshot = some (some files) → Covers files t
  lists : ∀ m t, w.Known g m t → ∀ s, m < (w.past.plannedAt s).step → w.Lists s t
  probes : ∀ i σ t j T, w.past.settledAt i = some σ → (w.track i).acked = some t →
    w.tasks j = some T → σ.step < T.started.step → ∃ level ≤ snapshotLevel,
      level ∉ (w.track j).empty ∧ (w.manifest P = none →
        ∃ k, HasKey (w.index P) k ∧ k.level = level)

theorem Lodged.call (h : w.Lodged P) (hstamped : w.Stamped) (hallow : w.Permits P i c)
    (hcall : w.Answers P i c r w') : w'.Lodged P := by
  have hopened := hcall.opened_le
  -- the stamp of a session that was opened before stays
  have hplanned {s : Sess} (hs : s < w.storage.opened) :
      w'.past.plannedAt s = w.past.plannedAt s := by
    rcases hcall.planned_cases s with heq | ⟨rfl, -⟩
    · exact heq
    · exact absurd hs (lt_irrefl _)
  refine ⟨fun n e he hkey s hs => ?_, fun j s hs => ?_, fun j s hs => ?_, fun j m hrole hm => ?_,
    fun x hx => ?_⟩
  · rcases hcall.cache_cases he hkey with ⟨⟨e', he', hkey', hinst⟩, -⟩ | ⟨T, s', -, -, rfl, hinst⟩
    · exact (h.cached n e' he' hkey' s (hinst.trans hs)).trans_le hopened
    · obtain rfl : s' = s := some.inj (hinst.symm.trans hs)
      exact (h.opened i s' hallow.2).1.trans_le hopened
  · rcases hcall.track_cases j with ⟨rfl, heq⟩ | ⟨-, heq⟩
    · rw [heq] at hs
      rcases Track.hit_cases hs with hout | hs
      · obtain ⟨T, -, e, he, hkey, hinst⟩ := hcall.handsOut_cached hout
        exact (h.cached T.node e he hkey s hinst).trans_le hopened
      · exact (h.hit j s hs).trans_le hopened
    · rw [heq] at hs
      exact (h.hit j s hs).trans_le hopened
  · have hold (hs : (w.track j).opened = some s) : s < w'.storage.opened ∧
        ∃ T, w'.tasks j = some T ∧ T.started.step ≤ (w'.past.plannedAt s).step := by
      obtain ⟨hlt, T, hT, hstep⟩ := h.opened j s hs
      rw [hcall.tasks_eq, hplanned hlt]
      exact ⟨hlt.trans_le hopened, T, hT, hstep⟩
    rcases hcall.track_cases j with ⟨rfl, heq⟩ | ⟨-, heq⟩
    · rw [heq] at hs
      by_cases hc : ∃ plan, c = .openRead plan
      · obtain ⟨plan, rfl⟩ := hc
        cases r with
        | error e => exact hold hs
        | ok s' =>
          obtain rfl : s' = s := some.inj hs
          obtain ⟨rfl, hnext, hplan⟩ := hcall.openRead_ok
          obtain ⟨T, hT, hstep⟩ := h.seen j plan hallow.1 hallow.2
          rw [hnext, hplan, update_self, hcall.tasks_eq]
          exact ⟨Nat.lt_succ_self _, T, hT, hstep⟩
      · rw [Track.opened_step fun plan heq => hc ⟨plan, heq⟩] at hs
        exact hold hs
    · rw [heq] at hs
      exact hold hs
  · rw [hcall.role_eq] at hrole
    rw [hcall.tasks_eq]
    rcases hcall.read_cases j with ⟨rfl, -, hread⟩ | ⟨hread, hsnapshot, -⟩
    · obtain ⟨T, hT⟩ := hcall.task
      rw [hread]
      exact ⟨T, hT, (hstamped.started j T hT).1⟩
    · rw [hread]
      exact h.seen j m hrole (hsnapshot ▸ hm)
  · rw [hcall.tasks_eq]
    rcases hcall.runs_cases hx with hold | ⟨rfl, -⟩
    · exact h.run x hold
    · exact hcall.task

/-- What was known when a process read the manifest is covered by it. -/
theorem Informed.call_reads (h : w.Informed P g) (hbase : w.Base P) (hcall : w.Answers P i c r w')
    (hknown : w'.Known (update g i ((g i).step c r)) m t) {j : ℕ} {files : List FileInfo}
    (hrole : (w'.track j).role = .read) (hm : m < (w'.past.readAt j).step)
    (hfiles : (w'.track j).snapshot = some (some files)) : Covers files t := by
  rcases hcall.read_cases j with ⟨rfl, rfl, hread⟩ | ⟨hread, hsnapshot, -⟩
  · -- the process reads the manifest now, and holds no lease
    rw [hread] at hm
    rcases hknown.before hcall h.stamped.marked with ⟨m', -, hbefore⟩ | hle
    · have hcovers := hbefore.covers h.covered hbase
      rw [hcall.role_eq] at hrole
      rw [hcall.track_self] at hfiles
      obtain ⟨hw, hp⟩ := (h.owes j).unlocked ((h.owes j).read hrole)
      have hshown : shownManifest P.json r = some (some files) := by
        simpa [Track.step, Track.see, hw, hp] using hfiles
      obtain ⟨T, st, write, pass, -, -, hanswers, -, -, -, -⟩ := hcall
      rwa [index_of_manifest (manifest_of_shown hanswers hshown)] at hcovers
    · exact absurd hm (not_lt.mpr hle)
  · rw [hcall.role_eq] at hrole
    rw [hread] at hm
    rw [hsnapshot] at hfiles
    rcases hknown.before hcall h.stamped.marked with ⟨m', hle, hbefore⟩ | hle
    · exact h.reads m' t hbefore j files hrole (hle.trans_lt hm) hfiles
    · exact absurd (hm.trans_le (h.stamped.read j).1) (not_lt.mpr hle)

section

variable (h : w.Informed P g) (hbase : w.Base P) (hallow : w.Permits P i c)
include h hbase hallow

/-- What was known when the manifest was read that a session was opened on is covered by the
session. -/
theorem Informed.call_lists (hcall : w.Answers P i c r w') (hgood : w.Watchful P i c r w')
    (hknown : w'.Known (update g i ((g i).step c r)) m t) (hm : m < (w'.past.plannedAt s).step) :
    w'.Lists s t := by
  intro ses hses
  have hpast : m < w.past.steps := by
    rcases hcall.planned_cases s with heq | ⟨-, -, heq, -⟩
    · exact (heq ▸ hm).trans_le (h.stamped.planned s).1
    · exact (heq ▸ hm).trans_le (h.stamped.read i).1
  obtain ⟨m', hle, hbefore⟩ : ∃ m' ≤ m, w.Known g m' t := by
    rcases hknown.before hcall h.stamped.marked with hbefore | hle
    · exact hbefore
    · exact absurd hpast (not_lt.mpr hle)
  rcases hcall.session_old hbase.fresh hses with hlt | ⟨rfl, plan, rfl | ⟨rfl, hplanned, rfl⟩⟩
  · have hsame : w'.past.plannedAt s = w.past.plannedAt s := by
      rcases hcall.planned_cases s with heq | ⟨rfl, -⟩
      · exact heq
      · exact absurd hlt (lt_irrefl _)
    rw [hsame] at hm
    exact (h.lists m' t hbefore s (hle.trans_lt hm)).call hlt hcall ses hses
  · -- the sessions of writes have no stamp
    rcases hcall.planned_cases w.storage.opened with heq | ⟨-, -, -, _, hc⟩
    · rw [heq, h.stamped.unplanned _ le_rfl] at hm
      exact absurd hm (Nat.not_lt_zero m)
    · cases hc
  · rw [hplanned] at hm
    cases plan with
    | some files => exact h.reads m' t hbefore i files hallow.1 (hle.trans_lt hm) hallow.2
    | none =>
      have hnone : w.manifest P = none := hgood
      have hcovers := hbefore.covers h.covered hbase
      rwa [index_of_none hnone] at hcovers

/-- A level of the index stays there while there is no manifest. -/
theorem Informed.call_probes (hcall : w.Answers P i c r w') (hgood : w.Watchful P i c r w') {i' : ℕ}
    {σ : Stamp} {j : ℕ} {T : Task} (hσ : w'.past.settledAt i' = some σ)
    (hacked : (w'.track i').acked = some t) (hT : w'.tasks j = some T)
    (hlt : σ.step < T.started.step) :
    ∃ level ≤ snapshotLevel, level ∉ (w'.track j).empty ∧ (w'.manifest P = none →
      ∃ k, HasKey (w'.index P) k ∧ k.level = level) := by
  rw [hcall.tasks_eq] at hT
  obtain ⟨hσ', hacked'⟩ : w.past.settledAt i' = some σ ∧ (w.track i').acked = some t := by
    rcases hcall.settled_cases i' with ⟨-, -, heq⟩ | ⟨hsame, hacked'⟩
    · rw [heq] at hσ
      cases hσ
      exact absurd hlt (not_lt.mpr (h.stamped.started j T hT).1)
    · exact ⟨hsame ▸ hσ, hacked' ▸ hacked⟩
  obtain ⟨level, hlevel, hempty, hindex⟩ := h.probes i' σ t j T hσ' hacked' hT hlt
  refine ⟨level, hlevel, ?_, fun hnone => ?_⟩
  · rcases hcall.track_cases j with ⟨rfl, heq⟩ | ⟨-, heq⟩
    · rw [heq]
      by_cases hprobe : ∃ probed, c = .ltxFiles .probe probed
      · obtain ⟨probed, rfl⟩ := hprobe
        rcases r with e | _ | ⟨f, files⟩
        · exact hempty
        · -- nothing is found only on a level that has nothing
          obtain ⟨hnone, hlisted⟩ := hgood
          obtain ⟨k, hk, rfl⟩ := hindex hnone
          rw [index_of_none hnone] at hk
          obtain ⟨f, hf, rfl⟩ := hasKey_iff.mp hk
          rintro (_ | ⟨_, hmem⟩)
          · exact hlisted f hf rfl
          · exact hempty hmem
        · exact hempty
      · rw [Track.empty_step fun probed heq => hprobe ⟨probed, heq⟩]
        exact hempty
    · rw [heq]
      exact hempty
  · rcases hcall.manifest_cases hallow with hsame | ⟨data, files, -, hposts⟩
    · obtain ⟨k, hk, hklevel⟩ := hindex ((manifest_congr hsame).symm.trans hnone)
      exact ⟨k, hbase.index_mono hallow hcall hsame hk, hklevel⟩
    obtain ⟨decoded, hdecoded, -⟩ := hposts.stores
    rw [hnone] at hdecoded
    cases hdecoded

/-- **A call of a watchful run keeps the processes informed.** -/
theorem Informed.call (hduty : (g i).Allows c) (hcall : w.Answers P i c r w')
    (hgood : w.Watchful P i c r w') :
    w'.Informed P (update g i ((g i).step c r)) where
  covered := h.covered.call hbase hallow hcall hgood.careful
  owes j := by
    rcases hcall.track_cases j with ⟨rfl, heq⟩ | ⟨hne, heq⟩
    · rw [heq, update_self]
      exact (h.owes j).step hduty
    · rw [heq, update_of_ne hne]
      exact h.owes j
  stamped := h.stamped.call hcall
  lodged := h.lodged.call h.stamped hallow hcall
  reads _ _ hknown _ _ := h.call_reads hbase hcall hknown
  lists _ _ hknown _ := h.call_lists hbase hallow hcall hgood hknown
  probes _ _ _ _ _ := h.call_probes hbase hallow hcall hgood

end

/-! ### Starts and moves -/

/-- The duty that a program starts with. -/
def Launch.duty : Launch → Duty
  | .write _ _ => .write false false
  | .compaction _ => .none
  | .read _ => .read

theorem Launch.duties (l : Launch) : (l.program P).Keeps Runtime.duties l.duty := by
  cases l with
  | write n key => exact withWriteAttempt_duties.bind fun _ _ _ => trivial
  | compaction n => exact duties_none _
  | read n =>
    have hread : (Launch.read n : Launch).program P |>.Only fun c => c.kind ≠ .lease :=
      (withRead_only none).bind fun _ => trivial
    exact (hread.obeys (s := Duty.read) fun c hc => ⟨hc, fun r x hx => hx⟩).mono
      fun _ _ _ => trivial

/-- The index names valid files. -/
theorem Facts.index_valid (h : w.Facts P) : AllValid (w.index P) := by
  intro k hk
  cases hm : w.manifest P with
  | some files =>
    rw [index_of_manifest hm] at hk
    exact manifest_valid hm k hk
  | none =>
    rw [index_of_none hm] at hk
    obtain ⟨o, ho, rfl⟩ := Replica.hasKey_infos.mp hk
    exact (h.proper.objects o ho).1

theorem Due.launch {l : Launch} (h : (w.launch P i l).Due (update g i l.duty) j T t) :
    w.Due g j T t := by
  rcases track_launch_cases (P := P) (w := w) (i := i) l j with ⟨rfl, heq⟩ | ⟨hne, heq⟩
  · have hflushed := h.published.2.2.2.1
    rw [heq] at hflushed
    cases hflushed
  obtain ⟨found, hevicted⟩ := h.evicted
  rw [update_of_ne hne] at hevicted
  exact ⟨tasks_launch_of_ne hne l ▸ h.task, h.live, ⟨found, hevicted⟩, heq ▸ h.published,
    heq ▸ h.result⟩

theorem Known.launch {l : Launch} (h : (w.launch P i l).Known (update g i l.duty) m t) :
    w.Known g m t := by
  rcases h with ⟨j, σ, hσ, hacked, hm⟩ | ⟨j, T, hdue, hm⟩
  · exact .inl ⟨j, σ, hσ, (acked_launch hacked).2, hm⟩
  · exact .inr ⟨j, T, hdue.launch, hm⟩

theorem Lodged.launch (h : w.Lodged P) (hi : w.tasks i = none) (l : Launch) :
    (w.launch P i l).Lodged P := by
  have hother {j : ℕ} {T : Task} (hT : w.tasks j = some T) :
      (w.launch P i l).tasks j = some T := by
    by_cases hj : j = i
    · rw [hj, hi] at hT
      cases hT
    · rwa [tasks_launch_of_ne hj]
  have htrack := track_launch_cases (P := P) (w := w) (i := i) l
  refine ⟨h.cached, fun j s hs => ?_, fun j s hs => ?_, fun j m hrole hm => ?_, fun x hx => ?_⟩
  · rcases htrack j with ⟨-, heq⟩ | ⟨-, heq⟩ <;> rw [heq] at hs
    · cases hs
    · exact h.hit j s hs
  · rcases htrack j with ⟨-, heq⟩ | ⟨-, heq⟩ <;> rw [heq] at hs
    · cases hs
    · obtain ⟨hlt, T, hT, hstep⟩ := h.opened j s hs
      exact ⟨hlt, T, hother hT, hstep⟩
  · rcases htrack j with ⟨-, heq⟩ | ⟨-, heq⟩ <;> rw [heq] at hrole hm
    · cases hm
    · obtain ⟨T, hT, hstep⟩ := h.seen j m hrole hm
      exact ⟨T, hother hT, hstep⟩
  · obtain ⟨T, hT⟩ := h.run x hx
    exact ⟨T, hother hT⟩

theorem Informed.launch (h : w.Informed P g) (hbase : w.Base P) (hi : w.tasks i = none)
    (l : Launch) : (w.launch P i l).Informed P (update g i l.duty) where
  covered := h.covered.launch l
  owes j := by
    rcases track_launch_cases (P := P) (w := w) (i := i) l j with ⟨rfl, heq⟩ | ⟨hne, heq⟩
    · rw [heq, update_self]
      cases l with
      | write n key => exact ⟨nofun, nofun, fun _ => ⟨false, false, rfl, nofun⟩⟩
      | compaction n => exact ⟨nofun, nofun, nofun⟩
      | read n => exact ⟨fun _ => rfl, fun _ => ⟨rfl, rfl⟩, nofun⟩
    · rw [heq, update_of_ne hne]
      exact h.owes j
  stamped := h.stamped.launch l
  lodged := h.lodged.launch hi l
  reads m t hknown j files hrole hm hfiles := by
    rcases track_launch_cases (P := P) (w := w) (i := i) l j with ⟨rfl, heq⟩ | ⟨-, heq⟩ <;>
      rw [heq] at hrole hfiles
    · cases hfiles
    · exact h.reads m t hknown.launch j files hrole hm hfiles
  lists m t hknown s hm := h.lists m t hknown.launch s hm
  probes i' σ t j T hσ hacked hT hlt := by
    have hacked' := (acked_launch hacked).2
    by_cases hj : j = i
    · -- what was acknowledged is in the index when the process starts
      subst hj
      have hempty : ((w.launch P j l).track j).empty = [] := by
        rcases track_launch_cases (P := P) (w := w) (i := j) l j with ⟨-, heq⟩ | ⟨hne, -⟩
        · rw [heq]
        · exact absurd rfl hne
      rw [hempty]
      obtain ⟨k, hk, -⟩ := h.covered.acked i' t hacked'
      exact ⟨k.level, (hbase.index_valid k hk).1, by simp, fun _ => ⟨k, hk, rfl⟩⟩
    · rw [tasks_launch_of_ne hj] at hT
      rcases track_launch_cases (P := P) (w := w) (i := i) l j with ⟨heq, -⟩ | ⟨-, heq⟩
      · exact absurd heq hj
      · rw [heq]
        exact h.probes i' σ t j T hσ hacked' hT hlt

theorem Due.move (h : w'.Due g j T t) (hmove : w.Drifts P w') : w.Due g j T t :=
  ⟨hmove.tasks ▸ h.task, hmove.live h.live, h.evicted, hmove.track_eq j ▸ h.published,
    hmove.track_eq j ▸ h.result⟩

theorem Known.move (h : w'.Known g m t) (hmove : w.Drifts P w') : w.Known g m t := by
  rcases h with ⟨j, σ, hσ, hacked, hm⟩ | ⟨j, T, hdue, hm⟩
  · exact .inl ⟨j, σ, hmove.past ▸ hσ, hmove.track_eq j ▸ hacked, hm⟩
  · exact .inr ⟨j, T, hdue.move hmove, hmove.past ▸ hm⟩

theorem Lodged.move (h : w.Lodged P) (hmove : w.Drifts P w') : w'.Lodged P := by
  refine ⟨fun n e he hkey s hs => ?_, fun j s hs => ?_, fun j s hs => ?_, fun j m hrole hm => ?_,
    fun x hx => ?_⟩
  · obtain ⟨e', he', hkey', hinst⟩ := hmove.caches n e he hkey
    rw [hmove.opened]
    exact h.cached n e' he' hkey' s (hinst.trans hs)
  · rw [hmove.opened]
    exact h.hit j s (hmove.track_eq j ▸ hs)
  · rw [hmove.opened, hmove.tasks, hmove.past]
    exact h.opened j s (hmove.track_eq j ▸ hs)
  · rw [hmove.tasks, hmove.past]
    exact h.seen j m (hmove.track_eq j ▸ hrole) (hmove.track_eq j ▸ hm)
  · rw [hmove.tasks]
    exact h.run x (hmove.past ▸ hx)

theorem Informed.move (h : w.Informed P g) (hmove : w.Drifts P w') : w'.Informed P g where
  covered := h.covered.move hmove
  owes j := hmove.track_eq j ▸ h.owes j
  stamped := h.stamped.move hmove
  lodged := h.lodged.move hmove
  reads m t hknown j files hrole hm hfiles := by
    rw [hmove.track_eq] at hrole hfiles
    rw [hmove.past] at hm
    exact h.reads m t (hknown.move hmove) j files hrole hm hfiles
  lists m t hknown s hm := by
    rw [hmove.past] at hm
    exact (h.lists m t (hknown.move hmove) s hm).move hmove
  probes i σ t j T hσ hacked hT hlt := by
    rw [hmove.past] at hσ
    rw [hmove.track_eq] at hacked ⊢
    rw [hmove.tasks] at hT
    rw [index_congr hmove.replica, manifest_congr (congrArg Replica.manifest hmove.replica)]
    exact h.probes i σ t j T hσ hacked hT hlt

theorem informed_initial (rep : Replica B) : (initial P rep).Informed P fun _ => .read where
  covered := ⟨current_initial rep, fun _ => rfl, nofun, nofun, nofun, nofun⟩
  owes _ := ⟨fun _ => rfl, fun _ => ⟨rfl, rfl⟩, nofun⟩
  stamped := stamped_initial rep
  lodged := ⟨nofun, nofun, nofun, nofun, nofun⟩
  reads _ _ _ _ _ _ _ hfiles := nomatch hfiles
  lists _ _ _ _ hm := absurd hm (Nat.not_lt_zero _)
  probes _ _ _ _ _ hσ := nomatch hσ

/-! ### What callbacks run on -/

/-- The TXID `t` was acknowledged before the read `j`, as `R` relates the acknowledgement, the task
of the write and the task of the read. -/
def Precedes (w : Cluster B) (R : Stamp → Task → Task → Prop) (t j : ℕ) : Prop :=
  ∃ i σ T T', w.past.settledAt i = some σ ∧ (w.track i).acked = some t ∧ w.tasks i = some T ∧
    w.tasks j = some T' ∧ R σ T T'

/-- A read is given a cached session, and a callback runs, only on files that cover every TXID that
was acknowledged before. -/
structure Serving (w : Cluster B) (R : Stamp → Task → Task → Prop) : Prop where
  hit : ∀ j s, (w.track j).hit = some s → ∀ t, w.Precedes R t j → w.Lists s t
  run : ∀ x ∈ w.past.runs, ∀ t, w.Precedes R t x.proc → Covers x.files t

section Serving

variable {R : Stamp → Task → Task → Prop}

theorem Precedes.launch {l : Launch} (h : (w.launch P i l).Precedes R t j) (hj : j ≠ i) :
    w.Precedes R t j := by
  obtain ⟨i', σ, T, T', hσ, hacked, hT, hT', hrel⟩ := h
  obtain ⟨hne, hacked⟩ := acked_launch hacked
  rw [tasks_launch_of_ne hne] at hT
  rw [tasks_launch_of_ne hj] at hT'
  exact ⟨i', σ, T, T', hσ, hacked, hT, hT', hrel⟩

theorem Precedes.move (h : w'.Precedes R t j) (hmove : w.Drifts P w') : w.Precedes R t j := by
  obtain ⟨i, σ, T, T', hσ, hacked, hT, hT', hrel⟩ := h
  rw [hmove.past] at hσ
  rw [hmove.track_eq] at hacked
  rw [hmove.tasks] at hT hT'
  exact ⟨i, σ, T, T', hσ, hacked, hT, hT', hrel⟩

section Call

variable (hR : ∀ σ T T', R σ T T' → σ.step < T'.started.step) (hinf : w.Informed P g)
include hR hinf

/-- What a call acknowledges is not before any read. -/
theorem Precedes.before (h : w'.Precedes R t j) (hcall : w.Answers P i c r w') :
    w.Precedes R t j := by
  obtain ⟨i', σ, T, T', hσ, hacked, hT, hT', hrel⟩ := h
  rw [hcall.tasks_eq] at hT hT'
  rcases hcall.settled_cases i' with ⟨-, -, heq⟩ | ⟨hsame, hacked'⟩
  · rw [heq] at hσ
    cases hσ
    exact absurd (hR _ T T' hrel) (not_lt.mpr (hinf.stamped.started j T' hT').1)
  · exact ⟨i', σ, T, T', hsame ▸ hσ, hacked' ▸ hacked, hT, hT', hrel⟩

variable (hallow : w.Permits P i c)
include hallow

/-- A callback that runs now. -/
theorem Serving.call_run (h : w.Serving R) {x : Run}
    (hx : (∃ s ses, c = .runRead s ∧ w.storage.sessions s = some ses ∧
      x.files = ses.client.files) ∨ c = .runEmpty ∧ x.files = []) (hpre : w.Precedes R t i) :
    Covers x.files t := by
  have hprecedes := hpre
  obtain ⟨i', σ, T, T', hσ, hacked, -, hT', hrel⟩ := hpre
  have hlt := hR σ T T' hrel
  have hknown : w.Known g σ.step t := .inl ⟨i', σ, hσ, hacked, rfl⟩
  -- what the read has seen since it started covers the TXID
  have hseen : ∀ {m}, (w.track i).role = .read → (w.track i).snapshot = some m →
      σ.step < (w.past.readAt i).step := by
    intro m hrole hm
    obtain ⟨T'', hT'', hle⟩ := hinf.lodged.seen i m hrole hm
    cases hT'.symm.trans hT''
    exact hlt.trans_le hle
  rcases hx with ⟨s, ses, rfl, hses, hfiles⟩ | ⟨rfl, hfiles⟩
  · rw [hfiles]
    obtain ⟨-, hhit | hopened⟩ := hallow
    · exact h.hit i s hhit t hprecedes ses hses
    obtain ⟨-, T'', hT'', hle⟩ := hinf.lodged.opened i s hopened
    cases hT'.symm.trans hT''
    exact hinf.lists σ.step t hknown s (hlt.trans_le hle) ses hses
  · rw [hfiles]
    obtain ⟨hrole, hempty | ⟨hnone, hlevels⟩⟩ := hallow
    · exact hinf.reads σ.step t hknown i [] hrole (hseen hrole hempty) hempty
    · obtain ⟨level, hlevel, hmissing, -⟩ := hinf.probes i' σ t i T' hσ hacked hT' hlt
      exact absurd (hlevels level hlevel) hmissing

/-- A call keeps what reads are served, if the cached session that it hands out serves. -/
theorem Serving.call (h : w.Serving R) (hcall : w.Answers P i c r w')
    (hget : ∀ s, c.handsOut r = some s → ∀ t, w.Precedes R t i → w.Lists s t) : w'.Serving R := by
  refine ⟨fun j s hs t hpre => ?_, fun x hx t hpre => ?_⟩
  · have hbefore := hpre.before hR hinf hcall
    have hold (hs : (w.track j).hit = some s) : w'.Lists s t :=
      (h.hit j s hs t hbefore).call (hinf.lodged.hit j s hs) hcall
    rcases hcall.track_cases j with ⟨rfl, heq⟩ | ⟨-, heq⟩ <;> rw [heq] at hs
    · rcases Track.hit_cases hs with hout | hs
      · obtain ⟨T, -, e, he, hkey, hinst⟩ := hcall.handsOut_cached hout
        exact (hget s hout t hbefore).call (hinf.lodged.cached T.node e he hkey s hinst) hcall
      · exact hold hs
    · exact hold hs
  · have hbefore := hpre.before hR hinf hcall
    rcases hcall.runs_cases hx with hold | ⟨rfl, hnew⟩
    · exact h.run x hold t hbefore
    · exact h.call_run hR hinf hallow hnew hbefore

end Call

theorem Serving.launch (h : w.Serving R) (hlodged : w.Lodged P) (hi : w.tasks i = none)
    (l : Launch) : (w.launch P i l).Serving R := by
  refine ⟨fun j s hs t hpre => ?_, fun x hx t hpre => h.run x hx t (hpre.launch ?_)⟩
  · rcases track_launch_cases (P := P) (w := w) (i := i) l j with ⟨-, heq⟩ | ⟨hj, heq⟩ <;>
      rw [heq] at hs
    · cases hs
    · exact h.hit j s hs t (hpre.launch hj)
  · rintro rfl
    obtain ⟨T, hT⟩ := hlodged.run x hx
    rw [hi] at hT
    cases hT

theorem Serving.move (h : w.Serving R) (hmove : w.Drifts P w') : w'.Serving R where
  hit j s hs t hpre := (h.hit j s (hmove.track_eq j ▸ hs) t (hpre.move hmove)).move hmove
  run x hx t hpre := h.run x (hmove.past ▸ hx) t (hpre.move hmove)

end Serving

/-! ### Reads on the node of a write -/

/-- Every session that is cached on a node covers what was acknowledged on the node, or is about to
be. -/
structure Kept (P : Setup B) (w : Cluster B) (g : ℕ → Duty) : Prop where
  marked : ∀ i σ t T, w.past.settledAt i = some σ → (w.track i).acked = some t →
    w.tasks i = some T → σ.step ≤ (w.past.markedAt T.node).step
  cached : ∀ n, ∀ e ∈ (w.caches n).entries, e.key = P.key → ∀ s, e.inst = some s → ∀ i T t,
    w.tasks i = some T → T.node = n → ((w.track i).acked = some t ∨ w.Due g i T t) → w.Lists s t

/-- An acknowledgement is stamped. -/
theorem Answers.marked_settles (hcall : w.Answers P i c r w') (hc : c.settles r = true)
    (hT : w.tasks i = some T) : w'.past.markedAt T.node = w.stamp := by
  obtain ⟨T', st, write, pass, hT', -, -, -, -, -, rfl⟩ := hcall
  cases hT.symm.trans hT'
  unfold Op.settles at hc
  split at hc
  · exact update_self ..
  · cases hc

/-- A write that is acknowledged now was about to be, or it has found its key recorded and its node
has no session cached. -/
theorem Informed.due_of_settles (h : w.Informed P g) (hallow : w.Permits P i c)
    (hduty : (g i).Allows c) (hcall : w.Answers P i c r w') (hgood : w.Attentive P i c r w')
    (hc : c.settles r = true) (hT : w.tasks i = some T) (hacked : (w'.track i).acked = some t) :
    w.Due g i T t ∨ (w.caches T.node).find P.key = none := by
  have htrack := hcall.track_self
  have hrelease : ∃ held, c = .release held true := by
    unfold Op.settles at hc
    split at hc
    · exact ⟨_, rfl⟩
    · cases hc
  obtain ⟨held, rfl⟩ := hrelease
  cases r with
  | some e => cases hc
  | none =>
    rw [htrack] at hacked
    have hresult : (w.track i).result = some t := hacked
    by_cases hfound : (w.track i).found = none
    · left
      have hpub : (w.track i).Published := by
        rcases hallow with hpub | ⟨-, -, text, t', htext, -⟩
        · exact hpub
        · rw [hfound] at htext
          cases htext
      obtain ⟨evicted, found, hg, hfound'⟩ := (h.owes i).write hpub.1
      rw [hg] at hduty
      have hevicted : evicted = true := by
        rcases hduty with hduty | hduty
        · exact hduty
        · exact absurd hfound (hfound' hduty)
      obtain ⟨T', st, write, pass, hT', -, -, -, -, hbound, -⟩ := hcall
      cases hT.symm.trans hT'
      rcases hbound rfl with hlive | ⟨⟨⟩, -⟩
      exact ⟨hT, hlive, ⟨found, by rw [hg, hevicted]⟩, hpub, hresult⟩
    · right
      exact isNone_iff_eq_none.mp (hgood hfound T hT)

theorem Kept.call (h : w.Kept P g) (hinf : w.Informed P g) (hallow : w.Permits P i c)
    (hduty : (g i).Allows c) (hcall : w.Answers P i c r w') (hgood : w.Attentive P i c r w') :
    w'.Kept P (update g i ((g i).step c r)) := by
  refine ⟨fun j σ t T hσ hacked hT => ?_, fun n e he hkey s hs j T t hT hnode hof => ?_⟩
  · rw [hcall.tasks_eq] at hT
    rcases hcall.settled_cases j with ⟨rfl, hc, heq⟩ | ⟨heq, hsame⟩
    · rw [heq] at hσ
      cases hσ
      rw [hcall.marked_settles hc hT]
    have hle := h.marked j σ t T (heq ▸ hσ) (hsame ▸ hacked) hT
    rcases hcall.marked_cases T.node with hmark | hmark <;> rw [hmark]
    · exact hle
    · exact hle.trans (hinf.stamped.marked T.node)
  · rw [hcall.tasks_eq] at hT
    rcases hcall.cache_cases he hkey with
      ⟨⟨e', he', hkey', hinst⟩, hevict⟩ | ⟨T', s', hT', hnode', rfl, hinst⟩
    · -- the session was cached before
      have hlt := hinf.lodged.cached n e' he' hkey' s (hinst.trans hs)
      have hlists := h.cached n e' he' hkey' s (hinst.trans hs) j T t hT hnode
      rcases hof with hacked | hdue
      · rcases hcall.settled_cases j with ⟨rfl, hc, -⟩ | ⟨-, hsame⟩
        · rcases hinf.due_of_settles hallow hduty hcall hgood hc hT hacked with hdue | hnone
          · exact (hlists (.inr hdue)).call hlt hcall
          · rw [hnode] at hnone
            exact absurd hkey' (Cache.find_eq_none.mp hnone e' he')
        · exact (hlists (.inl (hsame ▸ hacked))).call hlt hcall
      · rcases hdue.before hcall with hdue | ⟨rfl, hc⟩
        · exact (hlists (.inr hdue)).call hlt hcall
        · exact absurd hnode (hevict hc T hT)
    · -- a read caches its session, opened on a manifest that it has read recently
      obtain rfl : s' = s := some.inj (hinst.symm.trans hs)
      have hrecent : (w.past.markedAt n).step < (w.past.plannedAt s').step := hnode' ▸ hgood T' hT'
      have hlists : w.Lists s' t := by
        rcases hof with hacked | hdue
        · rcases hcall.settled_cases j with ⟨-, hc, -⟩ | ⟨-, hsame⟩
          · cases hc
          obtain ⟨σ, hσ⟩ := hinf.stamped.acked j t (hsame ▸ hacked)
          have hle := h.marked j σ t T hσ (hsame ▸ hacked) hT
          exact hinf.lists σ.step t (.inl ⟨j, σ, hσ, hsame ▸ hacked, rfl⟩) s'
            (hle.trans_lt (hnode ▸ hrecent))
        · rcases hdue.before hcall with hdue | ⟨-, hc⟩
          · exact hinf.lists _ t (.inr ⟨j, T, hdue, rfl⟩) s' (hnode ▸ hrecent)
          · cases hc
      exact hlists.call (hinf.lodged.opened i s' hallow.2).1 hcall

theorem Kept.launch (h : w.Kept P g) (l : Launch) :
    (w.launch P i l).Kept P (update g i l.duty) := by
  refine ⟨fun j σ t T hσ hacked hT => ?_, fun n e he hkey s hs j T t hT hnode hof => ?_⟩
  · obtain ⟨hne, hacked⟩ := acked_launch hacked
    rw [tasks_launch_of_ne hne] at hT
    exact h.marked j σ t T hσ hacked hT
  rcases hof with hacked | hdue
  · obtain ⟨hne, hacked⟩ := acked_launch hacked
    rw [tasks_launch_of_ne hne] at hT
    exact h.cached n e he hkey s hs j T t hT hnode (.inl hacked)
  · exact h.cached n e he hkey s hs j T t hdue.launch.task hnode (.inr hdue.launch)

theorem Kept.move (h : w.Kept P g) (hmove : w.Drifts P w') : w'.Kept P g := by
  refine ⟨fun j σ t T hσ hacked hT => ?_, fun n e he hkey s hs j T t hT hnode hof => ?_⟩
  · rw [hmove.past] at hσ ⊢
    exact h.marked j σ t T hσ (hmove.track_eq j ▸ hacked) (hmove.tasks ▸ hT)
  obtain ⟨e', he', hkey', hinst⟩ := hmove.caches n e he hkey
  rw [hmove.tasks] at hT
  exact (h.cached n e' he' hkey' s (hinst.trans hs) j T t hT hnode (hof.imp
    (fun hacked => hmove.track_eq j ▸ hacked) fun hdue => hdue.move hmove)).move hmove

/-- A read runs on files that cover a write to which it is related. -/
theorem Serving.covers {R : Stamp → Task → Task → Prop} (h : w.Serving R) {res : WriteResult}
    (hack : (w.track i).Acknowledges (.ok res)) {σ : Stamp} {T T' : Task}
    (hσ : w.past.settledAt i = some σ) (hT : w.tasks i = some T) (hT' : w.tasks j = some T')
    (hR : R σ T T') {files : List FileInfo} (hrun : ⟨j, files⟩ ∈ w.past.runs) :
    ∃ t, res.txid = formatTXID t ∧ t < 2 ^ 64 ∧ Covers files t := by
  obtain ⟨t, hacked, hlt, htxid⟩ := hack res rfl
  exact ⟨t, htxid, hlt, h.run _ hrun t ⟨i, σ, T, T', hσ, hacked, hT, hT', hR⟩⟩

/-- The read `T'` started on the node of the write `T`, after the acknowledgement `σ`. -/
def Rejoins (σ : Stamp) (T T' : Task) : Prop := T.node = T'.node ∧ σ.step < T'.started.step

/-- What holds along attentive runs. -/
theorem attentive_invariant (htimely : P.Timely) {rep : Replica B} (hrep : rep.Proper P.json)
    {a : Pool (Cluster B) ℕ (Op B) Resp Outcome}
    (h : ((clusterSystem P).restrict (Attentive P)).Reachable (initial P rep) a) :
    a.world.Stamped ∧ a.world.Serving Rejoins ∧ ∀ i res,
      a.procs i = some (.done (.wrote res)) → (a.world.track i).Acknowledges res := by
  have hinv := invariant_with Runtime.duties Duty.read Launch.duty Launch.duties htimely
    (I := fun w g => w.Informed P g ∧ w.Kept P g ∧ w.Serving Rejoins) hrep
    ⟨informed_initial rep, ⟨nofun, nofun⟩, ⟨nofun, nofun⟩⟩ ?_ ?_ ?_ h
  · obtain ⟨-, g, ⟨hinf, -, hserving⟩, hobeys⟩ := hinv
    exact ⟨hinf.stamped, hserving, fun i res hdone => (hobeys i _ hdone).1⟩
  · rintro w g i l hbase ⟨hinf, hkept, hserving⟩ hi
    exact ⟨hinf.launch hbase hi l, hkept.launch l, hserving.launch hinf.lodged hi l⟩
  · rintro w g i c r w' hbase ⟨hinf, hkept, hserving⟩ hallow - hduty hcall hgood -
    refine ⟨_, rfl, hinf.call hbase hallow hduty hcall hgood.watchful,
      hkept.call hinf hallow hduty hcall hgood,
      hserving.call (fun _ _ _ h => h.2) hinf hallow hcall ?_⟩
    rintro s hs t ⟨i', σ, T, T', hσ, hacked, hT, hT', hnode, -⟩
    obtain ⟨T'', hT'', e, he, hkey, hinst⟩ := hcall.handsOut_cached hs
    cases hT'.symm.trans hT''
    exact hkept.cached T'.node e he hkey s hinst i' T t hT hnode (.inl hacked)
  · rintro w g w' - ⟨hinf, hkept, hserving⟩ hmove
    exact ⟨hinf.move hmove, hkept.move hmove, hserving.move hmove⟩

/-- **Read your writes.** Along every attentive run of a timely setup, a read that starts after a
write on its node has returned success runs its callback on files that cover the write's TXID. -/
theorem read_your_writes (htimely : P.Timely) {rep : Replica B} (hrep : rep.Proper P.json)
    {a b : Pool (Cluster B) ℕ (Op B) Resp Outcome}
    (ha : ((clusterSystem P).restrict (Attentive P)).Reachable (initial P rep) a)
    {res : WriteResult} (hdone : a.procs i = some (.done (.wrote (.ok res))))
    (hj : a.world.tasks j = none)
    (hab : Relation.ReflTransGen ((clusterSystem P).restrict (Attentive P)).Step a b)
    {T T' : Task} (hT : b.world.tasks i = some T) (hT' : b.world.tasks j = some T')
    (hnode : T.node = T'.node) {files : List FileInfo} (hrun : ⟨j, files⟩ ∈ b.world.past.runs) :
    ∃ t, res.txid = formatTXID t ∧ t < 2 ^ 64 ∧ Covers files t := by
  obtain ⟨hstamped, -, hacks⟩ := attentive_invariant htimely hrep ha
  obtain ⟨σ, hσ, hbefore, -⟩ := hstamped.done (hacks i _ hdone)
  obtain ⟨-, hserving, hacks'⟩ := attentive_invariant htimely hrep (ha.trans hab)
  obtain ⟨hdone', hsettled⟩ := done_later hab hdone
  exact hserving.covers (hacks' i _ hdone') (hsettled.trans hσ) hT hT'
    ⟨hnode, hbefore.trans_le (started_later hab hj hT')⟩ hrun

/-! ### Reads on another node -/

theorem Punctual.recent (h : w.Punctual P i c r w') (hs : c.handsOut r = some s)
    (hT : w.tasks i = some T) :
    w.now - (w.past.plannedAt s).time ≤ (P.nodes T.node).cfg.readInstanceIdleTTL := by
  cases c with
  | cacheGet =>
    obtain rfl : r = some s := hs
    exact h T hT
  | _ => cases hs

/-- The read `T'` started after the acknowledgement `σ`, and longer after it than the idle time
limit of its node. -/
def Lags (P : Setup B) (σ : Stamp) (_ T' : Task) : Prop :=
  σ.step < T'.started.step ∧ σ.time + (P.nodes T'.node).cfg.readInstanceIdleTTL < T'.started.time

/-- What holds along punctual runs. -/
theorem punctual_invariant (htimely : P.Timely) {rep : Replica B} (hrep : rep.Proper P.json)
    {a : Pool (Cluster B) ℕ (Op B) Resp Outcome}
    (h : ((clusterSystem P).restrict (Punctual P)).Reachable (initial P rep) a) :
    a.world.Stamped ∧ a.world.Ordered ∧ a.world.Serving (Lags P) ∧ ∀ i res,
      a.procs i = some (.done (.wrote res)) → (a.world.track i).Acknowledges res := by
  have hinv := invariant_with Runtime.duties Duty.read Launch.duty Launch.duties htimely
    (I := fun w g => w.Informed P g ∧ w.Ordered ∧ w.Serving (Lags P)) hrep
    ⟨informed_initial rep, ⟨nofun, nofun, nofun⟩, ⟨nofun, nofun⟩⟩ ?_ ?_ ?_ h
  · obtain ⟨-, g, ⟨hinf, hordered, hserving⟩, hobeys⟩ := hinv
    exact ⟨hinf.stamped, hordered, hserving, fun i res hdone => (hobeys i _ hdone).1⟩
  · rintro w g i l hbase ⟨hinf, hordered, hserving⟩ hi
    exact ⟨hinf.launch hbase hi l, hordered.launch hinf.stamped l, hserving.launch hinf.lodged hi l⟩
  · rintro w g i c r w' hbase ⟨hinf, hordered, hserving⟩ hallow - hduty hcall hgood -
    refine ⟨_, rfl, hinf.call hbase hallow hduty hcall hgood.watchful,
      hordered.call hinf.stamped hcall,
      hserving.call (fun _ _ _ h => h.1) hinf hallow hcall ?_⟩
    rintro s hs t ⟨i', σ, T, T', hσ, hacked, hT, hT', -, hlag⟩
    have hrecent := hgood.recent hs hT'
    have hstarted := (hinf.stamped.started i T' hT').2
    exact hinf.lists σ.step t (.inl ⟨i', σ, hσ, hacked, rfl⟩) s
      (hordered.planned i' σ s hσ (by omega))
  · rintro w g w' - ⟨hinf, hordered, hserving⟩ hmove
    exact ⟨hinf.move hmove, hordered.move hmove, hserving.move hmove⟩

/-- **Bounded staleness.** Along every punctual run of a timely setup, a read that starts more than
the idle time limit of its node after a write has returned success runs its callback on files that
cover the write's TXID. -/
theorem bounded_staleness (htimely : P.Timely) {rep : Replica B} (hrep : rep.Proper P.json)
    {a b : Pool (Cluster B) ℕ (Op B) Resp Outcome}
    (ha : ((clusterSystem P).restrict (Punctual P)).Reachable (initial P rep) a)
    {res : WriteResult} (hdone : a.procs i = some (.done (.wrote (.ok res))))
    (hab : Relation.ReflTransGen ((clusterSystem P).restrict (Punctual P)).Step a b)
    {T T' : Task} (hT : b.world.tasks i = some T) (hT' : b.world.tasks j = some T')
    (henabled : 0 < (P.nodes T'.node).cfg.readInstanceIdleTTL)
    (hlate : a.world.now + (P.nodes T'.node).cfg.readInstanceIdleTTL < T'.started.time)
    {files : List FileInfo} (hrun : ⟨j, files⟩ ∈ b.world.past.runs) :
    ∃ t, res.txid = formatTXID t ∧ t < 2 ^ 64 ∧ Covers files t := by
  obtain ⟨hstamped, -, -, hacks⟩ := punctual_invariant htimely hrep ha
  obtain ⟨σ, hσ, -, hbefore⟩ := hstamped.done (hacks i _ hdone)
  obtain ⟨-, hordered, hserving, hacks'⟩ := punctual_invariant htimely hrep (ha.trans hab)
  obtain ⟨hdone', hsettled⟩ := done_later hab hdone
  have hstarted := hordered.started i σ j T' (hsettled.trans hσ) hT' (by omega)
  exact hserving.covers (hacks' i _ hdone') (hsettled.trans hσ) hT hT' ⟨hstarted, by omega⟩ hrun

end Cluster

/-! ### Particular runs -/

namespace Serving

open Script Covering

/-- The setup of two nodes and more. -/
abbrev P : Setup (Option ManifestDocument) := setup (30 * second)

/-- A read on the node `n` by the process `i`, up to its last call. -/
def read (i n calls : ℕ) : Moves := .start i (.read n) :: Script.calls i (oks calls)

/-- A first write on node 0, a read on the node `n` that has made the given number of calls, and
another write on node 0. -/
def written (n calls : ℕ) : Moves :=
  .start 0 (.write 0 "a") :: Script.calls 0 (firstWrite (30 * second) 0) ++ read 1 n calls ++
    .start 2 (.write 0 "b") :: Script.calls 2 (write (30 * second) 0)

/-- The read that began before the second write caches its session, and another read is given
it. -/
def belated : Moves := Script.calls 1 (oks 2) ++ read 3 0 4

/-- A read on another node is given its cached session before the idle time is over, and so is one
after that. -/
def prolonged : Moves :=
  .env (.tick (50 * second)) :: read 3 1 4 ++ .env (.tick (100 * second)) :: read 4 1 4

/-- A read on the node of the second write begins after it. -/
def subsequent : Moves := read 3 0 7

/-- A read on another node begins when the idle time is over. -/
def expired : Moves := .env (.tick (100 * second)) :: read 4 1 7

/-- What a run shows: the result of the second write before the moves that follow it, whether the
read has not been started then, the time, and afterwards the tasks of both and the callbacks. -/
structure View where
  txid : Option (Option String)
  unstarted : Bool
  now : ℤ
  write : Option Task
  read : Option Task
  runs : List Run
  deriving DecidableEq

/-- The view of two pools, for the read `j`. -/
def view (j : ℕ) (a b : State) : View :=
  ⟨(a.outcome 2).map txidOf, (a.world.tasks j).isNone, a.world.now, b.world.tasks 2,
    b.world.tasks j, b.world.past.runs⟩

section Views

variable {S : System (Cluster (Option ManifestDocument)) ℕ (Op (Option ManifestDocument)) Resp
  Cluster.Outcome} (I : Interpreter S Cluster.Launch Storage.Choice Cluster.Event)

/-- The view of a run that consists of two scripts. -/
def viewOf (j : ℕ) (before after : Moves) : Option View :=
  (I.exec (Cluster.initial P ⟨[], none⟩) before).bind fun a => (I.run a after).map (view j a)

theorem exists_of_viewOf {j : ℕ} {before after : Moves} {v : View} {text : String}
    (h : viewOf I j before after = some v) (htxid : v.txid = some (some text)) :
    ∃ (a b : State) (res : WriteResult), S.Reachable (Cluster.initial P ⟨[], none⟩) a ∧
      Relation.ReflTransGen S.Step a b ∧ a.procs 2 = some (.done (.wrote (.ok res))) ∧
      res.txid = text ∧ view j a b = v := by
  obtain ⟨a, ha, hmap⟩ := bind_eq_some_iff.mp h
  obtain ⟨b, hb, rfl⟩ := map_eq_some_iff.mp hmap
  obtain ⟨x, hx, htext⟩ := map_eq_some_iff.mp htxid
  rcases x with (e | res) | _ | err
  · cases htext
  · exact ⟨a, b, res, I.exec_reachable ha, I.run_steps hb, Pool.procs_of_outcome hx,
      some.inj htext, rfl⟩
  · cases htext
  · cases htext

end Views

/-- The task of a process on a node, and when it was started. -/
def task (node step : ℕ) (time : ℤ) : Task := ⟨node, ⟨step, time⟩, some (time + 20 * second)⟩

/-- The file of the write of a TXID. -/
def file (txid : ℕ) : FileInfo := ⟨0, txid, txid, 0, 0⟩

theorem belated_exec : viewOf (clusterInterpreter P) 3 (written 0 5) belated =
    some ⟨some (some "0000000000000002"), true, 0, some (task 0 40 0), some (task 0 69 0),
      [⟨3, [file 1]⟩, ⟨1, [file 1]⟩]⟩ := by
  decide +kernel

theorem prolonged_exec : viewOf (clusterInterpreter P) 4 (written 1 7) prolonged =
    some ⟨some (some "0000000000000002"), true, 0, some (task 0 42 0),
      some (task 1 73 (100 * second)), [⟨4, [file 1]⟩, ⟨3, [file 1]⟩, ⟨1, [file 1]⟩]⟩ := by
  decide +kernel

theorem subsequent_exec :
    viewOf ((clusterInterpreter P).restrict (Cluster.Attentive P)) 3 (written 0 7) subsequent =
      some ⟨some (some "0000000000000002"), true, 0, some (task 0 42 0), some (task 0 69 0),
        [⟨3, [file 1, file 2]⟩, ⟨1, [file 1]⟩]⟩ := by
  decide +kernel

theorem expired_exec :
    viewOf ((clusterInterpreter P).restrict (Cluster.Punctual P)) 4 (written 1 7) expired =
      some ⟨some (some "0000000000000002"), true, 0, some (task 0 42 0),
        some (task 1 69 (100 * second)), [⟨4, [file 1, file 2]⟩, ⟨1, [file 1]⟩]⟩ := by
  decide +kernel

end Serving

open Serving Covering in
/-- A read, a write on the same node and another read: the second read sees the write. -/
theorem read_your_writes_subsequent : ∃ (a b : State) (res : WriteResult) (T T' : Task),
    ((clusterSystem P).restrict (Cluster.Attentive P)).Reachable (Cluster.initial P ⟨[], none⟩) a ∧
    Relation.ReflTransGen ((clusterSystem P).restrict (Cluster.Attentive P)).Step a b ∧
    a.procs 2 = some (.done (.wrote (.ok res))) ∧ a.world.tasks 3 = none ∧
    b.world.tasks 2 = some T ∧ b.world.tasks 3 = some T' ∧ T.node = T'.node ∧
    ⟨3, [file 1, file 2]⟩ ∈ b.world.past.runs ∧
    ∃ t, res.txid = formatTXID t ∧ t < 2 ^ 64 ∧ Covers [file 1, file 2] t := by
  obtain ⟨a, b, res, ha, hab, hdone, -, hview⟩ := exists_of_viewOf _ subsequent_exec rfl
  have hunstarted := isNone_iff_eq_none.mp (congrArg View.unstarted hview)
  have hT : b.world.tasks 2 = _ := congrArg View.write hview
  have hT' : b.world.tasks 3 = _ := congrArg View.read hview
  have hruns : b.world.past.runs = _ := congrArg View.runs hview
  have hrun : ⟨3, [file 1, file 2]⟩ ∈ b.world.past.runs := by simp [hruns]
  exact ⟨a, b, res, _, _, ha, hab, hdone, hunstarted, hT, hT', rfl, hrun,
    Cluster.read_your_writes timely proper_empty ha hdone hunstarted hab hT hT' rfl hrun⟩

open Serving Covering in
/-- A read that began before a write on its node caches its session after the write was
acknowledged. A read that starts then is given that session. -/
theorem read_misses_write : ∃ (a b : State) (res : WriteResult) (T T' : Task)
    (files : List FileInfo), (clusterSystem P).Reachable (Cluster.initial P ⟨[], none⟩) a ∧
    Relation.ReflTransGen (clusterSystem P).Step a b ∧
    a.procs 2 = some (.done (.wrote (.ok res))) ∧ res.txid = formatTXID 2 ∧
    a.world.tasks 3 = none ∧ b.world.tasks 2 = some T ∧ b.world.tasks 3 = some T' ∧
    T.node = T'.node ∧ ⟨3, files⟩ ∈ b.world.past.runs ∧ ¬ Covers files 2 := by
  obtain ⟨a, b, res, ha, hab, hdone, htxid, hview⟩ := exists_of_viewOf _ belated_exec rfl
  have hunstarted := isNone_iff_eq_none.mp (congrArg View.unstarted hview)
  have hruns : b.world.past.runs = _ := congrArg View.runs hview
  exact ⟨a, b, res, _, _, [file 1], ha, hab, hdone, htxid.trans (by decide), hunstarted,
    congrArg View.write hview, congrArg View.read hview, rfl, by simp [hruns], by decide⟩

open Serving Covering in
/-- A read on one node caches a session, and the session has expired when a read starts there long
after a write on another node. -/
theorem bounded_staleness_expired : ∃ (a b : State) (res : WriteResult) (T T' : Task),
    ((clusterSystem P).restrict (Cluster.Punctual P)).Reachable (Cluster.initial P ⟨[], none⟩) a ∧
    Relation.ReflTransGen ((clusterSystem P).restrict (Cluster.Punctual P)).Step a b ∧
    a.procs 2 = some (.done (.wrote (.ok res))) ∧ b.world.tasks 2 = some T ∧
    b.world.tasks 4 = some T' ∧ 0 < (P.nodes T'.node).cfg.readInstanceIdleTTL ∧
    a.world.now + (P.nodes T'.node).cfg.readInstanceIdleTTL < T'.started.time ∧
    ⟨4, [file 1, file 2]⟩ ∈ b.world.past.runs ∧
    ∃ t, res.txid = formatTXID t ∧ t < 2 ^ 64 ∧ Covers [file 1, file 2] t := by
  obtain ⟨a, b, res, ha, hab, hdone, -, hview⟩ := exists_of_viewOf _ expired_exec rfl
  have hnow : a.world.now = 0 := congrArg View.now hview
  have hT : b.world.tasks 2 = _ := congrArg View.write hview
  have hT' : b.world.tasks 4 = _ := congrArg View.read hview
  have hruns : b.world.past.runs = _ := congrArg View.runs hview
  have hrun : ⟨4, [file 1, file 2]⟩ ∈ b.world.past.runs := by simp [hruns]
  have hlate : a.world.now + (P.nodes 1).cfg.readInstanceIdleTTL < 100 * second := by
    rw [hnow]
    decide
  exact ⟨a, b, res, _, _, ha, hab, hdone, hT, hT', by decide, hlate, hrun,
    Cluster.bounded_staleness timely proper_empty ha hdone hab hT hT' (by decide) hlate hrun⟩

open Serving Covering in
/-- Every use of a cached session prolongs its life. A read that starts on another node more than
the idle time limit after a write was acknowledged is given a session from before the write. -/
theorem stale_beyond_ttl :
    (P.nodes 0).clock = (P.nodes 1).clock ∧ 0 < (P.nodes 1).cfg.readInstanceIdleTTL ∧
    ∃ (a b : State) (res : WriteResult) (T T' : Task) (files : List FileInfo),
      (clusterSystem P).Reachable (Cluster.initial P ⟨[], none⟩) a ∧
      Relation.ReflTransGen (clusterSystem P).Step a b ∧
      a.procs 2 = some (.done (.wrote (.ok res))) ∧ res.txid = formatTXID 2 ∧
      b.world.tasks 2 = some T ∧ T.node = 0 ∧ b.world.tasks 4 = some T' ∧ T'.node = 1 ∧
      a.world.now + (P.nodes 1).cfg.readInstanceIdleTTL < T'.started.time ∧
      ⟨4, files⟩ ∈ b.world.past.runs ∧ ¬ Covers files 2 := by
  refine ⟨rfl, by decide, ?_⟩
  obtain ⟨a, b, res, ha, hab, hdone, htxid, hview⟩ := exists_of_viewOf _ prolonged_exec rfl
  have hnow : a.world.now = 0 := congrArg View.now hview
  have hruns : b.world.past.runs = _ := congrArg View.runs hview
  have hlate : a.world.now + (P.nodes 1).cfg.readInstanceIdleTTL < 100 * second := by
    rw [hnow]
    decide
  exact ⟨a, b, res, _, _, [file 1], ha, hab, hdone, htxid.trans (by decide),
    congrArg View.write hview, rfl, congrArg View.read hview, rfl, hlate, by simp [hruns],
    by decide⟩

end Walrusd.Runtime
