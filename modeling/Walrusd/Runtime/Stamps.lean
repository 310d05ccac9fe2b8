import Walrusd.Runtime.Coverage

/-!
# What a call does to the past

The world remembers when processes read the manifest, when sessions were planned, when writes were
acknowledged and which callbacks ran. A call stamps at most its own process, its own node and the
session that it opens.

## Main results

* `Cluster.Answers.read_cases`, `Cluster.Answers.planned_cases`, `Cluster.Answers.marked_cases`,
  `Cluster.Answers.settled_cases`, `Cluster.Answers.posted_cases`,
  `Cluster.Answers.deletions_cases`, `Cluster.Answers.runs_cases`, `Cluster.Answers.cache_cases`.
* `Cluster.Stamped` — every stamp is of the past.
-/

namespace Walrusd.Runtime

open Program Litestream Function List

/-- The answer acknowledges a write. -/
def Op.settles {B : Type} : (c : Op B) → Resp c → Bool
  | .release _ true, none => true
  | _, _ => false

section Records

variable {B : Type} {json : ManifestJson B} {s : Track} {c : Op B} {r : Resp c}

theorem Track.acked_of_not_settles (hc : c.settles r = false) :
    (s.step json c r).acked = s.acked := by
  by_cases hrelease : ∃ held, c = .release held true
  · obtain ⟨held, rfl⟩ := hrelease
    cases r with
    | none => cases hc
    | some e => rfl
  · exact Track.acked_step fun held heq => hrelease ⟨held, heq⟩

theorem Track.snapshot_step (hc : c ≠ .manifestGet) : (s.step json c r).snapshot = s.snapshot := by
  by_cases hput : ∃ data, c = .manifestPut data
  · obtain ⟨data, rfl⟩ := hput
    cases r <;> rfl
  refine ((s.step_frame json c r).manifest (fun hk => ?_) fun hk => ?_).1
  · cases c <;> first | exact hc rfl | cases hk
  · cases c <;> first | exact hput ⟨_, rfl⟩ | cases hk

/-- The cached session that a read is given. -/
def Op.handsOut {B : Type} : (c : Op B) → Resp c → Option Sess
  | .cacheGet, s => s
  | _, _ => none

theorem Track.hit_cases {h : Sess} (hh : (s.step json c r).hit = some h) :
    c.handsOut r = some h ∨ s.hit = some h := by
  by_cases hk : c.kind = .cache
  · cases c with
    | cacheGet =>
      cases r with
      | none => exact .inr hh
      | some h' => exact .inl hh
    | openRead => cases r <;> exact .inr hh
    | cachePut | evict | runRead | closeRead | openEmpty | runEmpty => exact .inr hh
    | _ => cases hk
  · exact .inr (((s.step_frame json c r).cache hk).1.symm.trans hh)

theorem Track.opened_step (hc : ∀ plan, c ≠ .openRead plan) :
    (s.step json c r).opened = s.opened := by
  by_cases hk : c.kind = .cache
  · cases c with
    | openRead plan => exact absurd rfl (hc plan)
    | cacheGet => cases r <;> rfl
    | cachePut | evict | runRead | closeRead | openEmpty | runEmpty => rfl
    | _ => cases hk
  · exact ((s.step_frame json c r).cache hk).2

theorem Track.empty_step (hc : ∀ level, c ≠ .ltxFiles .probe level) :
    (s.step json c r).empty = s.empty := by
  cases c with
  | ltxFiles site level =>
    cases r with
    | error => cases site <;> rfl
    | ok found =>
      cases site with
      | probe => exact absurd rfl (hc level)
      | build =>
        simp only [Track.step]
        split <;> rfl
      | _ => rfl
  | openWrite | pos | setWriteDisabled => cases r <;> rfl
  | selectTXID => rcases r with e | _ | text <;> rfl
  | manifestGet | release | acquire | acquireKey | manifestPut | compact | openRead | cacheGet =>
    exact ((s.step_frame json _ r).listing (by rintro ⟨⟩) (by rintro ⟨⟩)).2.2
  | _ => rfl

/-- A session that is open after a call lists at least what it listed before. -/
theorem Storage.Answers.files_mono {st st' : Storage B} (h : st.Answers c r st') {s : Sess}
    {ses : Session} (hses : st'.sessions s = some ses) (hs : s < st.opened) :
    ∃ ses', st.sessions s = some ses' ∧
      ∀ k, HasKey ses'.client.files k → HasKey ses.client.files k := by
  cases h.session_cases hses with
  | opened heq hc => exact absurd heq hs.ne
  | same hses' | stage _ _ hses' | rollback hses' | commit hses' => exact ⟨_, hses', fun _ hk => hk⟩
  | flush hses' hland =>
    exact ⟨_, hses', fun k hk => ManifestClient.hasKey_recordWrite.mpr (.inl hk)⟩

end Records

namespace Cluster

variable {B : Type} {P : Setup B} {w w' : Cluster B} {i j : ℕ} {T : Task} {c : Op B} {r : Resp c}

/-! ### Stamps -/

section Remember

variable {st : Storage B}

theorem remember_readAt (hc : c ≠ .manifestGet) :
    (w.remember P i T c r st).readAt = w.past.readAt := by
  unfold remember
  split
  all_goals first | rfl | (split <;> rfl) | exact absurd rfl hc

theorem remember_plannedAt (hc : ∀ plan, c ≠ .openRead plan) :
    (w.remember P i T c r st).plannedAt = w.past.plannedAt := by
  unfold remember
  split
  all_goals first | rfl | (split <;> rfl) | exact absurd rfl (hc _)

theorem remember_settledAt (hc : c.settles r = false) :
    (w.remember P i T c r st).settledAt = w.past.settledAt := by
  unfold remember
  split
  all_goals first | rfl | (split <;> rfl) | cases hc

theorem remember_markedAt : (w.remember P i T c r st).markedAt = w.past.markedAt ∨
    (w.remember P i T c r st).markedAt = update w.past.markedAt T.node w.stamp := by
  unfold remember
  split
  all_goals first | exact .inl rfl | exact .inr rfl | skip
  all_goals
    split
    all_goals first | exact .inl rfl | exact .inr rfl

theorem remember_posted (hc : ∀ data, c ≠ .manifestPut data) :
    (w.remember P i T c r st).versions = w.past.versions ∧
      (w.remember P i T c r st).postedAt = w.past.postedAt := by
  unfold remember
  split
  all_goals first | exact ⟨rfl, rfl⟩ | (split <;> exact ⟨rfl, rfl⟩) | exact absurd rfl (hc _)

theorem remember_deletions (hc : ∀ site files, c ≠ .deleteLTXFiles site files) :
    (w.remember P i T c r st).deletions = w.past.deletions := by
  unfold remember
  split
  all_goals first | rfl | (split <;> rfl) | exact absurd rfl (hc _ _)

theorem remember_runs (hread : ∀ h, c ≠ .runRead h) (hempty : c ≠ .runEmpty) :
    (w.remember P i T c r st).runs = w.past.runs := by
  unfold remember
  split
  all_goals first | rfl | (split <;> rfl) | exact absurd rfl (hread _) | exact absurd rfl hempty

end Remember

section

variable (h : w.Answers P i c r w')
include h

theorem Answers.task : ∃ T, w.tasks i = some T := by
  obtain ⟨T, -, -, -, hT, -⟩ := h
  exact ⟨T, hT⟩

theorem Answers.steps_eq : w'.past.steps = w.past.steps + 1 := by
  obtain ⟨T, st, write, pass, -, -, -, -, -, -, rfl⟩ := h
  exact remember_steps

theorem Answers.now_eq : w'.now = w.now := by
  obtain ⟨T, st, write, pass, -, -, -, -, -, -, rfl⟩ := h
  rfl

theorem Answers.tasks_eq : w'.tasks = w.tasks := by
  obtain ⟨T, st, write, pass, -, -, -, -, -, -, rfl⟩ := h
  rfl

theorem Answers.live_before (hlive : w'.Alive j) : w.Alive j := by
  obtain ⟨T, hT, hlive⟩ := hlive
  refine ⟨T, h.tasks_eq ▸ hT, fun d hd => ?_⟩
  rw [← h.now_eq]
  exact hlive d hd

end

theorem Drifts.live_before (h : w.Drifts P w') (hlive : w'.Alive j) : w.Alive j := by
  obtain ⟨T, hT, hlive⟩ := hlive
  exact ⟨T, h.tasks ▸ hT, h.live hlive⟩

theorem live_before_launch {l : Launch} (hne : j ≠ i) (hlive : (w.launch P i l).Alive j) :
    w.Alive j := by
  obtain ⟨T, hT, hlive⟩ := hlive
  exact ⟨T, (tasks_launch_of_ne hne l).symm.trans hT, hlive⟩

section

variable (h : w.Answers P i c r w')
include h

theorem Answers.opened_le : w.storage.opened ≤ w'.storage.opened := by
  obtain ⟨T, st, write, pass, -, -, hanswers, -, -, -, rfl⟩ := h
  exact hanswers.opened_le.trans_eq (opened_closeAll _ _).symm

/-- The manifest that a process has read last, and when. -/
theorem Answers.read_cases (j : ℕ) :
    j = i ∧ c = .manifestGet ∧ w'.past.readAt j = w.stamp ∨
      w'.past.readAt j = w.past.readAt j ∧ (w'.track j).snapshot = (w.track j).snapshot ∧
        (c = .manifestGet → j ≠ i) := by
  have htrack := h.track_cases j
  obtain ⟨T, st, write, pass, -, -, -, -, -, -, rfl⟩ := h
  by_cases hc : c = .manifestGet
  · subst hc
    have hread : (w.after P i T .manifestGet r st write pass).past.readAt =
        update w.past.readAt i w.stamp := rfl
    rcases htrack with ⟨rfl, -⟩ | ⟨hne, heq⟩
    · exact .inl ⟨rfl, rfl, by rw [hread, update_self]⟩
    · exact .inr ⟨by rw [hread, update_of_ne hne], by rw [heq], fun _ => hne⟩
  · refine .inr ⟨congrFun (remember_readAt hc) j, ?_, fun heq => absurd heq hc⟩
    rcases htrack with ⟨rfl, heq⟩ | ⟨-, heq⟩
    · rw [heq, Track.snapshot_step hc]
    · rw [heq]

/-- The versions of the manifest, and when a process has stored one last. -/
theorem Answers.posted_cases :
    (∀ data, c ≠ .manifestPut data) ∧ w'.past.versions = w.past.versions ∧
        w'.past.postedAt = w.past.postedAt ∨
      (∃ data, c = .manifestPut data) ∧ w'.past.versions =
          (w'.storage.replica.manifest.map (w.now, ·)).toList ++ w.past.versions ∧
        w'.past.postedAt = update w.past.postedAt i w.stamp := by
  obtain ⟨T, st, write, pass, -, -, -, -, -, -, rfl⟩ := h
  by_cases hc : ∃ data, c = .manifestPut data
  · obtain ⟨data, rfl⟩ := hc
    refine .inr ⟨⟨data, rfl⟩, ?_, rfl⟩
    rw [replica_after]
    rfl
  · have hc' : ∀ data, c ≠ .manifestPut data := fun data heq => hc ⟨data, heq⟩
    exact .inl ⟨hc', remember_posted hc'⟩

theorem Answers.deletions_cases {d : Deletion B} (hd : d ∈ w'.past.deletions) :
    d ∈ w.past.deletions ∨
      ∃ site files, c = .deleteLTXFiles site files ∧ d = ⟨i, w.now, site,
        w.storage.replica.infos.filter fun f => ¬ HasKey w'.storage.replica.infos f.key,
        w.past.versions⟩ := by
  obtain ⟨T, st, write, pass, -, -, -, -, -, -, rfl⟩ := h
  by_cases hc : ∃ site files, c = .deleteLTXFiles site files
  · obtain ⟨site, files, rfl⟩ := hc
    rw [replica_after]
    rcases mem_cons.mp hd with rfl | hd
    · exact .inr ⟨site, files, rfl, rfl⟩
    · exact .inl hd
  · refine .inl ?_
    have hsame : (w.after P i T c r st write pass).past.deletions = w.past.deletions :=
      remember_deletions fun site files heq => hc ⟨site, files, heq⟩
    rwa [hsame] at hd

end

/-- What a call deletes it names, and its process may still use its context. -/
theorem Answers.deleted {site : Site} {files : List FileInfo}
    {r : Resp (.deleteLTXFiles site files : Op B)}
    (h : w.Answers P i (.deleteLTXFiles site files) r w') {k : FileKey}
    (hk : HasKey w.storage.replica.infos k) (hgone : ¬ HasKey w'.storage.replica.infos k) :
    w.Alive i ∧ HasKey files k := by
  obtain ⟨T, st, write, pass, hT, -, hanswers, -, -, hbound, rfl⟩ := h
  rw [replica_after] at hgone
  refine ⟨⟨T, hT, ?_⟩, ?_⟩
  · rcases hbound rfl with hlive | ⟨-, rfl, -⟩
    · exact hlive
    · exact absurd hk hgone
  rcases hanswers.replica_cases with heq | ⟨_, hc, -⟩ | ⟨site', files', gone, hc, hgone', heq⟩ |
    ⟨_, _, _, hc, -⟩ | ⟨_, _, _, hc | hc, -⟩
  · rw [heq] at hgone
    exact absurd hk hgone
  · cases hc
  · obtain ⟨rfl, rfl⟩ := Op.deleteLTXFiles.inj hc
    rw [heq, Replica.hasKey_remove] at hgone
    by_contra hnot
    exact hgone ⟨hk, fun hg => hnot (hgone' k hg)⟩
  · cases hc
  · cases hc
  · cases hc

/-- An object stays unless a process that may still use its context deletes it. -/
theorem Answers.infos_kept (h : w.Answers P i c r w') {k : FileKey}
    (hk : HasKey w.storage.replica.infos k)
    (hdelete : ∀ site files, c = .deleteLTXFiles site files → w.Alive i → ¬ HasKey files k) :
    HasKey w'.storage.replica.infos k := by
  by_cases hc : ∃ site files, c = .deleteLTXFiles site files
  · obtain ⟨site, files, rfl⟩ := hc
    by_contra hgone
    obtain ⟨hlive, hfiles⟩ := h.deleted hk hgone
    exact hdelete site files rfl hlive hfiles
  · obtain ⟨T, st, write, pass, -, -, hanswers, -, -, -, rfl⟩ := h
    rw [replica_after]
    rcases hanswers.replica_cases with heq | ⟨data, -, heq⟩ | ⟨site, files, gone, hc', -⟩ |
      ⟨level, files, info, -, -, heq⟩ | ⟨s, ses, info, -, -, -, heq⟩
    · rwa [heq]
    · rwa [heq]
    · exact absurd ⟨site, files, hc'⟩ hc
    · rw [heq]
      exact Replica.hasKey_put.mpr (.inl hk)
    · rw [heq]
      exact Replica.hasKey_put.mpr (.inl hk)

theorem Answers.openRead_ok {plan : Seen} {s : Sess}
    (h : w.Answers P i (.openRead plan) (.ok s) w') : s = w.storage.opened ∧
      w'.storage.opened = w.storage.opened + 1 ∧
      w'.past.plannedAt = update w.past.plannedAt s (w.past.readAt i) := by
  obtain ⟨T, st, write, pass, -, -, ⟨rfl, rfl⟩, -, -, -, rfl⟩ := h
  exact ⟨rfl, opened_closeAll _ _, rfl⟩

section

variable (h : w.Answers P i c r w')
include h

/-- When the manifest was read that a session was opened on. -/
theorem Answers.planned_cases (s : Sess) :
    w'.past.plannedAt s = w.past.plannedAt s ∨ s = w.storage.opened ∧
      w'.storage.opened = w.storage.opened + 1 ∧ w'.past.plannedAt s = w.past.readAt i ∧
      ∃ plan, c = .openRead plan := by
  by_cases hc : ∃ plan, c = .openRead plan
  · obtain ⟨plan, rfl⟩ := hc
    cases r with
    | error e =>
      obtain ⟨T, st, write, pass, -, -, -, -, -, -, rfl⟩ := h
      exact .inl rfl
    | ok s' =>
      obtain ⟨rfl, hopened, hplanned⟩ := h.openRead_ok
      rw [hplanned]
      by_cases hs : s = w.storage.opened
      · exact .inr ⟨hs, hopened, by rw [hs, update_self], plan, rfl⟩
      · exact .inl (update_of_ne hs _ _)
  · obtain ⟨T, st, write, pass, -, -, -, -, -, -, rfl⟩ := h
    exact .inl (congrFun (remember_plannedAt fun plan heq => hc ⟨plan, heq⟩) s)

/-- A session that is open after a call was opened before, or by the call. -/
theorem Answers.session_old (hfresh : w.storage.Fresh) {s : Sess} {ses : Session}
    (hses : w'.storage.sessions s = some ses) :
    s < w.storage.opened ∨ s = w.storage.opened ∧ ∃ plan, c = .openWrite plan ∨
      c = .openRead plan ∧ w'.past.plannedAt s = w.past.readAt i ∧
        ses = w.storage.newSession plan := by
  have hcall := h
  obtain ⟨T, st, write, pass, -, -, hanswers, -, -, -, rfl⟩ := h
  have hst := sessions_closeAll hses
  rcases lt_or_ge s w.storage.opened with hlt | hge
  · exact .inl hlt
  have hs : s < st.opened := by
    by_contra hle
    rw [hanswers.fresh hfresh s (not_lt.mp hle)] at hst
    cases hst
  rcases hanswers.opened_cases with rfl | ⟨heq, -⟩ | ⟨plan, hc, rfl⟩
  · exact absurd hs (not_lt.mpr hge)
  · exact absurd (heq ▸ hs) (not_lt.mpr hge)
  obtain rfl : s = w.storage.opened := le_antisymm (Nat.le_of_lt_succ hs) hge
  refine .inr ⟨rfl, plan, hc.imp_right ?_⟩
  rintro rfl
  cases r with
  | error e =>
    exact absurd (congrArg Storage.opened (show w.storage.openSession plan = w.storage
      from hanswers)) (Nat.succ_ne_self _)
  | ok s' =>
    obtain ⟨rfl, -, hplanned⟩ := hcall.openRead_ok
    refine ⟨rfl, by rw [hplanned, update_self], ?_⟩
    simpa [Storage.openSession, Storage.setSession] using hst.symm

/-- Where the cached sessions come from. -/
theorem Answers.cache_cases {n : ℕ} {e : Cache.Entry (Option Sess)} (he : e ∈ (w'.caches n).entries)
    (hkey : e.key = P.key) :
    ((∃ e' ∈ (w.caches n).entries, e'.key = P.key ∧ e'.inst = e.inst) ∧
        (c = .evict → ∀ T, w.tasks i = some T → T.node ≠ n)) ∨
      ∃ T s, w.tasks i = some T ∧ T.node = n ∧ c = .cachePut s ∧ e.inst = some s := by
  obtain ⟨T, st, write, pass, hT, -, -, -, -, -, rfl⟩ := h
  have hold : ∀ {n e}, e ∈ (w.caches n).entries → e.key = P.key →
      ∃ e' ∈ (w.caches n).entries, e'.key = P.key ∧ e'.inst = e.inst :=
    fun he hkey => ⟨_, he, hkey, rfl⟩
  by_cases hn : n = T.node
  · subst hn
    have he' : e ∈ (w.cacheCall P T c).2.entries := by simpa [after] using he
    cases c with
    | cacheGet =>
      obtain ⟨e', hmem, hkey', hinst⟩ := Cache.mem_get he'
      exact .inl ⟨⟨e', hmem, hkey'.trans hkey, hinst⟩, by rintro ⟨⟩⟩
    | cachePut s =>
      rcases Cache.mem_put he' with hmem | rfl
      · exact .inl ⟨hold hmem hkey, by rintro ⟨⟩⟩
      · exact .inr ⟨T, s, hT, rfl, rfl, rfl⟩
    | evict => exact absurd hkey (Cache.mem_evict he').2
    | _ => exact .inl ⟨hold he' hkey, by rintro ⟨⟩⟩
  · have he' : e ∈ (w.caches n).entries := by
      simpa [after, update_of_ne hn] using he
    refine .inl ⟨hold he' hkey, fun _ T' hT' => ?_⟩
    rw [hT] at hT'
    cases hT'
    exact Ne.symm hn

/-- The session that a read is given is cached on its node. -/
theorem Answers.handsOut_cached {s : Sess} (hs : c.handsOut r = some s) :
    ∃ T, w.tasks i = some T ∧ ∃ e ∈ (w.caches T.node).entries, e.key = P.key ∧
      e.inst = some s := by
  obtain ⟨T, st, write, pass, hT, hcredible, -, -, -, -, -⟩ := h
  cases c with
  | cacheGet =>
    obtain rfl : r = some s := hs
    have hget : some s = ((w.caches T.node).get P.key (w.localNow P T)).1.join := by
      simpa [credible] using hcredible
    obtain ⟨e, he, hkey, hinst, -⟩ := Cache.get_eq_some (Option.join_eq_some_iff.mp hget.symm)
    exact ⟨T, hT, e, he, hkey, hinst⟩
  | _ => cases hs

theorem Answers.marked_cases (n : ℕ) :
    w'.past.markedAt n = w.past.markedAt n ∨ w'.past.markedAt n = w.stamp := by
  obtain ⟨T, st, write, pass, -, -, -, -, -, -, rfl⟩ := h
  have hmarked : (w.remember P i T c r st).markedAt = w.past.markedAt ∨
      (w.remember P i T c r st).markedAt = update w.past.markedAt T.node w.stamp :=
    remember_markedAt
  rcases hmarked with heq | heq
  · exact .inl (congrFun heq n)
  by_cases hn : n = T.node
  · exact .inr ((congrFun heq n).trans (by rw [hn, update_self]))
  · exact .inl ((congrFun heq n).trans (update_of_ne hn _ _))

theorem Answers.settled_cases (j : ℕ) :
    j = i ∧ c.settles r = true ∧ w'.past.settledAt j = some w.stamp ∨
      w'.past.settledAt j = w.past.settledAt j ∧ (w'.track j).acked = (w.track j).acked := by
  have htrack := h.track_cases j
  obtain ⟨T, st, write, pass, -, -, -, -, -, -, rfl⟩ := h
  cases hc : c.settles r with
  | true =>
    have hsettled : (w.after P i T c r st write pass).past.settledAt =
        update w.past.settledAt i (some w.stamp) := by
      unfold Op.settles at hc
      split at hc
      · rfl
      · cases hc
    rcases htrack with ⟨rfl, -⟩ | ⟨hne, heq⟩
    · exact .inl ⟨rfl, rfl, by rw [hsettled, update_self]⟩
    · exact .inr ⟨by rw [hsettled, update_of_ne hne], by rw [heq]⟩
  | false =>
    refine .inr ⟨congrFun (remember_settledAt hc) j, ?_⟩
    rcases htrack with ⟨rfl, heq⟩ | ⟨-, heq⟩
    · rw [heq, Track.acked_of_not_settles hc]
    · rw [heq]

theorem Answers.runs_cases {run : Run} (hrun : run ∈ w'.past.runs) :
    run ∈ w.past.runs ∨ run.proc = i ∧
      ((∃ s ses, c = .runRead s ∧ w.storage.sessions s = some ses ∧
        run.files = ses.client.files) ∨ c = .runEmpty ∧ run.files = []) := by
  obtain ⟨T, st, write, pass, -, -, -, -, -, -, rfl⟩ := h
  by_cases hread : ∃ s, c = .runRead s
  · obtain ⟨s, rfl⟩ := hread
    have hruns : run ∈ (w.remember P i T (.runRead s) r st).runs := hrun
    unfold remember at hruns
    simp only at hruns
    split at hruns
    · next ses hses =>
      rcases mem_cons.mp hruns with rfl | hold
      · exact .inr ⟨rfl, .inl ⟨s, ses, rfl, hses, rfl⟩⟩
      · exact .inl hold
    · exact .inl hruns
  · by_cases hempty : c = .runEmpty
    · subst hempty
      rcases mem_cons.mp hrun with rfl | hold
      · exact .inr ⟨rfl, .inr ⟨rfl, rfl⟩⟩
      · exact .inl hold
    · have hruns : run ∈ (w.remember P i T c r st).runs := hrun
      rw [remember_runs (fun s heq => hread ⟨s, heq⟩) hempty] at hruns
      exact .inl hruns

end

/-! ### Every stamp is of the past -/

/-- Every stamp is of the past. -/
structure Stamped (w : Cluster B) : Prop where
  settled : ∀ i σ, w.past.settledAt i = some σ → σ.step < w.past.steps ∧ σ.time ≤ w.now
  read : ∀ i, (w.past.readAt i).step ≤ w.past.steps ∧ (w.past.readAt i).time ≤ w.now
  planned : ∀ s, (w.past.plannedAt s).step ≤ w.past.steps ∧ (w.past.plannedAt s).time ≤ w.now
  unplanned : ∀ s, w.storage.opened ≤ s → (w.past.plannedAt s).step = 0
  marked : ∀ n, (w.past.markedAt n).step ≤ w.past.steps
  started : ∀ i T, w.tasks i = some T → T.started.step ≤ w.past.steps ∧ T.started.time ≤ w.now
  acked : ∀ i t, (w.track i).acked = some t → ∃ σ, w.past.settledAt i = some σ

theorem Stamped.call (h : w.Stamped) (hcall : w.Answers P i c r w') : w'.Stamped := by
  have hsteps := hcall.steps_eq
  have hnow := hcall.now_eq
  have hstamp : w.stamp.step ≤ w'.past.steps ∧ w.stamp.time ≤ w'.now := by
    rw [hsteps, hnow]
    exact ⟨Nat.le_succ _, le_rfl⟩
  have hlater {σ : Stamp} (hσ : σ.step ≤ w.past.steps ∧ σ.time ≤ w.now) :
      σ.step ≤ w'.past.steps ∧ σ.time ≤ w'.now := by
    rw [hsteps, hnow]
    exact ⟨hσ.1.trans (Nat.le_succ _), hσ.2⟩
  refine ⟨fun j σ hσ => ?_, fun j => ?_, fun s => ?_, fun s hs => ?_, fun n => ?_,
    fun j T hT => ?_, fun j t ht => ?_⟩
  · rw [hsteps, hnow]
    rcases hcall.settled_cases j with ⟨-, -, heq⟩ | ⟨heq, -⟩
    · rw [heq] at hσ
      cases hσ
      exact ⟨Nat.lt_succ_self _, le_rfl⟩
    · obtain ⟨hstep, htime⟩ := h.settled j σ (heq ▸ hσ)
      exact ⟨hstep.trans (Nat.lt_succ_self _), htime⟩
  · rcases hcall.read_cases j with ⟨-, -, heq⟩ | ⟨heq, -⟩
    · rw [heq]
      exact hstamp
    · rw [heq]
      exact hlater (h.read j)
  · rcases hcall.planned_cases s with heq | ⟨-, -, heq, -⟩
    · rw [heq]
      exact hlater (h.planned s)
    · rw [heq]
      exact hlater (h.read i)
  · rcases hcall.planned_cases s with heq | ⟨rfl, hopened, -⟩
    · rw [heq]
      exact h.unplanned s (hcall.opened_le.trans hs)
    · rw [hopened] at hs
      exact absurd hs (Nat.not_succ_le_self _)
  · rcases hcall.marked_cases n with heq | heq
    · rw [heq, hsteps]
      exact (h.marked n).trans (Nat.le_succ _)
    · rw [heq]
      exact hstamp.1
  · rw [hcall.tasks_eq] at hT
    exact hlater (h.started j T hT)
  · rcases hcall.settled_cases j with ⟨-, -, heq⟩ | ⟨heq, hacked⟩
    · exact ⟨_, heq⟩
    · obtain ⟨σ, hσ⟩ := h.acked j t (hacked ▸ ht)
      exact ⟨σ, heq.trans hσ⟩

/-- What was acknowledged when a program starts was acknowledged before. -/
theorem acked_launch {l : Launch} {t : ℕ} (h : ((w.launch P i l).track j).acked = some t) :
    j ≠ i ∧ (w.track j).acked = some t := by
  rcases track_launch_cases (P := P) (w := w) (i := i) l j with ⟨-, heq⟩ | ⟨hne, heq⟩ <;>
    rw [heq] at h
  · cases h
  · exact ⟨hne, h⟩

theorem Stamped.launch (h : w.Stamped) (l : Launch) : (w.launch P i l).Stamped := by
  refine ⟨h.settled, h.read, h.planned, h.unplanned, h.marked, fun j T hT => ?_, fun j t ht => ?_⟩
  · by_cases hj : j = i
    · subst hj
      rw [tasks_launch_self] at hT
      cases hT
      exact ⟨le_rfl, le_rfl⟩
    · rw [tasks_launch_of_ne hj] at hT
      exact h.started j T hT
  · exact h.acked j t (acked_launch ht).2

theorem Stamped.move (h : w.Stamped) (hmove : w.Drifts P w') : w'.Stamped := by
  have hlater {σ : Stamp} {n : ℕ} (hσ : σ.step ≤ n ∧ σ.time ≤ w.now) :
      σ.step ≤ n ∧ σ.time ≤ w'.now := ⟨hσ.1, hσ.2.trans hmove.now⟩
  have hpast := hmove.past
  refine ⟨fun j σ hσ => ?_, fun j => ?_, fun s => ?_, fun s hs => ?_, fun n => ?_,
    fun j T hT => ?_, fun j t ht => ?_⟩
  · rw [hpast] at hσ ⊢
    obtain ⟨hstep, htime⟩ := h.settled j σ hσ
    exact ⟨hstep, htime.trans hmove.now⟩
  · rw [hpast]
    exact hlater (h.read j)
  · rw [hpast]
    exact hlater (h.planned s)
  · rw [hpast]
    exact h.unplanned s (hmove.opened ▸ hs)
  · rw [hpast]
    exact h.marked n
  · rw [hpast]
    exact hlater (h.started j T (hmove.tasks ▸ hT))
  · rw [hpast]
    exact h.acked j t (hmove.track_eq j ▸ ht)

theorem stamped_initial (rep : Replica B) : (initial P rep).Stamped :=
  ⟨nofun, fun _ => ⟨le_rfl, le_rfl⟩, fun _ => ⟨le_rfl, le_rfl⟩, fun _ _ => rfl, fun _ => le_rfl,
    nofun, nofun⟩

/-- What happened at an earlier time happened earlier. -/
structure Ordered (w : Cluster B) : Prop where
  read : ∀ i σ j, w.past.settledAt i = some σ → σ.time < (w.past.readAt j).time →
    σ.step < (w.past.readAt j).step
  planned : ∀ i σ s, w.past.settledAt i = some σ → σ.time < (w.past.plannedAt s).time →
    σ.step < (w.past.plannedAt s).step
  started : ∀ i σ j T, w.past.settledAt i = some σ → w.tasks j = some T →
    σ.time < T.started.time → σ.step < T.started.step

theorem Ordered.call (h : w.Ordered) (hstamped : w.Stamped) (hcall : w.Answers P i c r w') :
    w'.Ordered := by
  have hstamped' := hstamped.call hcall
  -- nothing is later than an acknowledgement that happens now
  have hsettled {i' : ℕ} {σ σ' : Stamp} (hσ : w'.past.settledAt i' = some σ)
      (hnow : σ'.time ≤ w'.now) (hlt : σ.time < σ'.time) : w.past.settledAt i' = some σ := by
    rcases hcall.settled_cases i' with ⟨-, -, heq⟩ | ⟨heq, -⟩
    · rw [heq] at hσ
      cases hσ
      rw [hcall.now_eq] at hnow
      exact absurd hlt (not_lt.mpr hnow)
    · exact heq ▸ hσ
  refine ⟨fun i' σ j hσ hlt => ?_, fun i' σ s hσ hlt => ?_, fun i' σ j T hσ hT hlt => ?_⟩
  · have hσ' := hsettled hσ (hstamped'.read j).2 hlt
    rcases hcall.read_cases j with ⟨-, -, heq⟩ | ⟨heq, -⟩
    · rw [heq]
      exact (hstamped.settled i' σ hσ').1
    · rw [heq] at hlt ⊢
      exact h.read i' σ j hσ' hlt
  · have hσ' := hsettled hσ (hstamped'.planned s).2 hlt
    rcases hcall.planned_cases s with heq | ⟨-, -, heq, -⟩ <;> rw [heq] at hlt ⊢
    · exact h.planned i' σ s hσ' hlt
    · exact h.read i' σ i hσ' hlt
  · have hσ' := hsettled hσ (hstamped'.started j T hT).2 hlt
    rw [hcall.tasks_eq] at hT
    exact h.started i' σ j T hσ' hT hlt

theorem Ordered.launch (h : w.Ordered) (hstamped : w.Stamped) (l : Launch) :
    (w.launch P i l).Ordered := by
  refine ⟨h.read, h.planned, fun i' σ j T hσ hT hlt => ?_⟩
  by_cases hj : j = i
  · subst hj
    rw [tasks_launch_self] at hT
    cases hT
    exact (hstamped.settled i' σ hσ).1
  · rw [tasks_launch_of_ne hj] at hT
    exact h.started i' σ j T hσ hT hlt

theorem Ordered.move (h : w.Ordered) (hmove : w.Drifts P w') : w'.Ordered := by
  refine ⟨?_, ?_, ?_⟩
  · rw [hmove.past]
    exact h.read
  · rw [hmove.past]
    exact h.planned
  · rw [hmove.past, hmove.tasks]
    exact h.started

/-! ### What has returned and what has started -/

/-- What was acknowledged stays so, once the write has returned. -/
theorem done_later {good : Cluster B → ℕ → (c : Op B) → Resp c → Cluster B → Prop}
    {a b : Pool (Cluster B) ℕ (Op B) Resp Outcome} {x : Outcome}
    (hab : Relation.ReflTransGen ((clusterSystem P).restrict good).Step a b)
    (hi : a.procs i = some (.done x)) : b.procs i = some (.done x) ∧
      b.world.past.settledAt i = a.world.past.settledAt i := by
  induction hab with
  | refl => exact ⟨hi, rfl⟩
  | tail _ hs ih =>
    obtain ⟨hb, hsettled⟩ := ih
    refine ⟨hs.procs_done hb, ?_⟩
    rw [← hsettled]
    cases hs with
    | start _ h =>
      obtain ⟨-, l, -, rfl⟩ := h
      rfl
    | call hj h =>
      rcases h.1.settled_cases i with ⟨rfl, -⟩ | ⟨heq, -⟩
      · exact absurd (hj.symm.trans hb) (by simp)
      · exact heq
    | env h =>
      obtain ⟨e, hmove⟩ := h
      rw [(move_drifts hmove).past]

/-- A process that starts later is stamped later. -/
theorem started_later {good : Cluster B → ℕ → (c : Op B) → Resp c → Cluster B → Prop}
    {a b : Pool (Cluster B) ℕ (Op B) Resp Outcome}
    (hab : Relation.ReflTransGen ((clusterSystem P).restrict good).Step a b)
    (hj : a.world.tasks j = none) (hT : b.world.tasks j = some T) :
    a.world.past.steps ≤ T.started.step := by
  have hinv : a.world.past.steps ≤ b.world.past.steps ∧ ∀ T, b.world.tasks j = some T →
      a.world.past.steps ≤ T.started.step := by
    refine System.world_of_steps (I := fun w => a.world.past.steps ≤ w.past.steps ∧
      ∀ T, w.tasks j = some T → a.world.past.steps ≤ T.started.step) ?_ ?_ ?_ hab ⟨le_rfl, ?_⟩
    · rintro w i p _ ⟨hle, hstarted⟩ ⟨-, l, -, rfl⟩
      refine ⟨hle, fun T hT => ?_⟩
      by_cases hji : j = i
      · subst hji
        rw [tasks_launch_self] at hT
        cases hT
        exact hle
      · rw [tasks_launch_of_ne hji] at hT
        exact hstarted T hT
    · rintro w i c r w' ⟨hle, hstarted⟩ ⟨hcall, -⟩
      rw [hcall.steps_eq, hcall.tasks_eq]
      exact ⟨hle.trans (Nat.le_succ _), hstarted⟩
    · rintro w w' ⟨hle, hstarted⟩ ⟨e, hmove⟩
      rw [(move_drifts hmove).past, (move_drifts hmove).tasks]
      exact ⟨hle, hstarted⟩
    · intro T hT
      rw [hj] at hT
      cases hT
  exact hinv.2 T hT

/-- When a write that has returned success was acknowledged. -/
theorem Stamped.done (h : w.Stamped) {res : WriteResult}
    (hack : (w.track i).Acknowledges (.ok res)) :
    ∃ σ, w.past.settledAt i = some σ ∧ σ.step < w.past.steps ∧ σ.time ≤ w.now := by
  obtain ⟨t, hacked, -⟩ := hack res rfl
  obtain ⟨σ, hσ⟩ := h.acked i t hacked
  exact ⟨σ, hσ, h.settled i σ hσ⟩

end Cluster

end Walrusd.Runtime
