import Walrusd.Runtime.Stamps

/-!
# Merged sources along runs of a cluster

A pass removes the sources of its merge from the manifest and then deletes them. Readers may still
have planned on a manifest that named them, so a deletion should wait: `DeleteFiles` takes the
retention off the time at which a file was created, which says nothing about when the manifest
stopped naming it. While a pass holds the compaction lease and has stored its manifest, no commit
brings a source back, since the merged file reaches as far. A repair may, and so does a pass that
merges its own output.

## Main definitions

* `leaseOnce` — a pass asks for its lease once.
* `Cluster.Retiring`, `Cluster.Retired` — the passes that delete sources, and the invariant about
  them.
* `Cluster.Lingering` — the condition on the steps of a run.

## Main results

* `Cluster.sources_outlive_plans`.
-/

namespace Walrusd.Runtime

open Program Litestream Function List

/-! ### The lease of a pass -/

/-- The call asks for the compaction lease. -/
def Op.asksPass {B : Type} : Op B → Bool
  | .acquireKey _ _ => true
  | _ => false

/-- A pass asks for the compaction lease at most once; other programs have no record. -/
def leaseOnce {B : Type} : Protocol (Op B) Resp (Option Bool) where
  allow s c := s = some true → c.asksPass = false
  next s c _ s' := s' = s.map (· || c.asksPass)

section Programs

variable {B α : Type} {json : ManifestJson B} {cfg : Config} {d : Descriptor}

theorem leaseOnce_none (p : RuntimeM B α) : p.Keeps leaseOnce none :=
  (Prog.obeys_of_closed (J := fun s => s = none) (fun s c hs h => by rw [hs] at h; cases h)
    (fun s c r s' hs hn => by rw [hn, hs]; rfl) p rfl).mono fun _ _ _ => trivial

theorem leaseOnce_only {p : RuntimeM B α} (hp : p.Only fun c => c.asksPass = false)
    {s : Option Bool} : p.Keeps leaseOnce s :=
  hp.safe fun _ _ hc _ => hc

theorem Op.asksPass_of_merges {c : Op B} (hc : c.merges = true) : c.asksPass = false := by
  cases c <;> first | rfl | cases hc

/-- **A pass asks for its lease once.** -/
theorem runCompaction_leaseOnce : (runCompaction json cfg d).Keeps leaseOnce (some false) := by
  have hdatabase : (compactDatabase json cfg d).Keeps leaseOnce
      (some false) := by
    refine (readManifest_only json).bind_obeys (fun c hc => ⟨nofun, fun r s' hn => ?_⟩) ?_
    · cases c <;> first | exact hn | cases hc
    rintro (e | _ | _ | ⟨f, files⟩)
    · trivial
    · trivial
    · trivial
    · refine .perform nofun ?_
      rintro (e | held) s -
      · trivial
      refine leaseOnce_only (Prog.Only.bind ?_ fun _ => .perform rfl fun _ => ?_)
      · exact (mergeSnapshot_only json cfg d _).mono fun c => Op.asksPass_of_merges
      · trivial
  refine .perform nofun ?_
  rintro (e | _) _ rfl
  · exact leaseOnce_only (Prog.only_perform rfl)
  · refine hdatabase.bind fun s _ _ => leaseOnce_only ?_
    exact .perform rfl fun _ => Prog.only_perform rfl

end Programs

/-- The files that a pass removes from the manifest. -/
def Track.sources (s : Track) : List FileInfo := (supersede s.planned [] s.merged).2

section Records

variable {B : Type} {json : ManifestJson B} {s : Track} {c : Op B} {r : Resp c}

theorem Track.exists_merged_of_sources {k : FileKey} (hk : HasKey s.sources k) :
    ∃ k', HasKey s.merged k' ∧ k.maxTXID ≤ k'.maxTXID := by
  rcases hasKey_supersede hk with hnil | ⟨⟨info, hinfo, -, hmax⟩, -⟩
  · exact absurd hnil not_hasKey_nil
  · exact ⟨info.key, hasKey_of_mem hinfo, hmax⟩

theorem Track.Merged.eq_delta {files : List FileInfo} (h : s.Merged files) :
    ∃ base, s.current = some (some base) ∧ files = applyManifestDelta base s.merged s.sources := by
  obtain ⟨-, T, S, base, client, -, hS, hbase, -, -, -, rfl⟩ := h
  exact ⟨base, hbase, by rw [Track.sources, Track.planned, hS]; rfl⟩

/-- What a pass that holds its lease has planned on does not change. -/
theorem Track.step_sources (hc : c.kind ≠ .compact) (hget : c = .manifestGet → s.pass = true) :
    (s.step json c r).sources = s.sources ∧ (s.step json c r).merged = s.merged := by
  have hmerged : (s.step json c r).merged = s.merged := (s.step_frame json c r).merged hc
  have hsnapshot : (s.step json c r).snapshot = s.snapshot := by
    by_cases hc' : c = .manifestGet
    · subst hc'
      simp only [Track.step, Track.see, hget rfl, if_true]
      split <;> rfl
    · exact Track.snapshot_step hc'
  refine ⟨?_, hmerged⟩
  rw [Track.sources, Track.planned, hmerged, hsnapshot]
  rfl

theorem Track.stored_step (hc : ∀ data, c ≠ .manifestPut data) :
    (s.step json c r).stored = s.stored := by
  by_cases hget : c = .manifestGet
  · subst hget
    simp only [Track.step, Track.see]
    split
    · rfl
    · split <;> rfl
  · refine ((s.step_frame json c r).manifest (fun hk => ?_) fun hk => ?_).2.2
    · cases c <;> first | exact hget rfl | cases hk
    · cases c <;> first | exact hc _ rfl | cases hk

theorem Track.pass_before (hpass : (s.step json c r).pass = true) (hc : c.asksPass = false) :
    s.pass = true := by
  have hfollows := (Cluster.lease_follows json s c r).2
  cases c with
  | acquireKey => cases hc
  | releaseKey => cases r <;> cases hpass
  | _ => exact hfollows hpass

end Records

namespace Cluster

variable {B : Type} {P : Setup B} {w w' : Cluster B} {i j : ℕ} {T : Task} {c : Op B} {r : Resp c}
  {g : ℕ → Option Bool}
variable {k : FileKey}

/-- The state of `leaseOnce` that a program starts in. -/
def Launch.leaseOnce : Launch → Option Bool
  | .compaction _ => some false
  | _ => none

theorem Launch.obeys_leaseOnce (l : Launch) :
    (l.program P).Keeps Runtime.leaseOnce l.leaseOnce := by
  cases l with
  | compaction n => exact runCompaction_leaseOnce.bind fun _ _ _ => trivial
  | write n key | read n => exact leaseOnce_none _

/-! ### Passes that delete sources -/

/-- The pass `j` has stored its manifest and may still delete files. -/
structure Retiring (w : Cluster B) (j : ℕ) : Prop where
  role : ∃ θ, (w.track j).role = .compaction θ
  pass : (w.track j).pass = true
  stored : (w.track j).stored = true
  live : w.Alive j

/-- No repair is stored while a pass may delete files. -/
def Unrepaired (w : Cluster B) (i : ℕ) : Prop :=
  (w.track i).role = .write → (w.track i).levels = snapshotLevel + 1 ∨ (w.track i).lapsed = true →
    ∀ j ∈ w.passLease.holder, ∀ T ∈ w.tasks j, w.Live T → (w.track j).stored = false

instance (w : Cluster B) (i : ℕ) : Decidable (w.Unrepaired i) :=
  inferInstanceAs (Decidable (_ → _ → ∀ j ∈ _, ∀ T ∈ _, _ → _))

/-- The invariant: a pass that uses the compaction lease has asked for it, and the manifest reaches
as far as the sources of a pass that may delete them, and names them only if the pass has written
them. -/
structure Retired (P : Setup B) (w : Cluster B) (g : ℕ → Option Bool) : Prop where
  current : w.Current P
  asked : ∀ i θ, (w.track i).role = .compaction θ → ∃ b, g i = some b ∧
    ((w.track i).pass = true ∨ (w.track i).stored = true ∨ (w.track i).merged ≠ [] → b = true)
  absent : ∀ j, w.Retiring j → ∀ M, w.manifest P = some M → ∀ k, HasKey (w.track j).sources k →
    k.maxTXID ≤ manifestMaxTXID M ∧ (¬ HasKey (w.track j).merged k → ¬ HasKey M k)

/-- A pass that may delete files after a call could do so before, or has just stored its
manifest. -/
theorem Retired.retiring_before (h : w.Retired P g) (hallow : w.Permits P i c)
    (hlease : Runtime.leaseOnce.allow (g i) c) (hcall : w.Answers P i c r w') (hj : w'.Retiring j) :
    (w'.track j).sources = (w.track j).sources ∧ (w'.track j).merged = (w.track j).merged ∧
      (w.Retiring j ∨ j = i ∧ ∃ data files, c = .manifestPut data ∧ w.Posts P i files w') := by
  have hlive := hcall.live_before hj.live
  obtain ⟨⟨θ, hrole⟩, hpass, hstored, -⟩ := hj
  rw [hcall.role_eq] at hrole
  rcases hcall.track_cases j with ⟨rfl, heq⟩ | ⟨-, heq⟩ <;> rw [heq] at hpass hstored ⊢
  · obtain ⟨b, hb, hasked⟩ := h.asked j θ hrole
    by_cases hput : ∃ data, c = .manifestPut data
    · obtain ⟨data, rfl⟩ := hput
      obtain ⟨hsources, hmerged⟩ :=
        Track.step_sources (s := w.track j) (r := r) (by simp [Op.kind]) nofun
      refine ⟨hsources, hmerged, ?_⟩
      cases r with
      | none =>
        obtain ⟨files, hposts⟩ := hcall.put_posts hallow
        exact .inr ⟨rfl, data, files, rfl, hposts⟩
      | some e => exact .inl ⟨⟨θ, hrole⟩, hpass, hstored, hlive⟩
    · rw [Track.stored_step fun data hc => hput ⟨data, hc⟩] at hstored
      have hpass' := Track.pass_before hpass (hlease (by rw [hb, hasked (.inr (.inl hstored))]))
      have hcompact : c.kind ≠ .compact := by
        intro hk
        cases c with
        | compact level files =>
          have hunstored : (w.track j).stored = false := hallow.2.1
          rw [hstored] at hunstored
          cases hunstored
        | _ => cases hk
      obtain ⟨hsources, hmerged⟩ := Track.step_sources (r := r) hcompact fun _ => hpass'
      exact ⟨hsources, hmerged, .inl ⟨⟨θ, hrole⟩, hpass', hstored, hlive⟩⟩
  · exact ⟨rfl, rfl, .inl ⟨⟨θ, hrole⟩, hpass, hstored, hlive⟩⟩

theorem Posts.merged_of_role {files : List FileInfo} {θ : ℤ} (h : w.Posts P i files w')
    (hrole : (w.track i).role = .compaction θ) : (w.track i).Merged files := by
  rcases h.source with hs | hs | hs | hs
  · exact absurd (hs.1.symm.trans hrole) (by simp)
  · exact absurd (hs.1.symm.trans hrole) (by simp)
  · exact hs
  · exact absurd (hs.1.symm.trans hrole) (by simp)

/-- **A manifest that is stored while a pass may delete its sources names none of them.** -/
theorem Retired.posts (h : w.Retired P g) (hbase : w.Base P) (hgood : w.Unrepaired i)
    {files : List FileInfo} (hposts : w.Posts P i files w') {θ : ℤ}
    (hrole : (w.track j).role = .compaction θ) (hj : w.Retiring j ∨ j = i)
    (hk : HasKey (w.track j).sources k) : k.maxTXID ≤ manifestMaxTXID files ∧
      (¬ HasKey (w.track j).merged k → ¬ HasKey files k) := by
  by_cases hji : j = i
  · subst hji
    obtain ⟨base, -, rfl⟩ := (hposts.merged_of_role hrole).eq_delta
    obtain ⟨k', hk', hmax⟩ := Track.exists_merged_of_sources hk
    refine ⟨hmax.trans (le_manifestMaxTXID (hasKey_applyManifestDelta.mpr (.inr hk'))), ?_⟩
    intro hown hfiles
    rcases hasKey_applyManifestDelta.mp hfiles with ⟨-, hnot⟩ | hmerged
    · exact hnot hk
    · exact hown hmerged
  · have hretiring := hj.resolve_right hji
    obtain ⟨T, hT, hlive⟩ := hretiring.live
    obtain ⟨T', hT', hlive'⟩ := hposts.live
    have hholder := hbase.fenced.pass.holder j T hT hretiring.pass hlive
    -- no repair is stored now
    have hnot : (w.track i).role = .write → (w.track i).levels = snapshotLevel + 1 ∨
        (w.track i).lapsed = true → False := by
      intro hwrite hrepair
      have hunstored := hgood hwrite hrepair j hholder T hT hlive
      rw [hretiring.stored] at hunstored
      cases hunstored
    rcases hposts.source with ⟨hwrite, hlevels, -⟩ | ⟨-, -, s, plan, base, n, -, hcurrent, hplan, -,
      hn, -, hfiles⟩ | ⟨hpass, -⟩ | ⟨hwrite, -, hlapsed, -⟩
    · exact (hnot hwrite (.inl hlevels)).elim
    · have hmanifest := h.current.of_live hbase.fenced hT' hlive' hposts.write hcurrent
      obtain ⟨hmax, habsent⟩ := h.absent j hretiring base hmanifest k hk
      have hsub : ∀ k, HasKey base k → HasKey files k := fun k hk =>
        (hfiles k).mpr (.inl ((hplan k).mp hk))
      refine ⟨hmax.trans (manifestMaxTXID_mono hsub), fun hown hnamed => ?_⟩
      rcases (hfiles k).mp hnamed with hold | rfl
      · exact habsent hown ((hplan k).mpr hold)
      · -- the new file starts after everything that the manifest names
        have hle : manifestMaxTXID base ≤ manifestMaxTXID plan :=
          manifestMaxTXID_mono fun k hk => (hplan k).mp hk
        have hnext : n + 1 ≤ manifestMaxTXID base := hmax
        omega
    · exact absurd (Option.some.inj (hholder.symm.trans
        (hbase.fenced.pass.holder i T' hT' hpass hlive'))) hji
    · exact (hnot hwrite (.inr hlapsed)).elim

/-- The step of a record of leases. -/
abbrev leaseStep (g : ℕ → Option Bool) (i : ℕ) (c : Op B) : ℕ → Option Bool :=
  update g i ((g i).map (· || c.asksPass))

theorem Retired.call (h : w.Retired P g) (hbase : w.Base P) (hallow : w.Permits P i c)
    (hlease : Runtime.leaseOnce.allow (g i) c) (hcall : w.Answers P i c r w')
    (hgood : ∀ data, c = .manifestPut data → w.Unrepaired i) :
    w'.Retired P (leaseStep g i c) where
  current := h.current.call hallow hcall fun _ => hbase.fenced.holder_of_posts
  asked j θ hrole := by
    rw [hcall.role_eq] at hrole
    rcases hcall.track_cases j with ⟨rfl, heq⟩ | ⟨hne, heq⟩ <;> rw [heq]
    · obtain ⟨b, hb, hasked⟩ := h.asked j θ hrole
      refine ⟨b || c.asksPass, by rw [leaseStep, update_self, hb]; rfl, ?_⟩
      cases hc : c.asksPass with
      | true => exact fun _ => Bool.or_true b
      | false =>
        rw [Bool.or_false]
        rintro (hpass | hstored | hmerged)
        · exact hasked (.inl (Track.pass_before hpass hc))
        · by_cases hput : ∃ data, c = .manifestPut data
          · obtain ⟨data, rfl⟩ := hput
            -- a pass stores its manifest only when it holds the lease
            obtain ⟨-, files, -, -, hsource⟩ := hallow
            rcases hsource with hs | hs | hs | hs
            · exact absurd (hs.1.symm.trans hrole) (by simp)
            · exact absurd (hs.1.symm.trans hrole) (by simp)
            · exact hasked (.inl hs.1)
            · exact absurd (hs.1.symm.trans hrole) (by simp)
          · rw [Track.stored_step fun data hc => hput ⟨data, hc⟩] at hstored
            exact hasked (.inr (.inl hstored))
        · by_cases hk : c.kind = .compact
          · cases c with
            | compact level files => exact hasked (.inl hallow.1)
            | _ => cases hk
          · rw [((w.track j).step_frame P.json c r).merged hk] at hmerged
            exact hasked (.inr (.inr hmerged))
    · rw [leaseStep, update_of_ne hne]
      exact h.asked j θ hrole
  absent j hj M hM k hk := by
    obtain ⟨hsources, hmerged, hbefore⟩ := h.retiring_before hallow hlease hcall hj
    obtain ⟨θ, hrole⟩ := hj.role
    have hrole' : (w.track j).role = .compaction θ := hcall.role_eq j ▸ hrole
    rw [hsources] at hk
    rw [hmerged]
    have hposted {data : B} {files : List FileInfo} (hc : c = .manifestPut data)
        (hposts : w.Posts P i files w') : k.maxTXID ≤ manifestMaxTXID M ∧
          (¬ HasKey (w.track j).merged k → ¬ HasKey M k) := by
      obtain ⟨decoded, hdecoded, -, hkeys⟩ := hposts.stores
      cases hM.symm.trans hdecoded
      obtain ⟨hmax, habsent⟩ := h.posts hbase (hgood data hc) hposts hrole'
        (hbefore.imp_right And.left) hk
      exact ⟨hmax.trans (manifestMaxTXID_mono fun k => (hkeys k).mpr), fun hown hnamed =>
        habsent hown ((hkeys k).mp hnamed)⟩
    rcases hcall.manifest_cases hallow with hsame | ⟨data, files, hc, hposts⟩
    · rcases hbefore with hbefore | ⟨-, data, files, hc, hposts⟩
      · exact h.absent j hbefore M ((manifest_congr hsame).symm.trans hM) k hk
      · exact hposted hc hposts
    · exact hposted hc hposts

theorem Retiring.of_launch {l : Launch} (hj : (w.launch P i l).Retiring j) :
    (w.launch P i l).track j = w.track j ∧ w.Retiring j := by
  obtain ⟨hrole, hpass, hstored, hlive⟩ := hj
  rcases track_launch_cases (P := P) (w := w) (i := i) l j with ⟨-, heq⟩ | ⟨hne, heq⟩
  · rw [heq] at hpass
    cases hpass
  · rw [heq] at hrole hpass hstored
    exact ⟨heq, hrole, hpass, hstored, live_before_launch hne hlive⟩

theorem Retired.launch (h : w.Retired P g) (l : Launch) :
    (w.launch P i l).Retired P (update g i l.leaseOnce) := by
  refine ⟨h.current.launch l, fun j θ hrole => ?_, fun j hj M hM k hk => ?_⟩
  · rcases track_launch_cases (P := P) (w := w) (i := i) l j with ⟨rfl, heq⟩ | ⟨hne, heq⟩ <;>
      rw [heq] at hrole ⊢
    · rw [update_self]
      cases l with
      | compaction n =>
        exact ⟨false, rfl, by rintro (hp | hp | hp) <;> first | cases hp | exact absurd rfl hp⟩
      | write | read => cases hrole
    · rw [update_of_ne hne]
      exact h.asked j θ hrole
  · obtain ⟨heq, hbefore⟩ := hj.of_launch
    rw [heq] at hk ⊢
    exact h.absent j hbefore M hM k hk

theorem Retiring.of_move (hmove : w.Drifts P w') (hj : w'.Retiring j) : w.Retiring j := by
  obtain ⟨hrole, hpass, hstored, hlive⟩ := hj
  rw [hmove.track_eq] at hrole hpass hstored
  exact ⟨hrole, hpass, hstored, hmove.live_before hlive⟩

theorem Retired.move (h : w.Retired P g) (hmove : w.Drifts P w') : w'.Retired P g := by
  refine ⟨h.current.move hmove, fun j θ hrole => ?_, fun j hj M hM k hk => ?_⟩
  · rw [hmove.track_eq] at hrole ⊢
    exact h.asked j θ hrole
  rw [hmove.track_eq] at hk ⊢
  rw [manifest_congr (congrArg Replica.manifest hmove.replica)] at hM
  exact h.absent j (hj.of_move hmove) M hM k hk

theorem retired_initial (rep : Replica B) : (initial P rep).Retired P fun _ => none :=
  ⟨current_initial rep, nofun, fun _ hj => absurd hj.pass nofun⟩

/-! ### Versions of the manifest -/

/-- The manifest object `data` names `k`. -/
def Names (P : Setup B) (data : B) (k : FileKey) : Prop :=
  ∃ files ∈ (decodeManifest P.json data).toOption, HasKey files k

/-- Of the versions, the last one first, one that was stored at `t` or before does not name `k`, and
neither does any version after it. -/
def ReplacedBy (P : Setup B) (versions : List (ℤ × B)) (t : ℤ) (k : FileKey) : Prop :=
  ∃ since older, versions = since ++ older ∧ (∃ v ∈ since, v.1 ≤ t) ∧ ∀ v ∈ since, ¬ Names P v.2 k

theorem ReplacedBy.mono {versions : List (ℤ × B)} {t t' : ℤ} (h : ReplacedBy P versions t k)
    (ht : t ≤ t') : ReplacedBy P versions t' k := by
  obtain ⟨since, older, heq, ⟨v, hv, hle⟩, hnot⟩ := h
  exact ⟨since, older, heq, ⟨v, hv, hle.trans ht⟩, hnot⟩

/-- Every version that names the file, also one from before, was replaced by one that does not. -/
theorem ReplacedBy.exists_later {versions older : List (ℤ × B)} {t : ℤ}
    (h : ReplacedBy P versions t k) {newer rest : List (ℤ × B)} {v : ℤ × B}
    (heq : versions ++ older = newer ++ v :: rest) (hv : Names P v.2 k) :
    ∃ v' ∈ newer, v'.1 ≤ t ∧ ¬ Names P v'.2 k := by
  obtain ⟨since, older', rfl, ⟨u, hu, hle⟩, hnot⟩ := h
  rw [append_assoc] at heq
  rcases append_eq_append_iff.mp heq with ⟨l, rfl, -⟩ | ⟨l, rfl, hl⟩
  · exact ⟨u, mem_append_left l hu, hle, hnot u hu⟩
  cases l with
  | nil => exact ⟨u, by simpa using hu, hle, hnot u hu⟩
  | cons v' l =>
    obtain ⟨rfl, -⟩ := cons.inj hl
    exact absurd hv (hnot v (by simp))

theorem names_manifest {data : B} (hdata : w.storage.replica.manifest = some data)
    (h : Names P data k) : ∃ M, w.manifest P = some M ∧ HasKey M k := by
  obtain ⟨files, hfiles, hk⟩ := h
  exact ⟨files, by rw [manifest, hdata]; exact hfiles, hk⟩

/-! ### Deletions -/

/-- A pass deletes sources that it has not written itself, at the earliest when the retention is
over since it has stored its manifest, and no repair is stored in the meantime. -/
def Lingering (P : Setup B) (w : Cluster B) (i : ℕ) : (c : Op B) → Resp c → Cluster B → Prop
  | .manifestPut _, _, _ => w.Unrepaired i
  | .deleteLTXFiles .sources files, _, _ => (∀ f ∈ files, ¬ HasKey (w.track i).merged f.key) ∧
    ∀ T ∈ w.tasks i, (w.past.postedAt i).time + (P.nodes T.node).cfg.compaction.retention ≤ w.now
  | _, _, _ => True

instance (P : Setup B) (w : Cluster B) (i : ℕ) (c : Op B) (r : Resp c) (w' : Cluster B) :
    Decidable (w.Lingering P i c r w') := by
  unfold Lingering
  induction c using Op.casesOn with
  | deleteLTXFiles site => cases site <;> infer_instance
  | _ => infer_instance

/-- The invariant: since a pass has stored its manifest none has named its sources, and every
deletion was late enough. -/
structure Overdue (P : Setup B) (w : Cluster B) (g : ℕ → Option Bool) : Prop
    extends Retired P w g where
  replaced : ∀ j, w.Retiring j → ∀ k, HasKey (w.track j).sources k → ¬ HasKey (w.track j).merged k →
    ReplacedBy P w.past.versions (w.past.postedAt j).time k
  deletions : ∀ d ∈ w.past.deletions, d.site = .sources → ∃ T, w.tasks d.proc = some T ∧
    ∀ k, HasKey d.gone k →
      ReplacedBy P d.versions (d.time - (P.nodes T.node).cfg.compaction.retention) k

theorem Retired.replaced_put (hretired : w'.Retired P g) (hfacts : w'.Facts P)
    (hversions : w'.past.versions =
      (w'.storage.replica.manifest.map (w.now, ·)).toList ++ w.past.versions)
    (hposted : w'.past.postedAt = update w.past.postedAt i w.stamp) (hj : w'.Retiring j)
    (hk : HasKey (w'.track j).sources k) (hown : ¬ HasKey (w'.track j).merged k)
    (hother : j ≠ i → ReplacedBy P w.past.versions (w.past.postedAt j).time k) :
    ReplacedBy P w'.past.versions (w'.past.postedAt j).time k := by
  obtain ⟨data, hdata⟩ := Option.ne_none_iff_exists'.mp (hfacts.present j (.inr (.inr hj.stored)))
  have hnot : ¬ Names P data k := by
    intro hnamed
    obtain ⟨M, hM, hnamed⟩ := names_manifest hdata hnamed
    exact (hretired.absent j hj M hM k hk).2 hown hnamed
  rw [hversions, hdata, hposted]
  by_cases hji : j = i
  · subst hji
    rw [update_self]
    refine ⟨[(w.now, data)], w.past.versions, rfl, ⟨_, mem_singleton_self _, le_rfl⟩, ?_⟩
    rintro v hv
    rw [mem_singleton.mp hv]
    exact hnot
  · rw [update_of_ne hji]
    obtain ⟨since, older, heq, ⟨u, hu, hle⟩, hall⟩ := hother hji
    refine ⟨(w.now, data) :: since, older, by rw [heq]; rfl, ⟨u, mem_cons_of_mem _ hu, hle⟩, ?_⟩
    intro v hv
    rcases mem_cons.mp hv with rfl | hv
    · exact hnot
    · exact hall v hv

theorem Overdue.call (h : w.Overdue P g) (hbase : w.Base P) (hbase' : w'.Base P)
    (hallow : w.Permits P i c) (hlease : Runtime.leaseOnce.allow (g i) c)
    (hcall : w.Answers P i c r w') (hgood : w.Lingering P i c r w') :
    w'.Overdue P (leaseStep g i c) := by
  have hretired : w'.Retired P (leaseStep g i c) :=
    h.toRetired.call hbase hallow hlease hcall (by rintro data rfl; exact hgood)
  refine ⟨hretired, fun j hj k hk hown => ?_, fun d hd hsite => ?_⟩
  · obtain ⟨hsources, hmerged, hbefore⟩ := h.retiring_before hallow hlease hcall hj
    have hold : w.Retiring j → ReplacedBy P w.past.versions (w.past.postedAt j).time k := by
      intro hj'
      rw [hsources] at hk
      rw [hmerged] at hown
      exact h.replaced j hj' k hk hown
    rcases hcall.posted_cases with ⟨hput, hversions, hposted⟩ | ⟨-, hversions, hposted⟩
    · rw [hversions, hposted]
      rcases hbefore with hbefore | ⟨-, data, -, hc, -⟩
      · exact hold hbefore
      · exact absurd hc (hput data)
    · refine hretired.replaced_put hbase'.toFacts hversions hposted hj hk hown fun hji => ?_
      exact hold (hbefore.resolve_right fun hposts => hji hposts.1)
  · rw [hcall.tasks_eq]
    rcases hcall.deletions_cases hd with hd | ⟨site, files, rfl, rfl⟩
    · exact h.deletions d hd hsite
    obtain rfl : site = .sources := hsite
    obtain ⟨T, hT⟩ := hcall.task
    refine ⟨T, hT, fun k hk => ?_⟩
    obtain ⟨f, hf, rfl⟩ := hasKey_iff.mp hk
    obtain ⟨hf, hgone⟩ := mem_filter.mp hf
    obtain ⟨hlive, hfiles⟩ := hcall.deleted (hasKey_of_mem hf) (of_decide_eq_true hgone)
    obtain ⟨hpass, -, hstored, hrole, hsources⟩ := hallow
    obtain ⟨S, hS, hsub⟩ := hsources rfl
    have hsource : HasKey (w.track i).sources f.key := by
      rw [Track.sources, Track.planned, hS]
      exact hsub f.key hfiles
    obtain ⟨hforeign, hlate⟩ := hgood
    obtain ⟨f', hf', hkey⟩ := hasKey_iff.mp hfiles
    have hown : ¬ HasKey (w.track i).merged f.key := hkey ▸ hforeign f' hf'
    refine (h.replaced i ⟨hrole, hpass, hstored, hlive⟩ f.key hsource hown).mono ?_
    have := hlate T hT
    simp only
    omega

theorem Overdue.launch (h : w.Overdue P g) (hi : w.tasks i = none) (l : Launch) :
    (w.launch P i l).Overdue P (update g i l.leaseOnce) := by
  refine ⟨h.toRetired.launch l, fun j hj k hk hown => ?_, fun d hd hsite => ?_⟩
  · obtain ⟨heq, hbefore⟩ := hj.of_launch
    rw [heq] at hk hown
    exact h.replaced j hbefore k hk hown
  obtain ⟨T, hT, hlate⟩ := h.deletions d hd hsite
  refine ⟨T, ?_, hlate⟩
  rw [tasks_launch_of_ne ?_]
  · exact hT
  intro heq
  rw [heq, hi] at hT
  cases hT

theorem Overdue.move (h : w.Overdue P g) (hmove : w.Drifts P w') : w'.Overdue P g := by
  refine ⟨h.toRetired.move hmove, fun j hj k hk hown => ?_, fun d hd hsite => ?_⟩
  · rw [hmove.track_eq] at hk hown
    rw [hmove.past]
    exact h.replaced j (hj.of_move hmove) k hk hown
  rw [hmove.past] at hd
  rw [hmove.tasks]
  exact h.deletions d hd hsite

/-- **Merged sources survive for readers that planned on them.** In a timely setup and along every
run whose deletions linger, every version of the manifest that named a file was replaced by one that
does not name it at least the retention before a pass deletes the file. -/
theorem sources_outlive_plans (htimely : P.Timely) {rep : Replica B} (hrep : rep.Proper P.json)
    {a : Pool (Cluster B) ℕ (Op B) Resp Outcome}
    (h : ((clusterSystem P).restrict (Lingering P)).Reachable (initial P rep) a) {d : Deletion B}
    (hd : d ∈ a.world.past.deletions) (hsite : d.site = .sources) {k : FileKey}
    (hk : HasKey d.gone k) : ∃ T, a.world.tasks d.proc = some T ∧ ∀ newer v older,
      d.versions ++ (rep.manifest.map (0, ·)).toList = newer ++ v :: older → Names P v.2 k →
      ∃ v' ∈ newer, v'.1 ≤ d.time - (P.nodes T.node).cfg.compaction.retention ∧
        ¬ Names P v'.2 k := by
  have hinv := invariant_with Runtime.leaseOnce none Launch.leaseOnce Launch.obeys_leaseOnce
    htimely (I := fun w g => w.Overdue P g) hrep
    ⟨retired_initial rep, fun _ hj => absurd hj.pass nofun, nofun⟩
    (fun w g i l _ hI hi => hI.launch hi l)
    (fun w g i c r w' hbase hI hallow _ hlease hcall hgood hbase' =>
      ⟨_, rfl, hI.call hbase hbase' hallow hlease hcall hgood⟩)
    (fun w g w' _ hI hmove => hI.move hmove) h
  obtain ⟨-, g, hoverdue, -⟩ := hinv
  obtain ⟨T, hT, hlate⟩ := hoverdue.deletions d hd hsite
  exact ⟨T, hT, fun newer v older heq hv => (hlate k hk).exists_later heq hv⟩

end Cluster

/-! ### Particular runs -/

namespace Deleting

open Script Covering

/-- A pass that begins at `now`, up to its PUT. -/
def merging (now : ℤ) : Moves :=
  .start 2 (.compaction 0) ::
    calls 2 ([.ok, .ok, .wrote (now + 34 * second), .wrote now, .wrote (now + 30 * second)] ++
      oks 2)

/-- Two writes and, much later, a pass that deletes their files. -/
def hasty : Moves :=
  written ++ .env (.tick (700 * second)) :: merging (700 * second) ++ calls 2 (oks 3)

/-- Two writes and a pass that is slow to delete their files. -/
def slow : Moves :=
  written ++ merging 0 ++ .env (.tick (12 * second)) :: calls 2 (oks 3)

/-- What a deletion shows: the files, and the time and the files of every version. -/
structure View where
  proc : ℕ
  time : ℤ
  site : Site
  gone : List FileInfo
  versions : List (ℤ × Option (List FileInfo))
  deriving DecidableEq

/-- The files of a version. -/
def filesOf (v : ℤ × Option ManifestDocument) : ℤ × Option (List FileInfo) :=
  (v.1, (decodeManifest .plain v.2).toOption)

/-- The view of a pool. -/
def view (a : State) : List View :=
  a.world.past.deletions.map fun d => ⟨d.proc, d.time, d.site, d.gone, d.versions.map filesOf⟩

theorem hasty_exec :
    ((clusterInterpreter (retaining (600 * second))).exec
      (Cluster.initial (retaining (600 * second)) ⟨[], none⟩) hasty).map view =
      some [⟨2, 700 * second, .sources, [⟨0, 1, 1, 0, 0⟩, ⟨0, 2, 2, 0, 0⟩],
        [(700 * second, some [⟨1, 1, 2, 0, 700 * second⟩]),
          (0, some [⟨0, 1, 1, 0, 0⟩, ⟨0, 2, 2, 0, 0⟩]), (0, some [⟨0, 1, 1, 0, 0⟩])]⟩] := by
  decide +kernel

/-- The setup of the run in which deletions linger. -/
abbrev brief : Setup (Option ManifestDocument) := retaining (10 * second)

theorem slow_exec :
    (((clusterInterpreter brief).restrict (Cluster.Lingering brief)).exec
      (Cluster.initial brief ⟨[], none⟩) slow).map view =
      some [⟨2, 12 * second, .sources, [⟨0, 1, 1, 0, 0⟩, ⟨0, 2, 2, 0, 0⟩],
        [(0, some [⟨1, 1, 2, 0, 0⟩]),
          (0, some [⟨0, 1, 1, 0, 0⟩, ⟨0, 2, 2, 0, 0⟩]), (0, some [⟨0, 1, 1, 0, 0⟩])]⟩] := by
  decide +kernel

theorem exists_of_view {a : State} {v : View} (h : view a = [v]) :
    ∃ d ∈ a.world.past.deletions,
      (⟨d.proc, d.time, d.site, d.gone, d.versions.map filesOf⟩ : View) = v := by
  have hv : v ∈ view a := by
    rw [h]
    exact mem_singleton_self v
  exact mem_map.mp hv

end Deleting

open Deleting Covering in
/-- The manifest still named the files of two old writes when a pass stored its own and deleted
them, although they were to be kept for ten minutes. -/
theorem sources_deleted_at_once : ∃ (a : State) (d : Deletion (Option ManifestDocument))
    (newer older : List (ℤ × Option ManifestDocument)) (v : ℤ × Option ManifestDocument),
    (clusterSystem (retaining (600 * second))).Reachable
      (Cluster.initial (retaining (600 * second)) ⟨[], none⟩) a ∧
    d ∈ a.world.past.deletions ∧ d.site = .sources ∧ HasKey d.gone ⟨0, 2, 2⟩ ∧
    d.versions = newer ++ v :: older ∧ Cluster.Names (retaining (600 * second)) v.2 ⟨0, 2, 2⟩ ∧
    ∀ v' ∈ newer, d.time - 600 * second < v'.1 := by
  obtain ⟨a, ha, hview⟩ := Option.map_eq_some_iff.mp hasty_exec
  obtain ⟨d, hd, hd'⟩ := exists_of_view hview
  obtain ⟨v₁, vs, hversions, hv₁, hvs⟩ := map_eq_cons_iff.mp (congrArg View.versions hd')
  obtain ⟨v₂, vs', rfl, hv₂, -⟩ := map_eq_cons_iff.mp hvs
  have hgone : d.gone = _ := congrArg View.gone hd'
  have htime : d.time = _ := congrArg View.time hd'
  have htime₁ : (filesOf v₁).1 = _ := congrArg Prod.fst hv₁
  refine ⟨a, d, [v₁], vs', v₂, Interpreter.exec_reachable _ ha, hd, congrArg View.site hd', ?_,
    hversions, ⟨_, congrArg Prod.snd hv₂, by decide⟩, fun v' hv' => ?_⟩
  · rw [hgone]
    decide
  · rw [mem_singleton.mp hv', htime, show v₁.1 = _ from htime₁]
    decide

open Deleting Covering in
/-- A pass that deletes the files of two writes twelve seconds after it has stored its manifest,
where they are to be kept for ten. -/
theorem sources_outlive_plans_slow : ∃ (a : State) (d : Deletion (Option ManifestDocument))
    (T : Task), ((clusterSystem brief).restrict (Cluster.Lingering brief)).Reachable
      (Cluster.initial brief ⟨[], none⟩) a ∧
    d ∈ a.world.past.deletions ∧ d.site = .sources ∧ HasKey d.gone ⟨0, 2, 2⟩ ∧
    a.world.tasks d.proc = some T ∧ ∀ newer v older, d.versions ++ [] = newer ++ v :: older →
      Cluster.Names brief v.2 ⟨0, 2, 2⟩ → ∃ v' ∈ newer,
        v'.1 ≤ d.time - (brief.nodes T.node).cfg.compaction.retention ∧
        ¬ Cluster.Names brief v'.2 ⟨0, 2, 2⟩ := by
  obtain ⟨a, ha, hview⟩ := Option.map_eq_some_iff.mp slow_exec
  obtain ⟨d, hd, hd'⟩ := exists_of_view hview
  have hreach := Interpreter.exec_reachable _ ha
  have hsite : d.site = .sources := congrArg View.site hd'
  have hgone : d.gone = _ := congrArg View.gone hd'
  have hk : HasKey d.gone ⟨0, 2, 2⟩ := by
    rw [hgone]
    decide
  obtain ⟨T, hT, hlate⟩ :=
    Cluster.sources_outlive_plans retaining_timely proper_empty hreach hd hsite hk
  exact ⟨a, d, T, hreach, hd, hsite, hk, hT, hlate⟩

end Walrusd.Runtime
