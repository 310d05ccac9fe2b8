import Walrusd.Runtime.Retired

/-!
# The manifest names objects that exist

A reader that plans on the stored manifest opens the objects that it names. Writes and passes upload
an object before they store a manifest that names it, and a pass removes its sources from the
manifest before it deletes them; in between, the write lease keeps the manifest and the compaction
lease keeps the merged files. Three things go around this order: a repair that stores what was
listed some time ago, a pass that deletes an output of its own which its manifest names, and garbage
collection.

## Main definitions

* `Cluster.Sound` — the condition on the steps of a run.
* `Cluster.Present` — the invariant.

## Main results

* `Cluster.manifest_present`.
-/

namespace Walrusd.Runtime

open Program Litestream Option

namespace Cluster

variable {B : Type} {P : Setup B} {w w' : Cluster B} {i j : ℕ} {T : Task} {c : Op B} {r : Resp c}
  {g : ℕ → Option Bool}
variable {k : FileKey}

/-- A repair names objects that exist and is not stored while a pass may delete files, a pass does
not delete what it has written, and garbage collection spares the files of the manifest and of the
write in progress. -/
def Sound (P : Setup B) (w : Cluster B) (i : ℕ) : (c : Op B) → Resp c → Cluster B → Prop
  | .manifestPut _, _, _ => w.Unrepaired i ∧ ((w.track i).role = .write →
    (w.track i).levels = snapshotLevel + 1 →
      ∀ f ∈ (w.track i).listed, HasKey w.storage.replica.infos f.key)
  | .deleteLTXFiles site files, _, _ => ∀ f ∈ files, ¬ HasKey (w.track i).merged f.key ∧
    (site ≠ .sources → ¬ HasKey (w.index P) f.key ∧
      ∀ j ∈ w.writeLease.holder, ∀ n ∈ (w.track j).position, f.key ≠ Track.nextKey n)
  | _, _, _ => True

instance (P : Setup B) (w : Cluster B) (i : ℕ) (c : Op B) (r : Resp c) (w' : Cluster B) :
    Decidable (w.Sound P i c r w') := by
  unfold Sound
  induction c using Op.casesOn <;> infer_instance

/-- A write that may still store a manifest with the file it has uploaded at position `n`. -/
structure Uploaded (w : Cluster B) (i n : ℕ) : Prop where
  role : (w.track i).role = .write
  write : (w.track i).write = true
  live : w.Alive i
  session : ∃ s plan, (w.track i).session = some (s, some plan)
  flushed : (w.track i).flushed = true
  position : (w.track i).position = some n

/-- The invariant: the files of the manifest exist, and so do the files that a pass has merged and
the file of a write that may still store a manifest. -/
structure Present (P : Setup B) (w : Cluster B) (g : ℕ → Option Bool) : Prop
    extends Retired P w g where
  named : ∀ M, w.manifest P = some M → ∀ k, HasKey M k → HasKey w.storage.replica.infos k
  merged : ∀ i θ, (w.track i).role = .compaction θ → (w.track i).pass = true →
    w.Alive i → ∀ k, HasKey (w.track i).merged k → HasKey w.storage.replica.infos k
  uploaded : ∀ i n, w.Uploaded i n → HasKey w.storage.replica.infos (Track.nextKey n) ∧
    ∀ j, w.Retiring j → ¬ HasKey (w.track j).sources (Track.nextKey n)

/-! ### Deletions -/

/-- A file that a sound deletion names was not written by its pass, and it is a source of the pass
or neither in the manifest nor of the write in progress. -/
theorem Sound.delete_cases {site : Site} {files : List FileInfo}
    {r : Resp (.deleteLTXFiles site files : Op B)}
    (hgood : w.Sound P i (.deleteLTXFiles site files) r w')
    (hallow : (w.track i).Allows P.json (.deleteLTXFiles site files)) (hlive : w.Alive i)
    (hk : HasKey files k) :
    w.Retiring i ∧ ¬ HasKey (w.track i).merged k ∧ (HasKey (w.track i).sources k ∨
      ¬ HasKey (w.index P) k ∧ ∀ j ∈ w.writeLease.holder, ∀ n ∈ (w.track j).position,
        k ≠ Track.nextKey n) := by
  obtain ⟨hpass, -, hstored, hrole, hsources⟩ := hallow
  obtain ⟨f, hf, rfl⟩ := hasKey_iff.mp hk
  obtain ⟨hown, hgarbage⟩ := hgood f hf
  refine ⟨⟨hrole, hpass, hstored, hlive⟩, hown, ?_⟩
  by_cases hsite : site = .sources
  · obtain ⟨S, hS, hsub⟩ := hsources hsite
    refine .inl ?_
    rw [Track.sources, Track.planned, hS]
    exact hsub f.key hk
  · exact .inr (hgarbage hsite)

/-! ### Steps -/

theorem Present.posts (h : w.Present P g) (hbase : w.Base P) {data : B}
    {r : Resp (.manifestPut data)} (hgood : w.Sound P i (.manifestPut data) r w')
    {files : List FileInfo} (hposts : w.Posts P i files w') (hk : HasKey files k) :
    HasKey w.storage.replica.infos k := by
  obtain ⟨T, hT, hlive⟩ := hposts.live
  have hcurrent {base : List FileInfo} (hbase' : (w.track i).current = some (some base))
      (hk : HasKey base k) : HasKey w.storage.replica.infos k :=
    h.named base (h.current.of_live hbase.fenced hT hlive hposts.write hbase') k hk
  rcases hposts.source with ⟨hrole, hlevels, rfl, -⟩ | ⟨hrole, hflushed, s, plan, base, n, hsession,
    hbase', hplan, hn, -, -, hfiles⟩ | hmerged | ⟨-, -, -, rfl⟩
  · obtain ⟨f, hf, rfl⟩ := hasKey_iff.mp hk
    exact hgood.2 hrole hlevels f hf
  · rcases (hfiles k).mp hk with hk | rfl
    · exact hcurrent hbase' ((hplan k).mpr hk)
    · exact (h.uploaded i n
        ⟨hrole, hposts.write, ⟨T, hT, hlive⟩, ⟨s, plan, hsession⟩, hflushed, hn⟩).1
  · obtain ⟨base, hbase', rfl⟩ := hmerged.eq_delta
    obtain ⟨hpass, θ, -, -, -, hrole, -⟩ := hmerged
    rcases hasKey_applyManifestDelta.mp hk with ⟨hk, -⟩ | hk
    · exact hcurrent hbase' hk
    · exact h.merged i θ hrole hpass ⟨T, hT, hlive⟩ k hk
  · exact absurd hk not_hasKey_nil

theorem Present.call_named (h : w.Present P g) (hbase : w.Base P) (hallow : w.Permits P i c)
    (hcall : w.Answers P i c r w') (hgood : w.Sound P i c r w') {M : List FileInfo}
    (hM : w'.manifest P = some M) (hk : HasKey M k) : HasKey w'.storage.replica.infos k := by
  rcases hcall.manifest_cases hallow with hsame | ⟨data, files, rfl, hposts⟩
  · rw [manifest_congr hsame] at hM
    refine hcall.infos_kept (h.named M hM k hk) ?_
    rintro site files rfl hlive hfiles
    obtain ⟨hretiring, hown, hsource | hgarbage⟩ := hgood.delete_cases hallow hlive hfiles
    · exact (h.absent i hretiring M hM k hsource).2 hown hk
    · exact hgarbage.1 (by rwa [index_of_manifest hM])
  · obtain ⟨decoded, hdecoded, -, hkeys⟩ := hposts.stores
    cases hM.symm.trans hdecoded
    rw [Replica.infos, hposts.objects]
    exact h.posts hbase hgood hposts ((hkeys k).mp hk)

theorem Present.call_merged (h : w.Present P g) (hbase : w.Base P) (hallow : w.Permits P i c)
    (hlease : Runtime.leaseOnce.allow (g i) c) (hcall : w.Answers P i c r w')
    (hgood : w.Sound P i c r w') {θ : ℤ} (hrole : (w'.track j).role = .compaction θ)
    (hpass : (w'.track j).pass = true) (hlive : w'.Alive j) (hk : HasKey (w'.track j).merged k) :
    HasKey w'.storage.replica.infos k := by
  have hlive' := hcall.live_before hlive
  -- only the pass itself deletes files now
  have hkept (hpass : (w.track j).pass = true) (hk : HasKey (w.track j).merged k)
      (hinfos : HasKey w.storage.replica.infos k) : HasKey w'.storage.replica.infos k := by
    refine hcall.infos_kept hinfos ?_
    rintro site files rfl hdeleter hfiles
    obtain ⟨hretiring, hown, -⟩ := hgood.delete_cases hallow hdeleter hfiles
    obtain ⟨T, hT, hliveT⟩ := hlive'
    obtain ⟨T', hT', hliveT'⟩ := hdeleter
    obtain rfl : i = j := hbase.fenced.pass.unique hT' hretiring.pass hliveT' hT hpass hliveT
    exact hown hk
  rw [hcall.role_eq] at hrole
  rcases hcall.track_cases j with ⟨rfl, heq⟩ | ⟨-, heq⟩ <;> rw [heq] at hpass hk
  · obtain ⟨b, hb, hasked⟩ := h.asked j θ hrole
    by_cases hcompact : c.kind = .compact
    · cases c with
      | compact level files =>
        have hpass' : (w.track j).pass = true := hallow.1
        have hold (hk : HasKey (w.track j).merged k) : HasKey w'.storage.replica.infos k :=
          hkept hpass' hk (h.merged j θ hrole hpass' hlive' k hk)
        cases r with
        | error e => exact hold hk
        | ok info =>
          rcases hasKey_append.mp hk with hk | hk
          · exact hold hk
          obtain rfl : info.key = k := by simpa using hk
          obtain ⟨T, st, write, pass, -, -, ⟨-, rfl⟩, -, -, -, rfl⟩ := hcall
          rw [replica_after]
          exact Replica.hasKey_put.mpr (.inr rfl)
      | _ => cases hcompact
    · rw [((w.track j).step_frame P.json c r).merged hcompact] at hk
      have hne : (w.track j).merged ≠ [] := by
        intro hnil
        rw [hnil] at hk
        exact not_hasKey_nil hk
      have hpass' := Track.pass_before hpass (hlease (by rw [hb, hasked (.inr (.inr hne))]))
      exact hkept hpass' hk (h.merged j θ hrole hpass' hlive' k hk)
  · exact hkept hpass hk (h.merged j θ hrole hpass hlive' k hk)

/-- A write whose file is uploaded after a call had uploaded it before, or has just done so. -/
theorem Uploaded.before (hallow : w.Permits P i c) (hcall : w.Answers P i c r w') {n : ℕ}
    (h : w'.Uploaded j n) : w.Uploaded j n ∨
      j = i ∧ (w.track i).role = .write ∧ ∃ s, c = .setWriteDisabled s := by
  have hlive := hcall.live_before h.live
  obtain ⟨hrole, hwrite, -, ⟨s, plan, hsession⟩, hflushed, hn⟩ := h
  rw [hcall.role_eq] at hrole
  rcases hcall.track_cases j with ⟨rfl, heq⟩ | ⟨-, heq⟩ <;> rw [heq] at hwrite hsession hflushed hn
  · by_cases hflush : ∃ s, c = .setWriteDisabled s
    · exact .inr ⟨rfl, hrole, hflush⟩
    refine .inl ?_
    -- the calls that precede the flush
    have hbefore (hunflushed : (w.track j).flushed = false)
        (hsame : ((w.track j).step P.json c r).flushed = (w.track j).flushed) : False := by
      rw [hsame, hunflushed] at hflushed
      cases hflushed
    by_cases hpos : ∃ s, c = .pos s
    · obtain ⟨s', rfl⟩ := hpos
      exact (hbefore hallow.1.flushed (by cases r <;> rfl)).elim
    obtain ⟨hsteady, hposition⟩ := (w.track j).step_steady P.json c r
      (fun s hc => hpos ⟨s, hc⟩) fun s hc => hflush ⟨s, hc⟩
    have hacquire : ∀ id key, c ≠ .acquire id key := by
      rintro id key rfl
      exact hbefore hallow.flushed hsteady
    obtain ⟨T, st, write, pass, -, -, hanswers, -, -, -, -⟩ := hcall
    rcases session_step_cases hallow hanswers with hsame | ⟨plan', lapsed, rfl, -⟩
    · exact ⟨hrole, write_before hwrite hacquire, hlive, ⟨s, plan, hsame ▸ hsession⟩,
        hsteady ▸ hflushed, hposition ▸ hn⟩
    · exact (hbefore hallow.1.flushed hsteady).elim
  · exact .inl ⟨hrole, hwrite, hlive, ⟨s, plan, hsession⟩, hflushed, hn⟩

/-- The file that a write uploads starts after everything that the manifest names. -/
theorem Present.flush (h : w.Present P g) (hbase : w.Base P) {s : Sess}
    {r : Resp (.setWriteDisabled s : Op B)}
    (hallow : (w.track i).Allows P.json (.setWriteDisabled s))
    (hcall : w.Answers P i (.setWriteDisabled s) r w') {n : ℕ} (hi : w'.Uploaded i n) :
    HasKey w'.storage.replica.infos (Track.nextKey n) ∧
      ∀ j, w.Retiring j → ¬ HasKey (w.track j).sources (Track.nextKey n) := by
  obtain ⟨T, hT, hlive⟩ := hcall.live_before hi.live
  obtain ⟨-, -, -, ⟨s', plan, hsession⟩, hflushed, hn⟩ := hi
  rw [hcall.track_self] at hsession hflushed hn
  obtain ⟨hunflushed, manifest, n', hrun⟩ := hallow
  cases r with
  | some e =>
    rw [show (w.track i).flushed = true from hflushed] at hunflushed
    cases hunflushed
  | none =>
    obtain rfl : n' = n := some.inj (hrun.position.symm.trans hn)
    obtain ⟨rfl, hjoin⟩ := Prod.mk.inj (some.inj (hrun.session.symm.trans hsession))
    refine ⟨?_, fun j hj hsource => ?_⟩
    · obtain ⟨T', st, write, pass, -, -, ⟨ses, info, hses, -, hland, rfl⟩, -, -, -, rfl⟩ := hcall
      have hof := (hbase.sessions i s manifest.join hrun.session).2 ses hses
      have hkey : info.key = Track.nextKey n' := by
        rw [hland.2, ← hof.position hunflushed n' hrun.position]
        rfl
      rw [replica_after]
      exact Replica.hasKey_put.mpr (.inr hkey)
    · rcases manifest with _ | _ | plan'
      · cases hjoin
      · cases hjoin
      obtain ⟨-, base, hcurrent, hkeys⟩ := hrun.knows
      have hmanifest := h.current.of_live hbase.fenced hT hlive hrun.write hcurrent
      have hmax : n' + 1 ≤ manifestMaxTXID base := (h.absent j hj base hmanifest _ hsource).1
      have hle : manifestMaxTXID base ≤ manifestMaxTXID plan' :=
        manifestMaxTXID_mono fun k => (hkeys k).mp
      have := hrun.max plan' rfl
      omega

section

variable (h : w.Present P g) (hbase : w.Base P) (hallow : w.Permits P i c)
  (hlease : Runtime.leaseOnce.allow (g i) c) (hcall : w.Answers P i c r w')
  (hgood : w.Sound P i c r w')
include h hbase hallow hlease hcall hgood

theorem Present.call_uploaded {n : ℕ} (hj : w'.Uploaded j n) :
    HasKey w'.storage.replica.infos (Track.nextKey n) ∧
      ∀ j', w'.Retiring j' → ¬ HasKey (w'.track j').sources (Track.nextKey n) := by
  obtain ⟨T, hT, hlive⟩ := hcall.live_before hj.live
  rcases hj.before hallow hcall with hold | ⟨rfl, hrole, s, rfl⟩
  · obtain ⟨hinfos, hforeign⟩ := h.uploaded j n hold
    have hholder := hbase.fenced.write.holder j T hT hold.write hlive
    refine ⟨hcall.infos_kept hinfos ?_, fun j' hj' hsource => ?_⟩
    · rintro site files rfl hdeleter hfiles
      obtain ⟨hretiring, -, hsource | hgarbage⟩ := hgood.delete_cases hallow hdeleter hfiles
      · exact hforeign i hretiring hsource
      · exact hgarbage.2 j hholder n hold.position rfl
    · obtain ⟨hsources, -, hbefore⟩ := h.retiring_before hallow hlease hcall hj'
      rw [hsources] at hsource
      rcases hbefore with hbefore | ⟨rfl, data, files, rfl, hposts⟩
      · exact hforeign j' hbefore hsource
      · -- a pass does not store its manifest while the write holds the lease
        obtain rfl := some.inj (hholder.symm.trans (hbase.fenced.holder_of_posts hposts))
        obtain ⟨θ, hrole⟩ := hj'.role
        exact absurd (hj.role.symm.trans hrole) (by simp)
  · obtain ⟨hinfos, hforeign⟩ := h.flush hbase hallow hcall hj
    refine ⟨hinfos, fun j' hj' hsource => ?_⟩
    obtain ⟨hsources, -, hbefore⟩ := h.retiring_before hallow hlease hcall hj'
    rw [hsources] at hsource
    rcases hbefore with hbefore | ⟨-, data, files, hc, -⟩
    · exact hforeign j' hbefore hsource
    · cases hc

theorem Present.call :
    w'.Present P (leaseStep g i c) where
  toRetired := h.toRetired.call hbase hallow hlease hcall (by rintro data rfl; exact hgood.1)
  named _ hM _ hk := h.call_named hbase hallow hcall hgood hM hk
  merged _ _ hrole hpass hlive _ hk :=
    h.call_merged hbase hallow hlease hcall hgood hrole hpass hlive hk
  uploaded _ _ hj := h.call_uploaded hbase hallow hlease hcall hgood hj

end

theorem Present.launch (h : w.Present P g) (l : Launch) :
    (w.launch P i l).Present P (Function.update g i l.leaseOnce) := by
  have htrack := track_launch_cases (P := P) (w := w) (i := i) l
  refine ⟨h.toRetired.launch l, h.named, fun j θ hrole hpass hlive k hk => ?_, fun j n hj => ?_⟩
  · rcases htrack j with ⟨-, heq⟩ | ⟨hne, heq⟩ <;> rw [heq] at hrole hpass hk
    · cases hpass
    · exact h.merged j θ hrole hpass (live_before_launch hne hlive) k hk
  obtain ⟨hrole, hwrite, hlive, hsession, hflushed, hn⟩ := hj
  rcases htrack j with ⟨-, heq⟩ | ⟨hne, heq⟩ <;> rw [heq] at hrole hwrite hsession hflushed hn
  · cases hflushed
  obtain ⟨hinfos, hforeign⟩ := h.uploaded j n
    ⟨hrole, hwrite, live_before_launch hne hlive, hsession, hflushed, hn⟩
  refine ⟨hinfos, fun j' hj' => ?_⟩
  obtain ⟨heq', hbefore⟩ := hj'.of_launch
  rw [heq']
  exact hforeign j' hbefore

theorem Present.move (h : w.Present P g) (hmove : w.Drifts P w') : w'.Present P g := by
  refine ⟨h.toRetired.move hmove, fun M hM => ?_, fun j θ hrole hpass hlive k hk => ?_,
    fun j n hj => ?_⟩
  · rw [hmove.replica]
    rw [manifest_congr (congrArg Replica.manifest hmove.replica)] at hM
    exact h.named M hM
  · rw [hmove.track_eq] at hrole hpass hk
    rw [hmove.replica]
    exact h.merged j θ hrole hpass (hmove.live_before hlive) k hk
  obtain ⟨hrole, hwrite, hlive, hsession, hflushed, hn⟩ := hj
  rw [hmove.track_eq] at hrole hwrite hsession hflushed hn
  obtain ⟨hinfos, hforeign⟩ := h.uploaded j n
    ⟨hrole, hwrite, hmove.live_before hlive, hsession, hflushed, hn⟩
  rw [hmove.replica]
  refine ⟨hinfos, fun j' hj' => ?_⟩
  rw [hmove.track_eq]
  exact hforeign j' (hj'.of_move hmove)

/-- **The stored manifest names objects that exist**, in a timely setup, along every sound run from
a replica of which it is true. -/
theorem manifest_present (htimely : P.Timely) {rep : Replica B} (hrep : rep.Proper P.json)
    (h₀ : ∀ M, (initial P rep).manifest P = some M → ∀ k, HasKey M k → HasKey rep.infos k)
    {a : Pool (Cluster B) ℕ (Op B) Resp Outcome}
    (h : ((clusterSystem P).restrict (Sound P)).Reachable (initial P rep) a) {M : List FileInfo}
    (hM : a.world.manifest P = some M) {k : FileKey} (hk : HasKey M k) :
    HasKey a.world.storage.replica.infos k := by
  have hinv := invariant_with Runtime.leaseOnce none Launch.leaseOnce Launch.obeys_leaseOnce
    htimely (I := fun w g => w.Present P g) hrep
    ⟨retired_initial rep, h₀, nofun, fun _ _ hj => absurd hj.flushed nofun⟩
    (fun w g i l _ hI hi => hI.launch l)
    (fun w g i c r w' hbase hI hallow _ hlease hcall hgood _ =>
      ⟨_, rfl, hI.call hbase hallow hlease hcall hgood⟩)
    (fun w g w' _ hI hmove => hI.move hmove) h
  obtain ⟨-, g, hpresent, -⟩ := hinv
  exact hpresent.named M hM k hk

end Cluster

/-! ### Particular runs -/

namespace Missing

open Script Covering

/-- Two writes and a pass that merges and deletes their files. -/
def merged : Moves := written ++ Deleting.merging 0 ++ calls 2 (oks 3)

/-- Two further writes, and a pass that merges two levels and deletes what it has merged. -/
def cascaded : Moves :=
  merged ++ calls 2 [.wrote 1, .ok] ++ .start 3 (.write 0 "c") :: calls 3 (write (30 * second) 0) ++
    .start 4 (.write 0 "d") :: calls 4 (write (30 * second) 0) ++
    .start 5 (.compaction 0) ::
      calls 5 ([.ok, .ok, .wrote (34 * second), .wrote 0, .wrote 0, .wrote (30 * second)] ++ oks 5)

/-- The manifest and the objects. -/
structure View where
  manifest : Option (List FileInfo)
  objects : List FileInfo
  deriving DecidableEq

/-- The view of a pool. -/
def view (a : State) : View :=
  ⟨a.world.manifest (retaining 0), a.world.storage.replica.infos⟩

theorem merged_exec :
    (((clusterInterpreter (retaining 0)).restrict (Cluster.Sound (retaining 0))).exec
      (Cluster.initial (retaining 0) ⟨[], none⟩) merged).map view =
      some ⟨some [⟨1, 1, 2, 0, 0⟩], [⟨1, 1, 2, 0, 0⟩]⟩ := by
  decide +kernel

theorem cascaded_exec :
    ((clusterInterpreter (retaining 0)).exec
      (Cluster.initial (retaining 0) ⟨[], none⟩) cascaded).map view =
      some ⟨some [⟨1, 3, 4, 0, 0⟩, ⟨2, 1, 4, 0, 0⟩], [⟨2, 1, 4, 0, 0⟩]⟩ := by
  decide +kernel

end Missing

open Missing Covering in
/-- A pass that merges two levels deletes the file that it has written in between, although its
manifest names it. -/
theorem manifest_names_missing : ∃ (a : State) (M : List FileInfo),
    (clusterSystem (retaining 0)).Reachable (Cluster.initial (retaining 0) ⟨[], none⟩) a ∧
    a.world.manifest (retaining 0) = some M ∧ HasKey M ⟨1, 3, 4⟩ ∧
    ¬ HasKey a.world.storage.replica.infos ⟨1, 3, 4⟩ := by
  obtain ⟨a, ha, hview⟩ := map_eq_some_iff.mp cascaded_exec
  have hobjects : a.world.storage.replica.infos = _ := congrArg View.objects hview
  refine ⟨a, _, Interpreter.exec_reachable _ ha, congrArg Missing.View.manifest hview, by decide,
    ?_⟩
  rw [hobjects]
  decide

open Missing Covering in
/-- A pass that merges one level deletes its sources, and the merged file stays. -/
theorem manifest_present_merged : ∃ (a : State) (M : List FileInfo),
    ((clusterSystem (retaining 0)).restrict (Cluster.Sound (retaining 0))).Reachable
      (Cluster.initial (retaining 0) ⟨[], none⟩) a ∧
    a.world.manifest (retaining 0) = some M ∧ HasKey M ⟨1, 1, 2⟩ ∧
    ¬ HasKey a.world.storage.replica.infos ⟨0, 2, 2⟩ ∧
    HasKey a.world.storage.replica.infos ⟨1, 1, 2⟩ := by
  obtain ⟨a, ha, hview⟩ := map_eq_some_iff.mp merged_exec
  have hreach := Interpreter.exec_reachable _ ha
  have hM : a.world.manifest (retaining 0) = _ := congrArg Missing.View.manifest hview
  have hobjects : a.world.storage.replica.infos = _ := congrArg View.objects hview
  refine ⟨a, _, hreach, hM, by decide, ?_,
    Cluster.manifest_present retaining_timely proper_empty (by rintro M ⟨⟩) hreach hM (by decide)⟩
  rw [hobjects]
  decide

end Walrusd.Runtime
