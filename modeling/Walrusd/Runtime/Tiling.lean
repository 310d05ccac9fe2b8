import Walrusd.Runtime.Coverage

/-!
# The ranges of the files of a manifest

A database starts empty, a commit adds the next TXID, and a merge puts one file in the place of
several. In every stored manifest the files of one level should have disjoint ranges, and all ranges
together should be the TXIDs from 1 to the highest one.

A pass reads its snapshot before it acquires the compaction lease, and applies its merge to the
manifest that it finds later. Two passes can thus merge the same files into one level. The ranges
are as they should be if every file above level 0 that a pass finds was in its snapshot
(`Cluster.Abreast`).

## Main definitions

* `Tiles`.
* `Cluster.Abreast` — the condition on the steps of a run.

## Main results

* `Tiles.next`, `Tiles.merge` — a commit and a merge keep the ranges as they should be.
* `Cluster.manifest_tiles`, `Cluster.manifest_decodes`.
-/

namespace Walrusd.Runtime

open Program Litestream Option

/-! ### Tilings -/

/-- The files of one level have disjoint ranges, and the list covers all TXIDs up to its highest. -/
structure Tiles (files : List FileInfo) : Prop where
  valid : AllValid files
  disjoint : ∀ k k', HasKey files k → HasKey files k' → k.level = k'.level → k ≠ k' →
    k.maxTXID < k'.minTXID ∨ k'.maxTXID < k.minTXID
  covers : ∀ t, 0 < t → t ≤ manifestMaxTXID files → Covers files t

variable {files files' : List FileInfo}

theorem tiles_nil : Tiles [] where
  valid _ hk := absurd hk not_hasKey_nil
  disjoint _ _ hk := absurd hk not_hasKey_nil
  covers _ ht hle := absurd ht (Nat.not_lt_of_le hle)

theorem Tiles.congr (h : Tiles files) (hkeys : ∀ k, HasKey files' k ↔ HasKey files k) :
    Tiles files' where
  valid k hk := h.valid k ((hkeys k).mp hk)
  disjoint k k' hk hk' := h.disjoint k k' ((hkeys k).mp hk) ((hkeys k').mp hk')
  covers t ht hle := (h.covers t ht (hle.trans (manifestMaxTXID_mono fun k => (hkeys k).mp))).mono
      fun k => (hkeys k).mpr

/-- A commit adds the next TXID. -/
theorem Tiles.next (h : Tiles files)
    (hkeys : ∀ k, HasKey files' k ↔ HasKey files k ∨ k = Track.nextKey (manifestMaxTXID files)) :
    Tiles files' where
  valid k hk := by
    rcases (hkeys k).mp hk with hk | rfl
    · exact h.valid k hk
    · exact ⟨Nat.zero_le _, Nat.succ_pos _, le_rfl⟩
  disjoint k k' hk hk' hlevel hne := by
    rcases (hkeys k).mp hk with hk | rfl <;> rcases (hkeys k').mp hk' with hk' | rfl
    · exact h.disjoint k k' hk hk' hlevel hne
    · exact .inl (Nat.lt_succ_of_le (le_manifestMaxTXID hk))
    · exact .inr (Nat.lt_succ_of_le (le_manifestMaxTXID hk'))
    · exact absurd rfl hne
  covers t ht hle := by
    have hmax : manifestMaxTXID files' ≤ manifestMaxTXID files + 1 := by
      refine manifestMaxTXID_le_iff.mpr fun k hk => ?_
      rcases (hkeys k).mp hk with hk | rfl
      · exact (le_manifestMaxTXID hk).trans (Nat.le_succ _)
      · exact le_rfl
    rcases Nat.le_succ_iff.mp (hle.trans hmax) with hle | rfl
    · exact (h.covers t ht hle).mono fun k hk => (hkeys k).mpr (.inl hk)
    · exact ⟨_, (hkeys _).mpr (.inr rfl), le_rfl, le_rfl⟩

section Merge

variable {T : ℤ} {S base client merged : List FileInfo} {level : ℕ} {k : FileKey}

/-- A merge reaches no further than what it was planned on. -/
theorem Merging.client_le (h : Merging T S level client merged) :
    manifestMaxTXID client ≤ manifestMaxTXID S := by
  induction h with
  | start => exact le_rfl
  | skip _ _ ih => exact ih
  | merge _ _ _ hinfo ih =>
    refine (manifestMaxTXID_le_iff.mpr fun k hk => ?_).trans ih
    rcases hasKey_applyManifestDelta.mp hk with ⟨hk, -⟩ | hk
    · exact le_manifestMaxTXID hk
    obtain ⟨f, hf, rfl⟩ := hasKey_iff.mp hk
    rw [List.mem_singleton.mp hf, hinfo]
    exact manifestMaxTXID_mono fun k hk => (hasKey_mergeSources.mp hk).1

/-- **A merge keeps the ranges as they should be**, if it was planned on files that are all still
there, and on all files above level 0. -/
theorem Tiles.merge (h : Tiles base) (hmerging : Merging T S compactionTopLevel client merged)
    (hvalid : AllValid S) (hfronted : Fronted S) (hthere : ∀ k, HasKey S k → HasKey base k)
    (habove : ∀ f ∈ base, f.level = 0 ∨ HasKey S f.key) :
    Tiles (applyManifestDelta base merged (supersede S [] merged).2) where
  valid k hk := by
    rcases hasKey_applyManifestDelta.mp hk with ⟨hk, -⟩ | hk
    · exact h.valid k hk
    · exact (hmerging.valid hvalid (by decide)).2 k hk
  disjoint k k' hk hk' hlevel hne := by
    -- the file that is merged into a level starts after the files of the level
    have hafter : ∀ k k', HasKey base k → HasKey merged k' → k.level = k'.level →
        k.maxTXID < k'.minTXID := by
      intro k k' hk hk' hlevel
      obtain ⟨f, hf, rfl⟩ := hasKey_iff.mp hk
      obtain ⟨info, hinfo, rfl⟩ := hasKey_iff.mp hk'
      obtain ⟨-, _, _, hfrom, -⟩ := hmerging.mergedFrom hinfo
      have hS := (habove f hf).resolve_left fun hzero => hfrom.level.ne (hzero.symm.trans hlevel)
      exact hfrom.starts_after hS hlevel
    rcases hasKey_applyManifestDelta.mp hk with ⟨hk, -⟩ | hk <;>
      rcases hasKey_applyManifestDelta.mp hk' with ⟨hk', -⟩ | hk'
    · exact h.disjoint k k' hk hk' hlevel hne
    · exact .inl (hafter k k' hk hk' hlevel)
    · exact .inr (hafter k' k hk' hk hlevel.symm)
    · obtain ⟨f, hf, rfl⟩ := hasKey_iff.mp hk
      obtain ⟨g, hg, rfl⟩ := hasKey_iff.mp hk'
      exact absurd (congrArg _ (eq_of_ascending hmerging.ascending hf hg hlevel)) hne
  covers t ht hle := by
    refine hmerging.covers_delta hvalid hfronted hthere (h.covers t ht (hle.trans ?_))
    refine manifestMaxTXID_le_iff.mpr fun k hk => ?_
    rcases hasKey_applyManifestDelta.mp hk with ⟨hk, -⟩ | hk
    · exact le_manifestMaxTXID hk
    have hclient := (hmerging.keys.1 k).mpr (.inr hk)
    exact (le_manifestMaxTXID hclient).trans
      (hmerging.client_le.trans (manifestMaxTXID_mono hthere))

end Merge

namespace Cluster

variable {B : Type} {P : Setup B} {w w' : Cluster B} {i : ℕ} {c : Op B} {r : Resp c}

/-- A listing is stored only while there is no manifest, and names the objects. A merge was planned
on a fronted snapshot; its files are all in the manifest, and so are only files of level 0 that it
does not have. A write opens its session on a listing only while there is no manifest, and nothing
is uploaded then until it commits. -/
def Abreast (P : Setup B) (w : Cluster B) (i : ℕ) : (c : Op B) → Resp c → Cluster B → Prop
  | .manifestPut _, _, _ => (w.track i).Complete (w.index P) ∧
    ((w.track i).role = .write → (w.track i).levels = snapshotLevel + 1 →
      w.manifest P = none ∧ ∀ f ∈ (w.track i).listed, HasKey w.storage.replica.infos f.key) ∧
    ((w.track i).role ≠ .write → ∀ f ∈ w.index P, f.level = 0 ∨ HasKey (w.track i).planned f.key)
  | .openWrite none, _, _ => w.manifest P = none
  | .commit s, _, _ | .setWriteDisabled s, _, _ => w.manifest P = none →
    ∀ ses ∈ w.storage.sessions s, ses.pos = manifestMaxTXID w.storage.replica.infos
  | _, _, _ => True

instance (P : Setup B) (w : Cluster B) (i : ℕ) (c : Op B) (r : Resp c) (w' : Cluster B) :
    Decidable (w.Abreast P i c r w') := by
  unfold Abreast
  induction c using Op.casesOn with
  | openWrite plan => match plan with | none | some _ => infer_instance
  | _ => infer_instance

theorem Abreast.careful (h : w.Abreast P i c r w') : w.Careful P i c r w' := by
  cases c with
  | manifestPut => exact h.1
  | openWrite files =>
    cases files with
    | none => exact h
    | some => trivial
  | _ => trivial

/-- A manifest that is stored tiles. -/
theorem tiles_posts (h : Tiles (w.index P)) (hcovered : w.Covered P) (hbase : w.Base P)
    {files : List FileInfo} (hposts : w.Posts P i files w') {data : B}
    {r : Resp (.manifestPut data : Op B)} (hgood : w.Abreast P i (.manifestPut data) r w') :
    Tiles files := by
  obtain ⟨hcomplete, hlisting, hmerge⟩ := hgood
  have hcurrent : ∀ {base}, (w.track i).current = some (some base) → w.index P = base :=
    fun hknown => index_of_manifest
      (hcovered.current i _ (hbase.fenced.holder_of_posts hposts) hposts.write hknown)
  rcases hposts.source with ⟨hrole, hlevels, rfl, -⟩ | ⟨-, -, s, plan, base, n, -, hknown, hplan, -,
    rfl, -, hfiles⟩ | ⟨-, T, S, base, client, hrole, hS, hknown, hvalid, -, hmerging, rfl⟩ |
    ⟨-, -, hlapsed, -⟩
  · obtain ⟨hnone, hlisted⟩ := hlisting hrole hlevels
    refine h.congr fun k => ⟨fun hk => ?_, fun hk => ?_⟩
    · obtain ⟨f, hf, rfl⟩ := hasKey_iff.mp hk
      rw [index_of_none hnone]
      exact hlisted f hf
    · obtain ⟨f, hf, rfl⟩ := hasKey_iff.mp hk
      exact hcomplete.1 hrole hlevels f hf
  · rw [hcurrent hknown] at h
    exact (h.congr fun k => (hplan k).symm).next hfiles
  · have hpass : (w.track i).role ≠ .write := by simp [hrole]
    have hplanned : (w.track i).planned = S := by
      rw [Track.planned, hS]
      rfl
    obtain ⟨hfronted, hthere⟩ := hcomplete.2 hpass
    have habove := hmerge hpass
    rw [hplanned] at hfronted hthere habove
    rw [hcurrent hknown] at h hthere habove
    refine h.merge hmerging hvalid hfronted (fun k hk => ?_) habove
    obtain ⟨f, hf, rfl⟩ := hasKey_iff.mp hk
    exact hthere f hf
  · rw [hcovered.lapsed i] at hlapsed
    cases hlapsed

/-- **The index tiles after a call.** -/
theorem tiles_call (h : Tiles (w.index P)) (hcovered : w.Covered P) (hbase : w.Base P)
    (hallow : w.Permits P i c) (hcall : w.Answers P i c r w') (hgood : w.Abreast P i c r w') :
    Tiles (w'.index P) := by
  rcases hcall.manifest_cases hallow with hsame | ⟨data, files, rfl, hposts⟩
  · cases hm : w.manifest P with
    | some files =>
      rw [index_of_manifest ((manifest_congr hsame).trans hm)]
      rwa [index_of_manifest hm] at h
    | none =>
      -- without a manifest no pass has seen one, so that only transactions are uploaded
      have hunseen : ¬ (w.track i).SawManifest := by
        intro hsaw
        obtain ⟨files, hfiles⟩ := hbase.manifest_ne_none (hbase.present i hsaw)
        rw [hm] at hfiles
        cases hfiles
      rw [index_of_none ((manifest_congr hsame).trans hm)]
      rw [index_of_none hm] at h
      obtain ⟨T, st, write, pass, -, -, hanswers, -, -, -, rfl⟩ := hcall
      rw [replica_after]
      rcases hanswers.replica_cases with heq | ⟨data, -, heq⟩ | ⟨site, files, gone, rfl, -, -⟩ |
        ⟨level, files, info, rfl, -, -⟩ | ⟨s, ses, info, hc, hses, hland, heq⟩
      · rwa [heq]
      · rwa [heq]
      · exact absurd (.inr (.inr hallow.2.2.1)) hunseen
      · obtain ⟨-, -, -, S, -, hS, -⟩ := hallow
        exact absurd (.inl ⟨S, hS⟩) hunseen
      · have hpos : ses.pos = manifestMaxTXID w.storage.replica.infos := by
          rcases hc with rfl | rfl <;> exact hgood hm ses hses
        refine h.next fun k => ?_
        rw [heq, Replica.hasKey_put, hland.2, ← hpos, eq_comm]
        rfl
  · exact (tiles_posts h hcovered hbase hposts hgood).congr fun k => hposts.hasKey_index

/-- **The files of one level have disjoint ranges, and the ranges are the TXIDs up to the highest**,
in every manifest stored along a run from an empty database, in a timely setup and if the steps are
abreast. -/
theorem manifest_tiles (htimely : P.Timely) {a : Pool (Cluster B) ℕ (Op B) Resp Outcome}
    (h : ((clusterSystem P).restrict (Abreast P)).Reachable (initial P ⟨[], none⟩) a)
    {files : List FileInfo} (hfiles : a.world.manifest P = some files) :
    files.Pairwise (fun f g => f.level = g.level → f.maxTXID < g.minTXID ∨ g.maxTXID < f.minTXID) ∧
    ∀ t, Covers files t ↔ 1 ≤ t ∧ t ≤ manifestMaxTXID files := by
  have hrep : (⟨[], none⟩ : Replica B).Proper P.json := ⟨nofun, nofun⟩
  have hinv := Cluster.invariant htimely hrep (I := fun w => w.Covered P ∧ Tiles (w.index P))
    ⟨⟨current_initial _, fun _ => rfl, nofun, nofun, nofun, nofun⟩, tiles_nil⟩
    (fun w i l _ hI _ => ⟨hI.1.launch l, hI.2⟩) ?_ ?_ h
  · obtain ⟨-, ⟨-, htiles⟩, -⟩ := hinv
    rw [index_of_manifest hfiles] at htiles
    obtain ⟨data, hdecode⟩ := decodeManifest_of_manifest hfiles
    have hnodup := (decodeManifest_valid P.json hdecode).2
    refine ⟨?_, fun t => ⟨?_, fun ht => htiles.covers t ht.1 ht.2⟩⟩
    · refine (List.pairwise_map.mp hnodup).imp_of_mem fun hf hg hne hlevel => ?_
      exact htiles.disjoint _ _ (hasKey_of_mem hf) (hasKey_of_mem hg) hlevel hne
    · rintro ⟨k, hk, hmin, hmax⟩
      exact ⟨(htiles.valid k hk).2.1.trans_le hmin, hmax.trans (le_manifestMaxTXID hk)⟩
  · rintro w i c r w' hbase ⟨hcovered, htiles⟩ hallow - hcall hgood -
    exact ⟨hcovered.call hbase hallow hcall hgood.careful,
      tiles_call htiles hcovered hbase hallow hcall hgood⟩
  · rintro w w' - ⟨hcovered, htiles⟩ hmove
    refine ⟨hcovered.move hmove, ?_⟩
    rwa [index_congr hmove.replica]

end Cluster

namespace Covering

open Script

/-- Two writes, a snapshot of them, another write, and a snapshot of all three. The passes then run
one after the other. -/
def overlapping : Moves :=
  written ++ .start 2 (.compaction 0) :: calls 2 (oks 2) ++ .start 3 (.write 0 "c") ::
    calls 3 (write (30 * second) 0) ++ .start 4 (.compaction 1) :: calls 4 (oks 2) ++
    calls 2 ([.wrote (34 * second), .wrote 0, .wrote (30 * second)] ++ oks 4 ++ [.wrote 1, .ok]) ++
    calls 4 [.wrote (34 * second), .wrote 0, .wrote (30 * second), .ok, .ok]

theorem settled_abreast :
    (((clusterInterpreter (setup (30 * second))).restrict
      (Cluster.Abreast (setup (30 * second)))).exec
      (Cluster.initial (setup (30 * second)) ⟨[], none⟩) settled).map (view (30 * second)) =
      some ⟨some (some "0000000000000003"), some [⟨0, 3, 3, 0, 0⟩, ⟨1, 1, 2, 0, 0⟩]⟩ := by
  decide +kernel

theorem overlapping_exec :
    ((clusterInterpreter (setup (30 * second))).exec
      (Cluster.initial (setup (30 * second)) ⟨[], none⟩) overlapping).map (view (30 * second)) =
      some ⟨some (some "0000000000000003"), some [⟨1, 1, 2, 0, 0⟩, ⟨1, 1, 3, 0, 0⟩]⟩ := by
  decide +kernel

end Covering

open Covering in
/-- Three writes and a pass in between: the file of the merge and the file of the last write are
next to each other. -/
theorem manifest_tiles_settled : ∃ a : State,
    ((clusterSystem (setup (30 * second))).restrict
      (Cluster.Abreast (setup (30 * second)))).Reachable
      (Cluster.initial (setup (30 * second)) ⟨[], none⟩) a ∧
    a.world.manifest (setup (30 * second)) = some [⟨0, 3, 3, 0, 0⟩, ⟨1, 1, 2, 0, 0⟩] ∧
    ∀ t, Covers [⟨0, 3, 3, 0, 0⟩, ⟨1, 1, 2, 0, 0⟩] t ↔ 1 ≤ t ∧ t ≤ 3 := by
  obtain ⟨a, ha, hview⟩ := map_eq_some_iff.mp settled_abreast
  have hreach := Interpreter.exec_reachable _ ha
  have hmanifest := congrArg View.manifest hview
  exact ⟨a, hreach, hmanifest, (Cluster.manifest_tiles timely hreach hmanifest).2⟩

open Covering in
/-- Two passes whose snapshots overlap leave two files of level 1 that both hold the first TXID. -/
theorem manifest_ranges_overlap : (setup (30 * second)).Timely ∧ ∃ a : State,
    (clusterSystem (setup (30 * second))).Reachable
      (Cluster.initial (setup (30 * second)) ⟨[], none⟩) a ∧
    a.world.manifest (setup (30 * second)) = some [⟨1, 1, 2, 0, 0⟩, ⟨1, 1, 3, 0, 0⟩] := by
  obtain ⟨a, ha, hview⟩ := map_eq_some_iff.mp overlapping_exec
  exact ⟨timely, a, Interpreter.exec_reachable _ ha, congrArg View.manifest hview⟩

/-- **The stored manifest is valid at all times**, in every run, whatever the clocks, the timeouts
and the failures: it decodes, to valid entries with different names. -/
theorem Cluster.manifest_decodes {B : Type} {P : Setup B} {rep : Replica B}
    (hrep : rep.Proper P.json) {a : Pool (Cluster B) ℕ (Op B) Resp Outcome}
    (h : (clusterSystem P).Reachable (initial P rep) a) {data : B}
    (hdata : a.world.storage.replica.manifest = some data) :
    ∃ files, decodeManifest P.json data = .ok files ∧ AllValid files ∧ (keys files).Nodup := by
  have hE (l : Launch) : (l.program P).Keeps (.ofStep fun (_ : Unit) _ _ => ()) () :=
    (Prog.yields_true _).obeys fun _ _ _ => trivial
  have hany : ((clusterSystem P).restrict fun _ _ _ _ _ => True).Reachable (initial P rep) a :=
    h.map (S := clusterSystem P) id id (fun hcall => ⟨hcall, trivial⟩) fun _ _ => .inl
  have hinv := facts_invariant (.ofStep fun (_ : Unit) _ _ => ()) () (fun _ => ()) hE
    (I := fun _ _ => True) hrep trivial (fun _ _ _ _ _ _ _ => trivial) ?_ ?_ hany
  · obtain ⟨files, hfiles⟩ := hinv.1.proper.decodes data hdata
    exact ⟨files, hfiles, decodeManifest_valid P.json hfiles⟩
  · intros
    exact ⟨(), rfl, trivial⟩
  · intros
    trivial

open Covering in
theorem manifest_decodes_overlapping : ∃ (a : State) (data : Option ManifestDocument),
    (clusterSystem (setup (30 * second))).Reachable
      (Cluster.initial (setup (30 * second)) ⟨[], none⟩) a ∧
    a.world.storage.replica.manifest = some data ∧
      ∃ files, decodeManifest .plain data = .ok files ∧ AllValid files ∧ (keys files).Nodup := by
  obtain ⟨a, ha, hview⟩ := map_eq_some_iff.mp overlapping_exec
  obtain ⟨data, hdata, -⟩ := bind_eq_some_iff.mp (congrArg View.manifest hview)
  have hreach := Interpreter.exec_reachable _ ha
  exact ⟨a, data, hreach, hdata, Cluster.manifest_decodes proper_empty hreach hdata⟩

end Walrusd.Runtime
