import Walrusd.Runtime.Merge

/-!
# The plan of a compaction pass

`CompactManifest` merges a manifest snapshot and returns the new active set, the merged files and
the superseded sources. This file compares the three, for every snapshot, threshold and answer of
Litestream's compactor.

A merge into a level reads the files of the level below that start after the level; the sources are
then selected again, as the files of the level below that end no later than the merged file. The
two selections differ on a file that starts no later than the level above it ends.

## Main definitions

* `Plans` — the plans that `CompactManifest` can return.
* `mergedAt`, `MergesAgain` — the merges that a snapshot calls for.
* `Straggles`, `Backed` — superseded files that no merge reads, and what covers them.
* `Fronted` — every TXID is in a file that starts after the next level.
* `Layered` — every file starts after all higher levels.

## Main results

* `planned_sources_covered_iff` — the active set covers the sources if and only if the stragglers
  are backed.
* `planned_delta_iff` — the delta that a pass applies is its plan if and only if no merged level is
  merged again.
* `planned_layered` — a plan for a layered snapshot is layered and needs no further compaction.
-/

namespace Walrusd.Runtime

open Program Litestream List

/-! ### Plans -/

/-- Litestream's compactor: it writes one file that spans the files of the source level after the
destination, and reports `ErrNoCompaction` only if there is none. -/
def Compacts {B : Type} : (c : Op B) → Resp c → Prop
  | .compact level files, .ok info => mergeSources level files ≠ [] ∧
    info = mergedFile level (mergeSources level files) info.size info.createdAt
  | .compact level files, .error e => e.is .noCompaction = true → mergeSources level files = []
  | _, _ => True

/-- `CompactManifest` can return this plan for the snapshot. -/
def Plans (B : Type) (files : List FileInfo) (threshold : ℤ) (plan : Compaction) : Prop :=
  ∃ tr, Returns (compactManifest files threshold : RuntimeM B _) tr (.ok plan) ∧
    ∀ e ∈ tr, Compacts e.1 e.2

/-- The answers of the compactor. -/
def compacting (B : Type) : Protocol (Op B) Resp Unit where
  allow _ _ := True
  next _ c r _ := Compacts c r

variable {B : Type} {S merged files : List FileInfo} {f : FileInfo} {sources : List FileInfo}
  {k : FileKey} {t : ℕ} {T : ℤ} {client : List FileInfo} {level : ℕ}

theorem compacting_runs {tr : List (Σ c : Op B, Resp c)} (h : ∀ e ∈ tr, Compacts e.1 e.2) :
    (compacting B).Runs () tr () := by
  induction tr with
  | nil => exact .nil ()
  | cons e tr ih =>
    have hrest := ih fun e' he' => h e' (mem_cons_of_mem _ he')
    exact .cons (h e mem_cons_self) hrest

theorem compactLevels_merging {T : ℤ} (count below : ℕ) (c : ManifestClient)
    (hmerging : Merging T S below c.files merged) (hcount : below + count = compactionTopLevel) :
    (compactLevels T ((List.range' below count).map (· + 1)) c merged : RuntimeM B _).Obeys
      (compacting B) (fun _ res => res.2 = none →
        ∃ client, Merging T S compactionTopLevel client res.1) () := by
  induction count generalizing below c merged with
  | zero =>
    obtain rfl : below = compactionTopLevel := hcount
    exact fun _ => ⟨c.files, hmerging⟩
  | succ count ih =>
    have hcount' : below + 1 + count = compactionTopLevel := by omega
    rw [range'_succ, map_cons, compactLevels, Nat.add_sub_cancel, levelCount_eq_countLTXFiles]
    split
    · next hle => exact ih (below + 1) c (hmerging.skip (.inl hle)) hcount'
    · next hgt =>
      refine .perform trivial ?_
      rintro (e | info) _ hanswer
      · simp only
        split
        · next hnone => exact ih (below + 1) c (hmerging.skip (.inr (hanswer hnone))) hcount'
        · exact nofun
      · exact ih (below + 1) (c.recordWrite info)
          (hmerging.merge (not_le.mp hgt) hanswer.1 hanswer.2) hcount'

theorem Plans.merging {threshold : ℤ} {plan : Compaction} (h : Plans B files threshold plan) :
    (∃ client, Merging (effectiveThreshold threshold) files compactionTopLevel client plan.merged) ∧
      supersede files [] plan.merged = (plan.updated, plan.sources) := by
  obtain ⟨tr, hreturns, hanswers⟩ := h
  have hobeys : (compactManifest files threshold : RuntimeM B _).Obeys (compacting B)
      (fun _ res => ∀ plan, res = .ok plan →
        (∃ client, Merging (effectiveThreshold threshold) files compactionTopLevel client
          plan.merged) ∧ supersede files [] plan.merged = (plan.updated, plan.sources)) () := by
    have hlevels := compactLevels_merging (B := B) (T := effectiveThreshold threshold)
      compactionTopLevel 0 (.new files) .start rfl
    rw [← range_eq_range'] at hlevels
    refine hlevels.bind ?_
    rintro _ ⟨merged, _ | e⟩ hmerging
    · rintro plan ⟨rfl⟩
      exact ⟨hmerging rfl, rfl⟩
    · exact nofun
  exact hreturns.runs (compacting_runs hanswers) hobeys plan rfl

/-- A pass merges into levels up to the top level only, never into the snapshot level. -/
theorem compactLevels_levels (T : ℤ) {levels : List ℕ}
    (hlevels : ∀ level ∈ levels, 0 < level ∧ level ≤ compactionTopLevel) (c : ManifestClient)
    (merged : List FileInfo) :
    (compactLevels T levels c merged : RuntimeM B _).Only fun c =>
      ∃ level files, c = .compact level files ∧ 0 < level ∧ level ≤ compactionTopLevel := by
  induction levels generalizing c merged with
  | nil => trivial
  | cons level levels ih =>
    have hrest := ih fun l hl => hlevels l (mem_cons_of_mem _ hl)
    unfold compactLevels
    split
    · exact hrest c merged
    refine .perform ⟨level, c.files, rfl, hlevels level mem_cons_self⟩ ?_
    rintro (e | info)
    · simp only
      split
      · exact hrest c merged
      · trivial
    · exact hrest _ _

theorem compactManifest_levels (files : List FileInfo) (threshold : ℤ) :
    (compactManifest files threshold : RuntimeM B _).Only fun c =>
      ∃ level client, c = .compact level client ∧ 0 < level ∧ level ≤ compactionTopLevel := by
  refine (compactLevels_levels _ (fun level hlevel => ?_) _ _).bind ?_
  · simp only [mem_map, mem_range] at hlevel
    omega
  · rintro ⟨merged, _ | e⟩ <;> trivial

/-! ### The superseded files -/

/-- The levels of the merged files ascend. -/
theorem Merging.ascending (h : Merging T S level client merged) :
    merged.Pairwise fun f g => f.level < g.level := by
  induction h with
  | start => exact List.Pairwise.nil
  | skip h hskip ih => exact ih
  | @merge level client merged info h hcount hne hinfo ih =>
    refine pairwise_append.mpr ⟨ih, pairwise_singleton _ _, fun f hf g hg => ?_⟩
    obtain rfl := mem_singleton.mp hg
    have hlevel : g.level = level + 1 := congrArg FileInfo.level hinfo
    have hbelow := (h.keys.2 f.key (hasKey_of_mem hf)).2
    simp only [FileInfo.key_level] at hbelow
    omega

theorem nodup_keys_of_ascending (h : merged.Pairwise fun f g => f.level < g.level) :
    (keys merged).Nodup := by
  refine pairwise_map.mpr (h.imp fun {f g} hlt heq => ?_)
  have hlevel : f.level = g.level := congrArg FileKey.level heq
  omega

theorem eq_of_ascending (h : merged.Pairwise fun f g => f.level < g.level) {g : FileInfo}
    (hf : f ∈ merged) (hg : g ∈ merged) (hlevel : f.level = g.level) : f = g :=
  inj_on_of_nodup_map (pairwise_map.mpr (h.imp fun hlt => hlt.ne)) hf hg hlevel

section

variable (hasc : merged.Pairwise fun f g => f.level < g.level)
include hasc

/-- The active set: the files of the snapshot and the merged ones, without those that a merged file
of the next level supersedes. -/
theorem mem_supersede_updated {updated : List FileInfo} :
    f ∈ (supersede updated sources merged).1 ↔ ¬ Superseded merged f.key ∧
      (f ∈ updated ∨ f ∈ merged ∧ ¬ HasKey updated f.key) := by
  induction merged generalizing updated sources with
  | nil => simp [supersede, Superseded]
  | cons info merged ih =>
    obtain ⟨hlater, hasc⟩ := pairwise_cons.mp hasc
    have hstep : supersede updated sources (info :: merged) = supersede
      (applyManifestDelta updated [info] (goneBy info updated))
      (sources ++ goneBy info updated) merged := rfl
    have hinfo : f = info → f.level + 1 ≠ info.level := by
      rintro rfl
      exact Nat.succ_ne_self _
    have hmerged : f ∈ merged → f.level + 1 ≠ info.level ∧ ¬ info.key = f.key := fun hf =>
      ⟨by have := hlater f hf; omega, fun h => (hlater f hf).ne (congrArg FileKey.level h)⟩
    rw [hstep, ih hasc, superseded_cons, mem_applyManifestDelta (by simp [Litestream.keys]),
      hasKey_applyManifestDelta, hasKey_goneBy]
    simp only [mem_cons, not_mem_nil, hasKey_cons, not_hasKey_nil, or_false,
      FileInfo.key_level, FileInfo.key_maxTXID]
    by_cases hgone : f.level + 1 = info.level ∧ f.maxTXID ≤ info.maxTXID
    · refine iff_of_false ?_ fun h => h.1 (.inl hgone)
      rintro ⟨-, (⟨hf, hstays⟩ | ⟨hf, -⟩) | ⟨hf, -⟩⟩
      · exact hstays ⟨hasKey_of_mem hf, hgone⟩
      · exact hinfo hf hgone.1
      · exact (hmerged hf).1 hgone.1
    · simp only [hgone, and_false, not_false_eq_true, and_true, false_or]
      refine and_congr_right fun _ => ⟨?_, ?_⟩
      · rintro ((hf | ⟨hf, hnew⟩) | ⟨hf, hnew⟩)
        · exact .inl hf
        · exact .inr ⟨.inl hf, hnew⟩
        · exact .inr ⟨.inr hf, fun h => hnew (.inl h)⟩
      · rintro (hf | ⟨hf | hf, hnew⟩)
        · exact .inl (.inl hf)
        · exact .inl (.inr ⟨hf, hnew⟩)
        · exact .inr ⟨hf, fun h => h.elim hnew (hmerged hf).2⟩

theorem hasKey_supersede_updated {updated : List FileInfo} :
    HasKey (supersede updated sources merged).1 k ↔ ¬ Superseded merged k ∧
      (HasKey updated k ∨ HasKey merged k) := by
  constructor
  · intro hk
    obtain ⟨f, hf, rfl⟩ := hasKey_iff.mp hk
    obtain ⟨hstays, hf | ⟨hf, -⟩⟩ := (mem_supersede_updated hasc).mp hf
    · exact ⟨hstays, .inl (hasKey_of_mem hf)⟩
    · exact ⟨hstays, .inr (hasKey_of_mem hf)⟩
  · rintro ⟨hstays, hk⟩
    by_cases hupdated : HasKey updated k
    · obtain ⟨f, hf, rfl⟩ := hasKey_iff.mp hupdated
      exact hasKey_of_mem ((mem_supersede_updated hasc).mpr ⟨hstays, .inl hf⟩)
    · obtain ⟨f, hf, rfl⟩ := hasKey_iff.mp (hk.resolve_left hupdated)
      exact hasKey_of_mem ((mem_supersede_updated hasc).mpr ⟨hstays, .inr ⟨hf, hupdated⟩⟩)

/-- The sources are the files of the snapshot and the merged ones that a merged file of the next
level supersedes. -/
theorem hasKey_supersede_sources {updated : List FileInfo} :
    HasKey (supersede updated sources merged).2 k ↔ HasKey sources k ∨
      Superseded merged k ∧ (HasKey updated k ∨ HasKey merged k) := by
  refine ⟨hasKey_supersede, ?_⟩
  rintro (hk | ⟨hgone, hk⟩)
  · exact hasKey_supersede_of_sources hk
  · refine (hasKey_supersede_iff.mpr (hk.imp_right .inr)).resolve_left fun hstays => ?_
    exact ((hasKey_supersede_updated hasc).mp hstays).1 hgone

end

/-! ### What a merge reads -/

/-- A merged file starts after the files that the snapshot has at its level. -/
theorem MergedFrom.starts_after {client : List FileInfo} {info : FileInfo}
    (h : MergedFrom S client merged info) (hk : HasKey S k) (hlevel : k.level = info.level) :
    k.maxTXID < info.minTXID := by
  obtain ⟨k', hk', hmin⟩ := exists_eq_manifestMinTXID h.sources
  have hinfo : info.minTXID = k'.minTXID := (congrArg FileInfo.minTXID h.spans).trans hmin.symm
  rw [hinfo]
  exact (hasKey_mergeSources.mp hk').2.2.2 k ((h.keys k).mpr (.inl hk)) hlevel

/-- A file of the snapshot that starts after the next level lies in the file that is merged into
that level. -/
theorem MergedFrom.spans_fronted {client : List FileInfo} {info : FileInfo}
    (h : MergedFrom S client merged info) (hS : AllValid S) (hk : HasKey S k)
    (hlevel : k.level + 1 = info.level)
    (hfront : ∀ k', HasKey S k' → k'.level = k.level + 1 → k'.maxTXID < k.minTXID) :
    info.minTXID ≤ k.minTXID ∧ k.maxTXID ≤ info.maxTXID := by
  refine h.le (hasKey_mergeSources.mpr ⟨(h.keys k).mpr (.inl hk), hlevel, (hS k hk).2.1,
    fun k' hk' hlevel' => ?_⟩)
  rcases (h.keys k').mp hk' with hk' | hk'
  · exact hfront k' hk' (by omega)
  · have := h.below k' hk'
    omega

/-- A merge reads the file that the pass merged into its source level: that file starts after the
other files of the level. -/
theorem Merging.reads_merged (h : Merging T S level client merged) (hS : AllValid S)
    (hne : mergeSources (level + 1) client ≠ []) (hf : f ∈ merged) (hlevel : f.level = level) :
    HasKey (mergeSources (level + 1) client) f.key := by
  obtain ⟨g, hg⟩ := exists_mem_of_ne_nil _ hne
  obtain ⟨hclient, hglevel, hpos, hafter⟩ := hasKey_mergeSources.mp (hasKey_of_mem hg)
  have hsame : g.level = f.level := by
    simp only [FileInfo.key_level] at hglevel
    omega
  have hle : g.minTXID ≤ f.minTXID := by
    rcases (h.keys.1 _).mp hclient with hgS | hgmerged
    · obtain ⟨-, client', merged', hfrom, -⟩ := h.mergedFrom hf
      exact (hS _ hgS).2.2.trans (hfrom.starts_after hgS hsame).le
    obtain ⟨g', hg', hkey⟩ := hasKey_iff.mp hgmerged
    obtain rfl : g' = f :=
      eq_of_ascending h.ascending hg' hf ((congrArg FileKey.level hkey).trans hsame)
    exact (congrArg FileKey.minTXID hkey).ge
  refine hasKey_mergeSources.mpr ⟨(h.keys.1 _).mpr (.inr (hasKey_of_mem hf)),
    congrArg (· + 1) hlevel, hpos.trans_le hle, fun k' hk' hlevel' => ?_⟩
  exact (hafter k' hk' hlevel').trans_le hle

/-- A merged file whose level is merged in turn lies in the file that this merge writes. -/
theorem Merging.consumed (h : Merging T S level client merged) (hS : AllValid S) {g : FileInfo}
    (hf : f ∈ merged) (hg : g ∈ merged) (hlevel : f.level + 1 = g.level) :
    g.minTXID ≤ f.minTXID ∧ f.maxTXID ≤ g.maxTXID := by
  induction h with
  | start => cases hf
  | skip h hskip ih => exact ih hf hg
  | @merge level client merged info h hcount hne hinfo ih =>
    have hinfoLevel : info.level = level + 1 := congrArg FileInfo.level hinfo
    have hbelow : ∀ f ∈ merged, f.level ≤ level := fun f hf => (h.keys.2 _ (hasKey_of_mem hf)).2
    rcases mem_append.mp hf with hold | hnew
    · rcases mem_append.mp hg with hg | hg
      · exact ih hold hg
      obtain rfl := mem_singleton.mp hg
      have hsource := h.reads_merged hS hne hold (by omega)
      rw [hinfo]
      exact ⟨manifestMinTXID_le hsource, le_manifestMaxTXID hsource⟩
    · -- the last merged file is of the highest level
      obtain rfl := mem_singleton.mp hnew
      rcases mem_append.mp hg with hg | hg
      · have := hbelow g hg
        omega
      · obtain rfl := mem_singleton.mp hg
        omega

/-! ### The delta of a pass -/

/-- A pass applies its plan if and only if it merges no file that it supersedes: the active set is
without such a file, but the delta deletes it first and then adds it again. -/
theorem Plans.delta_iff {threshold : ℤ} {plan : Compaction} (h : Plans B files threshold plan) :
    (∀ f, f ∈ applyManifestDelta files plan.merged plan.sources ↔ f ∈ plan.updated) ↔
      ∀ k, HasKey plan.merged k → ¬ Superseded plan.merged k := by
  obtain ⟨⟨client, hmerging⟩, hplan⟩ := h.merging
  have hasc := hmerging.ascending
  have hupdated : plan.updated = (supersede files [] plan.merged).1 := by rw [hplan]
  have hsources : ∀ k, HasKey plan.sources k ↔
      Superseded plan.merged k ∧ (HasKey files k ∨ HasKey plan.merged k) := fun k => by
    have hk : HasKey (supersede files [] plan.merged).2 k ↔ _ := hasKey_supersede_sources hasc
    simpa [hplan] using hk
  constructor
  · intro hsame k hk hgone
    obtain ⟨f, hf, hfk⟩ := hasKey_iff.mp
      (hasKey_applyManifestDelta.mpr (Or.inr hk) :
        HasKey (applyManifestDelta files plan.merged plan.sources) k)
    have hf' := (hsame f).mp hf
    rw [hupdated, mem_supersede_updated hasc, hfk] at hf'
    exact hf'.1 hgone
  · intro hstays f
    rw [hupdated, mem_supersede_updated hasc,
      mem_applyManifestDelta (nodup_keys_of_ascending hasc), hsources]
    constructor
    · rintro (⟨hf, hkept⟩ | ⟨hf, hnew⟩)
      · exact ⟨fun hgone => hkept ⟨hgone, Or.inl (hasKey_of_mem hf)⟩, Or.inl hf⟩
      · have hf' := hstays f.key (hasKey_of_mem hf)
        exact ⟨hf', Or.inr ⟨hf, fun hk => hnew ⟨hk, fun hgone => hf' hgone.1⟩⟩⟩
    · rintro ⟨hkept, hf | ⟨hf, hnew⟩⟩
      · exact Or.inl ⟨hf, fun hgone => hkept hgone.1⟩
      · exact Or.inr ⟨hf, fun hk => hnew hk.1⟩

theorem Merging.superseded_iff {T : ℤ} {client : List FileInfo}
    (h : Merging T S compactionTopLevel client merged) :
    Superseded merged k ↔ ∃ info ∈ mergedAt T S k.level, k.maxTXID ≤ info.maxTXID := by
  constructor
  · rintro ⟨f, hf, hlevel, hmax⟩
    obtain ⟨level, info, hinfo, hkey⟩ := h.hasKey_merged.mp (hasKey_of_mem hf)
    have hlevel' : info.level = f.level := congrArg FileKey.level hkey
    obtain rfl : level = k.level := by have := (level_of_mem_mergedAt hinfo).2; omega
    exact ⟨info, hinfo, hmax.trans_eq (congrArg FileKey.maxTXID hkey).symm⟩
  · rintro ⟨info, hinfo, hmax⟩
    obtain ⟨f, hf, hkey⟩ := hasKey_iff.mp (h.hasKey_merged.mpr ⟨_, info, hinfo, rfl⟩)
    have hlevel : f.level = info.level := congrArg FileKey.level hkey
    exact ⟨f, hf, by have := (level_of_mem_mergedAt hinfo).2; omega,
      hmax.trans_eq (congrArg FileKey.maxTXID hkey).symm⟩

/-- A level into which the snapshot calls for a merge is merged again, by a merge that reaches as
far. -/
def MergesAgain (T : ℤ) (files : List FileInfo) : Prop :=
  ∃ level < compactionTopLevel, ∃ f ∈ mergedAt T files level,
    ∃ g ∈ mergedAt T files (level + 1), f.maxTXID ≤ g.maxTXID

instance (T : ℤ) (files : List FileInfo) : Decidable (MergesAgain T files) :=
  inferInstanceAs (Decidable (∃ level < compactionTopLevel, _))

/-- **A pass applies its plan if and only if no merged level is merged again.** When two consecutive
levels are merged, the file that the lower merge wrote is both merged and a source. On a valid
snapshot the upper merge always reaches as far as the lower one. -/
theorem planned_delta_iff {B : Type} {files : List FileInfo} {threshold : ℤ} {plan : Compaction}
    (h : Plans B files threshold plan) :
    ((∀ f, f ∈ applyManifestDelta files plan.merged plan.sources ↔ f ∈ plan.updated) ↔
      ¬ MergesAgain (effectiveThreshold threshold) files) ∧
    (AllValid files → (MergesAgain (effectiveThreshold threshold) files ↔
      ∃ level, (mergedAt (effectiveThreshold threshold) files level).isSome ∧
        (mergedAt (effectiveThreshold threshold) files (level + 1)).isSome)) := by
  obtain ⟨⟨client, hmerging⟩, -⟩ := h.merging
  refine ⟨h.delta_iff.trans ?_, fun hvalid => ?_⟩
  · constructor
    · rintro hstays ⟨level, -, f, hf, g, hg, hle⟩
      refine hstays f.key (hmerging.hasKey_merged.mpr ⟨level, f, hf, rfl⟩) ?_
      refine hmerging.superseded_iff.mpr ⟨g, ?_, hle⟩
      rwa [FileInfo.key_level, (level_of_mem_mergedAt hf).2]
    · intro hnone k hk hgone
      obtain ⟨level, f, hf, rfl⟩ := hmerging.hasKey_merged.mp hk
      obtain ⟨g, hg, hle⟩ := hmerging.superseded_iff.mp hgone
      rw [FileInfo.key_level, (level_of_mem_mergedAt hf).2] at hg
      exact hnone ⟨level, (level_of_mem_mergedAt hf).1, f, hf, g, hg, hle⟩
  · simp only [Option.isSome_iff_exists]
    constructor
    · rintro ⟨level, -, f, hf, g, hg, -⟩
      exact ⟨level, ⟨f, hf⟩, g, hg⟩
    rintro ⟨level, ⟨f, hf⟩, g, hg⟩
    obtain ⟨f', hf', hfkey⟩ := hasKey_iff.mp (hmerging.hasKey_merged.mpr ⟨level, f, hf, rfl⟩)
    obtain ⟨g', hg', hgkey⟩ := hasKey_iff.mp (hmerging.hasKey_merged.mpr ⟨level + 1, g, hg, rfl⟩)
    have hlevel : f'.level + 1 = g'.level := by
      have hflevel : f'.level = f.level := congrArg FileKey.level hfkey
      have hglevel : g'.level = g.level := congrArg FileKey.level hgkey
      rw [hflevel, hglevel, (level_of_mem_mergedAt hf).2, (level_of_mem_mergedAt hg).2]
    have hle := (hmerging.consumed hvalid hf' hg' hlevel).2
    refine ⟨level, (level_of_mem_mergedAt hf).1, f, hf, g, hg, ?_⟩
    exact (congrArg FileKey.maxTXID hfkey).ge.trans (hle.trans_eq (congrArg FileKey.maxTXID hgkey))

/-- A pass that merges one level applies its plan. -/
theorem planned_delta_one_level :
    ∃ plan, Plans Unit [⟨0, 1, 1, 1, 10⟩, ⟨0, 2, 2, 1, 20⟩] 1 plan ∧
      plan.merged = [⟨1, 1, 2, 2, 30⟩] ∧
      ∀ f, f ∈ applyManifestDelta [⟨0, 1, 1, 1, 10⟩, ⟨0, 2, 2, 1, 20⟩] plan.merged plan.sources ↔
        f ∈ plan.updated := by
  have hplan : Plans Unit [⟨0, 1, 1, 1, 10⟩, ⟨0, 2, 2, 1, 20⟩] 1 ⟨[⟨1, 1, 2, 2, 30⟩],
      [⟨1, 1, 2, 2, 30⟩], [⟨0, 1, 1, 1, 10⟩, ⟨0, 2, 2, 1, 20⟩]⟩ := by
    refine ⟨[⟨.compact 1 _, .ok ⟨1, 1, 2, 2, 30⟩⟩], .call (.done _), ?_⟩
    simp only [forall_mem_singleton]
    exact ⟨by decide, by decide⟩
  exact ⟨_, hplan, rfl, (planned_delta_iff hplan).1.mpr (by decide)⟩

/-- A snapshot with a file at level 1 and two files at level 0. -/
def cascade : List FileInfo := [⟨0, 2, 2, 1, 20⟩, ⟨0, 3, 3, 1, 30⟩, ⟨1, 1, 1, 1, 10⟩]

/-- A pass that merges two levels: level 0 into level 1, and then level 1 with the new file into
level 2. -/
theorem cascade_plans : Plans Unit cascade 1
      ⟨[⟨2, 1, 3, 3, 50⟩], [⟨1, 2, 3, 2, 40⟩, ⟨2, 1, 3, 3, 50⟩],
        [⟨0, 2, 2, 1, 20⟩, ⟨0, 3, 3, 1, 30⟩, ⟨1, 1, 1, 1, 10⟩, ⟨1, 2, 3, 2, 40⟩]⟩ := by
  refine ⟨[⟨.compact 1 _, .ok ⟨1, 2, 3, 2, 40⟩⟩, ⟨.compact 2 _, .ok ⟨2, 1, 3, 3, 50⟩⟩],
    .call (.call (.done _)), ?_⟩
  simp only [forall_mem_cons, not_mem_nil, false_implies, implies_true, and_true]
  exact ⟨⟨by decide, by decide⟩, by decide, by decide⟩

/-- The file that the first merge wrote is a source of the second, and the delta keeps it in the
manifest. -/
theorem cascade_keeps_source :
    ∃ plan, Plans Unit cascade 1 plan ∧
      plan.updated = [⟨2, 1, 3, 3, 50⟩] ∧ HasKey plan.sources ⟨1, 2, 3⟩ ∧
      applyManifestDelta cascade plan.merged plan.sources = [⟨1, 2, 3, 2, 40⟩, ⟨2, 1, 3, 3, 50⟩] :=
  ⟨_, cascade_plans, rfl, by decide, by decide⟩

/-! ### Coverage of the sources -/

/-- Every TXID of the list is in a file that starts after all files of the next level, or in a file
of a level that is not merged. -/
def Fronted (files : List FileInfo) : Prop :=
  ∀ f ∈ files, ∀ t ≤ f.maxTXID, f.minTXID ≤ t → ∃ g ∈ files, g.minTXID ≤ t ∧ t ≤ g.maxTXID ∧
    (compactionTopLevel ≤ g.level ∨ ∀ g' ∈ files, g'.level = g.level + 1 → g'.maxTXID < g.minTXID)

instance (files : List FileInfo) : Decidable (Fronted files) :=
  inferInstanceAs (Decidable (∀ f ∈ files, ∀ t ≤ f.maxTXID, _ → _))

/-- The active set covers what was merged. -/
theorem Merging.covers_merged {T : ℤ} {client : List FileInfo}
    (h : Merging T S compactionTopLevel client merged) (hS : AllValid S) (hf : f ∈ merged)
    (hmin : f.minTXID ≤ t) (hmax : t ≤ f.maxTXID) : Covers (supersede S [] merged).1 t := by
  -- from the highest level down
  have hdown : ∀ d, ∀ f ∈ merged, f.level + d = compactionTopLevel → f.minTXID ≤ t →
      t ≤ f.maxTXID → Covers (supersede S [] merged).1 t := by
    intro d
    induction d with
    | zero =>
      intro f hf hlevel hmin hmax
      refine ⟨f.key, (hasKey_supersede_updated h.ascending).mpr ⟨?_, .inr (hasKey_of_mem hf)⟩,
        hmin, hmax⟩
      rintro ⟨g, hg, hnext, -⟩
      have := (h.mergedFrom hg).1
      simp only [FileInfo.key_level] at hnext
      omega
    | succ d ih =>
      intro f hf hlevel hmin hmax
      by_cases hgone : Superseded merged f.key
      · obtain ⟨g, hg, hnext, -⟩ := hgone
        obtain ⟨hlo, hhi⟩ := h.consumed hS hf hg hnext
        simp only [FileInfo.key_level] at hnext
        exact ih g hg (by omega) (hlo.trans hmin) (hmax.trans hhi)
      · exact ⟨f.key, (hasKey_supersede_updated h.ascending).mpr
          ⟨hgone, .inr (hasKey_of_mem hf)⟩, hmin, hmax⟩
  have hlevel := (h.mergedFrom hf).1
  exact hdown (compactionTopLevel - f.level) f hf (by omega) hmin hmax

/-- A file of a level that is merged which starts before the next level ends, so that the merge does
not read it, and ends no later than the merged file. -/
def Straggles (T : ℤ) (files : List FileInfo) (f : FileInfo) : Prop :=
  f.minTXID ≤ manifestMaxTXID (files.filter fun g => g.level = f.level + 1) ∧
    ∃ info ∈ mergedAt T files f.level, f.maxTXID ≤ info.maxTXID

/-- A merge spans the TXID. -/
def Spanned (T : ℤ) (files : List FileInfo) (t : ℕ) : Prop :=
  ∃ level < compactionTopLevel, ∃ info ∈ mergedAt T files level, info.minTXID ≤ t ∧ t ≤ info.maxTXID

/-- Every TXID of a straggler is in the span of a merge or in a file that is no straggler. -/
def Backed (T : ℤ) (files : List FileInfo) : Prop :=
  ∀ f ∈ files, Straggles T files f → ∀ t ≤ f.maxTXID, f.minTXID ≤ t →
    Spanned T files t ∨ ∃ g ∈ files, ¬ Straggles T files g ∧ g.minTXID ≤ t ∧ t ≤ g.maxTXID

instance (T : ℤ) (files : List FileInfo) : DecidablePred (Straggles T files) := fun _ =>
  inferInstanceAs (Decidable (_ ∧ ∃ info ∈ mergedAt _ _ _, _))

instance (T : ℤ) (files : List FileInfo) : DecidablePred (Spanned T files) := fun _ =>
  inferInstanceAs (Decidable (∃ level < compactionTopLevel, ∃ info ∈ mergedAt _ _ _, _))

instance (T : ℤ) (files : List FileInfo) : Decidable (Backed T files) :=
  inferInstanceAs (Decidable (∀ f ∈ files, _ → ∀ t ≤ f.maxTXID, _ → _))

section Backed

variable {T : ℤ} {client : List FileInfo} (h : Merging T S compactionTopLevel client merged)
include h

section

variable (hS : AllValid S)
include hS

theorem Merging.covers_spanned (ht : Spanned T S t) : Covers (supersede S [] merged).1 t := by
  obtain ⟨level, -, info, hinfo, hmin, hmax⟩ := ht
  obtain ⟨f, hf, hkey⟩ := hasKey_iff.mp (h.hasKey_merged.mpr ⟨level, info, hinfo, rfl⟩)
  exact h.covers_merged hS hf ((congrArg FileKey.minTXID hkey).trans_le hmin)
    (hmax.trans_eq (congrArg FileKey.maxTXID hkey).symm)

/-- The active set covers a file that does not straggle: it stays, or the merge reads it. -/
theorem Merging.covers_of_not_straggles (hf : f ∈ S) (hstays : ¬ Straggles T S f)
    (hmin : f.minTXID ≤ t) (hmax : t ≤ f.maxTXID) : Covers (supersede S [] merged).1 t := by
  by_cases hgone : Superseded merged f.key
  · have hafter : manifestMaxTXID (S.filter fun g => g.level = f.level + 1) < f.minTXID :=
      not_le.mp fun hle => hstays ⟨hle, h.superseded_iff.mp hgone⟩
    obtain ⟨info, hinfo, hnext, -⟩ := hgone
    obtain ⟨-, client', merged', hfrom, -⟩ := h.mergedFrom hinfo
    obtain ⟨hlo, hhi⟩ := hfrom.spans_fronted hS (hasKey_of_mem hf) hnext fun k' hk' hlevel =>
      (manifestMaxTXID_lt_iff.mp hafter).2 k' (hasKey_filter_level.mpr ⟨hk', hlevel⟩)
    exact h.covers_merged hS hinfo (hlo.trans hmin) (hmax.trans hhi)
  · exact ⟨f.key, (hasKey_supersede_updated h.ascending).mpr ⟨hgone, .inl (hasKey_of_mem hf)⟩,
      hmin, hmax⟩

/-- The active set covers what a fronted snapshot covers. -/
theorem Merging.covers_fronted (hfronted : Fronted S) (ht : Covers S t) :
    Covers (supersede S [] merged).1 t := by
  obtain ⟨k, hk, hmin, hmax⟩ := ht
  obtain ⟨f, hf, rfl⟩ := hasKey_iff.mp hk
  obtain ⟨g, hg, hlo, hhi, hcase⟩ := hfronted f hf t hmax hmin
  refine h.covers_of_not_straggles hS hg ?_ hlo hhi
  rintro ⟨hstarts, info, hinfo, -⟩
  refine absurd (manifestMaxTXID_lt_iff.mpr ⟨(hS _ (hasKey_of_mem hg)).2.1, fun k' hk' => ?_⟩)
    (not_lt.mpr hstarts)
  obtain ⟨hk', hlevel⟩ := hasKey_filter_level.mp hk'
  obtain ⟨g', hg', rfl⟩ := hasKey_iff.mp hk'
  exact hcase.resolve_left (not_le.mpr (level_of_mem_mergedAt hinfo).1) g' hg' hlevel

/-- The merge of a fronted snapshot drops no TXID of a manifest that still names the snapshot. -/
theorem Merging.covers_delta {base : List FileInfo} (hfronted : Fronted S)
    (hbase : ∀ k, HasKey S k → HasKey base k) (ht : Covers base t) :
    Covers (applyManifestDelta base merged (supersede S [] merged).2) t := by
  have hwritten : ∀ k, HasKey merged k →
      HasKey (applyManifestDelta base merged (supersede S [] merged).2) k := fun k hk =>
    hasKey_applyManifestDelta.mpr (.inr hk)
  obtain ⟨k, hk, hmin, hmax⟩ := ht
  by_cases hgone : HasKey (supersede S [] merged).2 k
  · rw [hasKey_supersede_sources h.ascending] at hgone
    obtain ⟨-, hfrom | hfrom⟩ := hgone.resolve_left not_hasKey_nil
    · obtain ⟨k', hk', hrange⟩ := h.covers_fronted hS hfronted ⟨k, hfrom, hmin, hmax⟩
      obtain ⟨hkept, hk' | hk'⟩ := (hasKey_supersede_updated h.ascending).mp hk'
      · refine ⟨k', hasKey_applyManifestDelta.mpr (.inl ⟨hbase k' hk', fun hgone' => hkept ?_⟩),
          hrange⟩
        rw [hasKey_supersede_sources h.ascending] at hgone'
        exact (hgone'.resolve_left not_hasKey_nil).1
      · exact ⟨k', hwritten k' hk', hrange⟩
    · exact ⟨k, hwritten k hfrom, hmin, hmax⟩
  · exact ⟨k, hasKey_applyManifestDelta.mpr (.inl ⟨hk, hgone⟩), hmin, hmax⟩

theorem Merging.covers_backed (hbacked : Backed T S) (ht : Covers S t) :
    Covers (supersede S [] merged).1 t := by
  obtain ⟨k, hk, hmin, hmax⟩ := ht
  obtain ⟨f, hf, rfl⟩ := hasKey_iff.mp hk
  by_cases hstraggles : Straggles T S f
  · rcases hbacked f hf hstraggles t hmax hmin with hspan | ⟨g, hg, hstays, hlo, hhi⟩
    · exact h.covers_spanned hS hspan
    · exact h.covers_of_not_straggles hS hg hstays hlo hhi
  · exact h.covers_of_not_straggles hS hf hstraggles hmin hmax

end

/-- What the active set covers is in a file that stays, or in the span of a merge. -/
theorem Merging.backed_of_covers (ht : Covers (supersede S [] merged).1 t) :
    Spanned T S t ∨ ∃ g ∈ S, ¬ Straggles T S g ∧ g.minTXID ≤ t ∧ t ≤ g.maxTXID := by
  obtain ⟨k, hk, hmin, hmax⟩ := ht
  obtain ⟨hstays, hk | hk⟩ := (hasKey_supersede_updated h.ascending).mp hk
  · obtain ⟨g, hg, rfl⟩ := hasKey_iff.mp hk
    exact .inr ⟨g, hg, fun hstraggles => hstays (h.superseded_iff.mpr hstraggles.2), hmin, hmax⟩
  · obtain ⟨level, info, hinfo, rfl⟩ := h.hasKey_merged.mp hk
    exact .inl ⟨level, (level_of_mem_mergedAt hinfo).1, info, hinfo, hmin, hmax⟩

end Backed

/-- **The active set covers the sources, and everything that the snapshot covered, if and only if
the stragglers are backed.** Levels that are not merged have no stragglers. -/
theorem planned_sources_covered_iff {B : Type} {files : List FileInfo} {threshold : ℤ}
    {plan : Compaction} (hvalid : AllValid files) (h : Plans B files threshold plan) :
    (∀ k, HasKey plan.sources k → ∀ t, k.minTXID ≤ t → t ≤ k.maxTXID → Covers plan.updated t) ∧
        (∀ t, Covers files t → Covers plan.updated t) ↔
      Backed (effectiveThreshold threshold) files := by
  obtain ⟨⟨client, hmerging⟩, hplan⟩ := h.merging
  have hupdated : (supersede files [] plan.merged).1 = plan.updated := by rw [hplan]
  have hsources : (supersede files [] plan.merged).2 = plan.sources := by rw [hplan]
  constructor
  · rintro ⟨-, hcovers⟩ f hf - t hmax hmin
    refine hmerging.backed_of_covers ?_
    rw [hupdated]
    exact hcovers t ⟨f.key, hasKey_of_mem hf, hmin, hmax⟩
  · intro hbacked
    have hcovers : ∀ t, Covers files t → Covers plan.updated t := fun t ht =>
      hupdated ▸ hmerging.covers_backed hvalid hbacked ht
    refine ⟨fun k hk t hmin hmax => ?_, hcovers⟩
    rw [← hsources, hasKey_supersede_sources hmerging.ascending] at hk
    obtain ⟨-, hk | hk⟩ := hk.resolve_left not_hasKey_nil
    · exact hcovers t ⟨k, hk, hmin, hmax⟩
    · obtain ⟨f, hf, rfl⟩ := hasKey_iff.mp hk
      exact hupdated ▸ hmerging.covers_merged hvalid hf hmin hmax

theorem planned_sources_covered_cascade :
    AllValid cascade ∧
    ∃ plan, Plans Unit cascade 1 plan ∧ plan.sources.length = 4 ∧
      ∀ k, HasKey plan.sources k → ∀ t, k.minTXID ≤ t → t ≤ k.maxTXID → Covers plan.updated t := by
  have hvalid : AllValid cascade := by
    unfold AllValid HasKey
    decide
  exact ⟨hvalid, _, cascade_plans, rfl,
    ((planned_sources_covered_iff hvalid cascade_plans).mpr (by decide)).1⟩

/-- A file that starts before the level above it ends is not read by the merge, but is a source. -/
theorem straggler_not_covered :
    AllValid [⟨0, 1, 1, 1, 10⟩, ⟨0, 5, 5, 1, 30⟩, ⟨0, 6, 6, 1, 40⟩, ⟨1, 3, 4, 1, 20⟩] ∧
    ∃ plan, Plans Unit [⟨0, 1, 1, 1, 10⟩, ⟨0, 5, 5, 1, 30⟩, ⟨0, 6, 6, 1, 40⟩, ⟨1, 3, 4, 1, 20⟩] 2
        plan ∧ plan.updated = [⟨1, 3, 4, 1, 20⟩, ⟨1, 5, 6, 2, 50⟩] ∧
      HasKey plan.sources ⟨0, 1, 1⟩ ∧ ¬ Covers plan.updated 1 := by
  refine ⟨by unfold AllValid HasKey; decide, ⟨[⟨1, 3, 4, 1, 20⟩, ⟨1, 5, 6, 2, 50⟩],
    [⟨1, 5, 6, 2, 50⟩], [⟨0, 1, 1, 1, 10⟩, ⟨0, 5, 5, 1, 30⟩, ⟨0, 6, 6, 1, 40⟩]⟩,
    ⟨[⟨.compact 1 _, .ok ⟨1, 5, 6, 2, 50⟩⟩], .call (.done _), ?_⟩, rfl, by decide, by decide⟩
  simp only [forall_mem_singleton]
  exact ⟨by decide, by decide⟩

/-! ### Layered snapshots -/

/-- Every file starts after the files of all higher levels, and the ranges at one level are
disjoint. -/
structure Layered (files : List FileInfo) : Prop where
  above : ∀ f ∈ files, ∀ g ∈ files, f.level < g.level → g.maxTXID < f.minTXID
  disjoint : files.Pairwise fun f g =>
    f.level = g.level → f.maxTXID < g.minTXID ∨ g.maxTXID < f.minTXID

theorem Layered.perm {files' : List FileInfo} (h : Layered files) (hperm : files.Perm files') :
    Layered files' where
  above f hf g hg := h.above f (hperm.mem_iff.mpr hf) g (hperm.mem_iff.mpr hg)
  disjoint := (hperm.pairwise_iff fun hfg heq => (hfg heq.symm).symm).mp h.disjoint

/-- Add a file to a layered list: it starts after the files of its level and of higher ones, and
ends before the files of lower levels start. -/
theorem Layered.cons {info : FileInfo} (h : Layered files)
    (habove : ∀ g ∈ files, info.level ≤ g.level → g.maxTXID < info.minTXID)
    (hbelow : ∀ f ∈ files, f.level < info.level → info.maxTXID < f.minTXID) :
    Layered (info :: files) where
  above f hf g hg hlevel := by
    rcases mem_cons.mp hf with rfl | hf'
    · rcases mem_cons.mp hg with rfl | hg'
      · omega
      · exact habove g hg' hlevel.le
    rcases mem_cons.mp hg with rfl | hg'
    · exact hbelow f hf' hlevel
    · exact h.above f hf' g hg' hlevel
  disjoint := pairwise_cons.mpr ⟨fun g hg hlevel => .inr (habove g hg hlevel.le), h.disjoint⟩

theorem Layered.filter (h : Layered files) (p : FileInfo → Bool) :
    Layered (files.filter p) where
  above f hf g hg := h.above f (mem_of_mem_filter hf) g (mem_of_mem_filter hg)
  disjoint := h.disjoint.filter p

/-- What a pass on a layered snapshot keeps, after the levels below `level` were treated as
sources: the active set is layered, the levels below hold at most `T` files, and from `level` on it
has the files of the pass's client. -/
structure Swept (T : ℤ) (level : ℕ) (client updated : List FileInfo) : Prop where
  valid : AllValid updated
  layered : Layered updated
  bounded : ∀ l < level, levelCount updated l ≤ T
  agrees : ∀ l, level ≤ l →
    (updated.filter fun f => f.level = l).Perm (client.filter fun f => f.level = l)

theorem levelCount_perm {files' : List FileInfo} {l : ℕ}
    (h : (files.filter fun f => f.level = l).Perm (files'.filter fun f => f.level = l)) :
    levelCount files l = levelCount files' l := congrArg Int.ofNat h.length_eq

theorem supersede_append_one (updated sources merged : List FileInfo) (info : FileInfo) :
    (supersede updated sources (merged ++ [info])).1 =
      applyManifestDelta (supersede updated sources merged).1 [info]
        (goneBy info (supersede updated sources merged).1) := by
  induction merged generalizing updated sources with
  | nil => rfl
  | cons f merged ih => exact ih _ _

section Swept

variable {T : ℤ} {level : ℕ} {client updated : List FileInfo}

section

variable (h : Swept T level client updated)
include h

theorem Swept.mem_iff {f : FileInfo} (hlevel : level ≤ f.level) : f ∈ updated ↔ f ∈ client := by
  have hperm := (h.agrees f.level hlevel).mem_iff (a := f)
  simpa using hperm

theorem Swept.hasKey_iff {k : FileKey} (hlevel : level ≤ k.level) :
    HasKey updated k ↔ HasKey client k := by
  constructor
  · intro hk
    obtain ⟨f, hf, rfl⟩ := Litestream.hasKey_iff.mp hk
    exact hasKey_of_mem ((h.mem_iff hlevel).mp hf)
  intro hk
  obtain ⟨f, hf, rfl⟩ := Litestream.hasKey_iff.mp hk
  exact hasKey_of_mem ((h.mem_iff hlevel).mpr hf)

/-- A merge on a layered list reads its whole source level. -/
theorem Swept.hasKey_sources {k : FileKey} :
    HasKey (mergeSources (level + 1) client) k ↔ HasKey updated k ∧ k.level = level := by
  rw [hasKey_mergeSources]
  constructor
  · rintro ⟨hk, hlevel, -⟩
    exact ⟨(h.hasKey_iff (by omega)).mpr hk, by omega⟩
  rintro ⟨hk, hlevel⟩
  refine ⟨(h.hasKey_iff hlevel.ge).mp hk, by omega, (h.valid k hk).2.1, fun k' hk' hlevel' => ?_⟩
  obtain ⟨f, hf, rfl⟩ := Litestream.hasKey_iff.mp hk
  obtain ⟨g, hg, rfl⟩ := Litestream.hasKey_iff.mp ((h.hasKey_iff (by omega)).mpr hk')
  simp only [FileInfo.key_level] at hlevel hlevel'
  exact h.layered.above f hf g hg (by omega)

theorem Swept.skip (hT : 0 ≤ T)
    (hskip : levelCount client level ≤ T ∨ mergeSources (level + 1) client = []) :
    Swept T (level + 1) client updated where
  valid := h.valid
  layered := h.layered
  bounded l hl := by
    rcases Nat.lt_succ_iff_lt_or_eq.mp hl with hl | rfl
    · exact h.bounded l hl
    rcases hskip with hle | hnil
    · exact (levelCount_perm (h.agrees l le_rfl)).trans_le hle
    · -- every file of the level would be a source
      have hempty : (updated.filter fun f => f.level = l) = [] := by
        refine filter_eq_nil_iff.mpr fun f hf hlevel => ?_
        have hsource := h.hasKey_sources.mpr ⟨hasKey_of_mem hf, of_decide_eq_true hlevel⟩
        rw [hnil] at hsource
        exact not_hasKey_nil hsource
      rw [levelCount, hempty]
      exact hT
  agrees l hl := h.agrees l (Nat.le_of_succ_le hl)

end

variable {info : FileInfo}

variable (h : Swept T level client updated)
include h

/-- The merged file starts after all higher levels: it starts with a file of its source level. -/
theorem Swept.above_merged (hne : mergeSources (level + 1) client ≠ [])
    (hmin : info.minTXID = manifestMinTXID (mergeSources (level + 1) client)) {g : FileInfo}
    (hg : g ∈ updated) (hlevel : level < g.level) : g.maxTXID < info.minTXID := by
  obtain ⟨k, hk, hkmin⟩ := exists_eq_manifestMinTXID hne
  obtain ⟨hk, hklevel⟩ := h.hasKey_sources.mp hk
  obtain ⟨f, hf, rfl⟩ := Litestream.hasKey_iff.mp hk
  rw [hmin, ← hkmin]
  exact h.layered.above f hf g hg (hklevel.trans_lt hlevel)

/-- The merged file ends before all lower levels: it ends with a file of its source level. -/
theorem Swept.below_merged (hpos : 0 < info.maxTXID)
    (hmax : info.maxTXID = manifestMaxTXID (mergeSources (level + 1) client)) {f : FileInfo}
    (hf : f ∈ updated) (hlevel : f.level < level) : info.maxTXID < f.minTXID := by
  obtain ⟨k, hk, hkmax⟩ := exists_eq_manifestMaxTXID (hmax ▸ hpos)
  obtain ⟨hk, hklevel⟩ := h.hasKey_sources.mp hk
  obtain ⟨g, hg, rfl⟩ := Litestream.hasKey_iff.mp hk
  rw [hmax, ← hkmax]
  exact h.layered.above f hf g hg (hlevel.trans_eq hklevel.symm)

/-- The merge supersedes its source level, and nothing else. -/
theorem Swept.filter_gone (hlevel : info.level = level + 1)
    (hmax : info.maxTXID = manifestMaxTXID (mergeSources (level + 1) client)) :
    (updated.filter fun f => !manifestContains (goneBy info updated) f) =
      updated.filter fun f => f.level ≠ level := by
  refine filter_congr fun f hf => ?_
  have hgone : manifestContains (goneBy info updated) f = true ↔ f.level = level := by
    rw [manifestContains_iff, hasKey_goneBy]
    constructor
    · rintro ⟨-, hnext, -⟩
      simp only [FileInfo.key_level] at hnext
      omega
    intro hl
    have hsource := h.hasKey_sources.mpr ⟨hasKey_of_mem hf, hl⟩
    exact ⟨hasKey_of_mem hf, by rw [FileInfo.key_level, hl, hlevel],
      hmax ▸ le_manifestMaxTXID hsource⟩
  by_cases hl : f.level = level
  · simp [hgone.mpr hl, hl]
  · simp [Bool.eq_false_iff.mpr fun hc => hl (hgone.mp hc), hl]

/-- A merge moves its source level, as one file, into the next level. -/
theorem Swept.merge (hT : 0 ≤ T) (htop : level < compactionTopLevel)
    (hne : mergeSources (level + 1) client ≠ [])
    (hinfo : info = mergedFile (level + 1) (mergeSources (level + 1) client) info.size
      info.createdAt) :
    Swept T (level + 1) (applyManifestDelta client [info] [])
      (applyManifestDelta updated [info] (goneBy info updated)) := by
  have hlevel : info.level = level + 1 := congrArg FileInfo.level hinfo
  have hmin := congrArg FileInfo.minTXID hinfo
  have hmax := congrArg FileInfo.maxTXID hinfo
  have hvalid : info.key.Valid := by
    rw [hinfo]
    refine mergedFile_valid (fun k hk => h.valid k (h.hasKey_sources.mp hk).1) hne ?_
    exact htop.trans (by decide)
  have habove : ∀ g ∈ updated, info.level ≤ g.level → g.maxTXID < info.minTXID := fun g hg hle =>
    h.above_merged hne hmin hg (by omega)
  have hnew : ¬ HasKey updated info.key := by
    intro hk
    obtain ⟨g, hg, hkey⟩ := Litestream.hasKey_iff.mp hk
    have hlt := habove g hg (congrArg FileKey.level hkey).ge
    have hend : g.maxTXID = info.maxTXID := congrArg FileKey.maxTXID hkey
    exact absurd (hend.ge.trans_lt hlt) (not_lt.mpr hvalid.2.2)
  have hnewClient : ¬ HasKey client info.key := fun hk =>
    hnew ((h.hasKey_iff (by simp only [FileInfo.key_level]; omega)).mpr hk)
  have hperm : (applyManifestDelta updated [info] (goneBy info updated)).Perm
      (info :: updated.filter fun f => f.level ≠ level) := by
    rw [← h.filter_gone hlevel hmax]
    exact applyManifestDelta_perm_cons fun hk => hnew hk.1
  have hpermClient : (applyManifestDelta client [info] []).Perm (info :: client) := by
    have hp := @applyManifestDelta_perm_cons client [] info fun hk => hnewClient hk.1
    simpa [manifestContains] using hp
  -- below the next level, the active set has lost the files of the source level
  have hcount : ∀ l < level + 1,
      ((applyManifestDelta updated [info] (goneBy info updated)).filter fun f => f.level = l).Perm
        ((updated.filter fun f => f.level ≠ level).filter fun f => f.level = l) := fun l hl => by
    have hp := hperm.filter fun f => f.level = l
    rwa [filter_cons_of_neg (by simp only [decide_eq_true_eq]; omega)] at hp
  refine ⟨?_, ?_, fun l hl => ?_, fun l hl => ?_⟩
  · intro k hk
    rcases hasKey_applyManifestDelta.mp hk with ⟨hk, -⟩ | hk
    · exact h.valid k hk
    · obtain rfl : info.key = k := by simpa using hk
      exact hvalid
  · refine ((h.layered.filter _).cons (fun g hg => ?_) fun f hf hlt => ?_).perm hperm.symm
    · exact habove g (mem_of_mem_filter hg)
    obtain ⟨hf, hne⟩ := mem_filter.mp hf
    have hne' : f.level ≠ level := of_decide_eq_true hne
    exact h.below_merged (hvalid.2.1.trans_le hvalid.2.2) hmax hf (by omega)
  · rw [levelCount, (hcount l hl).length_eq]
    rcases Nat.lt_succ_iff_lt_or_eq.mp hl with hl | rfl
    · refine le_trans ?_ (h.bounded l hl)
      exact Int.ofNat_le.mpr ((filter_sublist.filter _).length_le)
    have hempty : ((updated.filter fun f => f.level ≠ l).filter fun f => f.level = l) = [] := by
      simp [filter_filter]
    rw [hempty]
    exact hT
  · have hsame : ((updated.filter fun f => f.level ≠ level).filter fun f => f.level = l) =
        updated.filter fun f => f.level = l := by
      rw [filter_filter]
      refine filter_congr fun f _ => ?_
      simp only [Bool.and_eq_left_iff_imp, decide_eq_true_eq]
      omega
    refine (hperm.filter _).trans (List.Perm.trans ?_ (hpermClient.filter _).symm)
    rw [filter_cons, filter_cons, hsame]
    split
    · exact (h.agrees l (by omega)).cons info
    · exact h.agrees l (by omega)

end Swept

theorem Merging.swept (h : Merging T S level client merged) (hT : 0 ≤ T) (hS : AllValid S)
    (hlayered : Layered S) (hlevel : level ≤ compactionTopLevel) :
    Swept T level client (supersede S [] merged).1 := by
  induction h with
  | start => exact ⟨hS, hlayered, nofun, fun l _ => .refl _⟩
  | skip h hskip ih => exact (ih (Nat.le_of_succ_le hlevel)).skip hT hskip
  | merge h hcount hne hinfo ih =>
    rw [supersede_append_one]
    exact (ih (Nat.le_of_succ_le hlevel)).merge hT hlevel hne hinfo

/-- **Compaction bounds the chain.** The plan for a layered snapshot is layered again, no level that
can be merged holds more files than the threshold, and no merge writes to the snapshot level,
whether the pass succeeds or not. -/
theorem planned_layered {B : Type} {files : List FileInfo} {threshold : ℤ}
    (hvalid : AllValid files) (hlayered : Layered files) :
    (∀ plan, Plans B files threshold plan → AllValid plan.updated ∧ Layered plan.updated ∧
      manifestNeedsCompaction plan.updated threshold = false ∧
      ∀ info ∈ plan.merged, info.level ≤ compactionTopLevel) ∧
    (compactManifest files threshold : RuntimeM B _).Only fun c =>
      ∃ level client, c = .compact level client ∧ 0 < level ∧ level < snapshotLevel := by
  constructor
  · intro plan h
    obtain ⟨⟨client, hmerging⟩, hplan⟩ := h.merging
    have hT : 0 ≤ effectiveThreshold threshold := by
      unfold effectiveThreshold
      split <;> omega
    have hswept := hmerging.swept hT hvalid hlayered le_rfl
    rw [hplan] at hswept
    refine ⟨hswept.valid, hswept.layered, ?_, fun info hinfo => (hmerging.mergedFrom hinfo).1⟩
    simp only [manifestNeedsCompaction, any_eq_false, mem_range, decide_eq_true_eq, not_lt]
    exact hswept.bounded
  · refine (compactManifest_levels files threshold).mono ?_
    rintro _ ⟨level, client, rfl, hpos, hle⟩
    exact ⟨level, client, rfl, hpos, Nat.lt_succ_of_le hle⟩

theorem planned_layered_cascade :
    (compactManifest cascade 1 :
        RuntimeM Unit _).Only (fun c =>
      ∃ level client, c = .compact level client ∧ 0 < level ∧ level < snapshotLevel) ∧
    ∃ plan, Plans Unit cascade 1 plan ∧
      plan.merged.length = 2 ∧ Layered plan.updated := by
  have hlayered : Layered cascade := ⟨by decide, by decide⟩
  obtain ⟨hall, honly⟩ := @planned_layered Unit _ 1 (by unfold AllValid HasKey; decide) hlayered
  exact ⟨honly, _, cascade_plans, rfl, (hall _ cascade_plans).2.1⟩

end Walrusd.Runtime
