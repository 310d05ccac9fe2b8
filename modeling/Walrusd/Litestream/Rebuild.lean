import Walrusd.Litestream.CachingClient
import Walrusd.Litestream.Database

/-!
# Rebuilding the manifest through the caching client

`BuildManifest` lists the levels `0` to `9` through the database's caching client, which lists level
`0` anew each time and answers for the others from cached listings that are young enough. A cached
listing is forgotten when a file of its level is written or deleted through the same client; what
other processes write and delete does not touch it. So the list that `BuildManifest` returns can be
one that the replica had some time ago.

The callers of one client interleave here, while other processes change the replica. For each caller
it is recorded which replicas it met and which cached listings it answered from. If the replica
stays as it is during a call of `BuildManifest`, then the call returns the names of its files if and
only if every cached listing that it answered from shows the names that the replica has on that
level.

## Main definitions

* `Survey` — what a caller met.
* `rebuildSystem` — the callers, and the other processes.

## Main results

* `buildManifest_exact_iff`.
* `buildManifest_omits` — a run that loses all files.
-/

namespace Walrusd.Litestream

open Program Function List Option

/-! ### The callers -/

/-- What a caller met: the replica at each of its steps, the cached listing that it is looking at,
and the cached listings that it answered from. -/
structure Survey where
  replicas : List Bucket
  looked : Option (ℕ × ListingEntry)
  used : ℕ → Option ListingEntry

/-- A caller that has not begun. -/
def Survey.idle : Survey := ⟨[], none, fun _ => none⟩

/-- The caller looks at the clock: a listing that is young enough is used. -/
def Survey.judge (cl : CachingClient) (s : Survey) (now : ℤ) : Survey :=
  match s.looked with
  | none => s
  | some (level, entry) =>
    if now - entry.time < cl.listingTTL then
      { s with looked := none, used := update s.used level (some entry) }
    else { s with looked := none }

/-- The survey after a step, on the replica `st`. -/
def Survey.step (cl : CachingClient) (s : Survey) (st : Bucket) :
    (c : CacheOp) → CacheResp c → Survey
  | .listing level, entry => ⟨st :: s.replicas, entry.map fun e => (level, e), s.used⟩
  | .now, now => { s with replicas := st :: s.replicas }.judge cl now
  | _, _ => { s with replicas := st :: s.replicas }

/-- What the caller was shown of a level, if the replica was `st`. -/
def Survey.view (s : Survey) (st : Bucket) (level : ℕ) : List FileInfo :=
  match s.used level with
  | none => st.list level 0
  | some entry => entry.infos

/-- The caches, the replica, and the surveys of the callers. -/
structure SurveyWorld (ι : Type) where
  inner : CacheWorld
  survey : ι → Survey

/-- What a caller does: it rebuilds the manifest, makes another call of the client, or forgets the
listings, as a compaction does. -/
inductive Visit
  | rebuild
  | method (call : ReplicaCall)
  | dropListings

/-- The program of a caller; only a rebuild returns something. -/
def CachingClient.visit (cl : CachingClient) : Visit → CacheM (Option (Except Err (List FileInfo)))
  | .rebuild => do
    let files ← buildManifest fun level => cl.ltxFiles level 0
    return some files
  | .method call => do
    let _ ← cl.method call
    return none
  | .dropListings => do
    does .dropListings
    return none

variable {ι : Type} [DecidableEq ι]
variable {w w' : CacheWorld} {c : CacheOp} {r : CacheResp c} {luck : Luck}

/-- The callers of one client, and other processes that change the replica in any way. -/
def rebuildSystem (cl : CachingClient) :
    System (SurveyWorld ι) ι CacheOp CacheResp (Option (Except Err (List FileInfo))) where
  start w _ p w' := (∃ v, p = cl.visit v) ∧ w' = w
  call w i c r w' := (∃ luck, w.inner.serve c luck = some (r, w'.inner)) ∧
    w'.survey = update w.survey i ((w.survey i).step cl w.inner.bucket c r)
  env w w' := ∃ st, w' = { w with inner := { w.inner with bucket := st } }

/-! ### The surveys of the methods -/

/-- The files of a list are all of one level. -/
def OfLevel (level : ℕ) (files : List FileInfo) : Prop := ∀ f ∈ files, f.level = level

theorem ofLevel_list (st : Bucket) (level seek : ℕ) : OfLevel level (st.list level seek) := by
  intro f hf
  have hlevel := (mem_filter.mp hf).2
  simp only [Bool.and_eq_true, decide_eq_true_eq] at hlevel
  exact hlevel.1

/-- What the methods keep to: a listing is cached for the level that it is of. -/
def Tagged : CacheOp → Prop
  | .setListing level entry => OfLevel level entry.infos
  | _ => True

/-- What the answers keep to: the inner client lists the replica. -/
def Shows (st : Bucket) : (c : CacheOp) → CacheResp c → Prop
  | .innerLTXFiles level seek, .ok files => files = st.list level seek
  | _, _ => True

theorem shows_of_serve (h : w.serve c luck = some (r, w')) : Shows w.bucket c r := by
  cases c with
  | innerLTXFiles level seek =>
    cases luck with
    | fails e =>
      cases h
      trivial
    | succeeds stamp =>
      cases h
      exact rfl
  | _ => trivial

/-- The protocol of the methods. -/
def surveying (cl : CachingClient) : Protocol CacheOp CacheResp Survey where
  allow _ c := Tagged c
  next s c r s' := ∃ st, Shows st c r ∧ s' = s.step cl st c r

/-- The replica was `st` all the time. -/
def Survey.Still (s : Survey) (st : Bucket) : Prop := ∀ st' ∈ s.replicas, st' = st

section Methods

variable {cl : CachingClient} {s : Survey} {st : Bucket}

theorem Survey.replicas_step (c : CacheOp) (r : CacheResp c) :
    (s.step cl st c r).replicas = st :: s.replicas := by
  cases c with
  | now =>
    simp only [Survey.step, Survey.judge]
    split
    · rfl
    · split <;> rfl
  | _ => rfl

theorem Survey.Still.of_step {st' : Bucket} {c : CacheOp} {r : CacheResp c}
    (h : (s.step cl st c r).Still st') : st = st' ∧ s.Still st' := by
  rw [Survey.Still, Survey.replicas_step] at h
  exact ⟨h st mem_cons_self, fun st'' hst => h st'' (mem_cons_of_mem _ hst)⟩

/-- What listing the level `level` does to a survey: only that level can be answered from a cached
listing, and the result is what the survey shows of it. -/
structure Survey.Lists (s : Survey) (level seek : ℕ) (s' : Survey)
    (res : Except Err (List FileInfo)) : Prop where
  looked : s'.looked = none
  others : ∀ l, l ≠ level → s'.used l = s.used l
  still : ∀ st, s'.Still st → s.Still st
  result : ∀ st, s'.Still st → ∀ files, res = .ok files → files = filterFrom (s'.view st level) seek

theorem refreshListing_surveys (level seek : ℕ) (hlooked : s.looked = none)
    (hused : s.used level = none) :
    (CachingClient.refreshListing level seek).Obeys (surveying cl) (s.Lists level seek) s := by
  refine .perform trivial ?_
  rintro (e | infos) _ ⟨st₁, hshows, rfl⟩
  · exact ⟨hlooked, fun _ _ => rfl, fun _ h => h.of_step.2, by rintro _ _ _ ⟨⟩⟩
  obtain rfl : infos = st₁.list level 0 := hshows
  refine .perform trivial ?_
  rintro now _ ⟨st₂, -, rfl⟩
  refine .perform (ofLevel_list st₁ level 0) ?_
  rintro _ _ ⟨st₃, -, rfl⟩
  -- nothing is looked at, so the clock is read for the new listing only
  have hjudge : ({ s with replicas := st₂ :: st₁ :: s.replicas }.judge cl now) =
      { s with replicas := st₂ :: st₁ :: s.replicas } := by
    simp only [Survey.judge, hlooked]
  simp only [Survey.step, hjudge]
  refine ⟨hlooked, fun _ _ => rfl, fun st h st' hst => h st' (by simp [hst]), ?_⟩
  intro st h files hfiles
  cases hfiles
  obtain rfl : st₁ = st := h st₁ (by simp)
  simp [Survey.view, hused]

theorem ltxFiles_surveys (level seek : ℕ) (hlooked : s.looked = none)
    (hused : s.used level = none) :
    (cl.ltxFiles level seek).Obeys (surveying cl) (s.Lists level seek) s := by
  unfold CachingClient.ltxFiles
  split
  · refine Prog.obeys_perform.mpr ⟨trivial, ?_⟩
    rintro (e | infos) _ ⟨st₁, hshows, rfl⟩
    · exact ⟨hlooked, fun _ _ => rfl, fun _ h => h.of_step.2, by rintro _ _ _ ⟨⟩⟩
    refine ⟨hlooked, fun _ _ => rfl, fun _ h => h.of_step.2, fun st h files hfiles => ?_⟩
    cases hfiles
    obtain rfl := h.of_step.1
    obtain rfl : infos = st₁.list level seek := hshows
    simp [Survey.view, Survey.step, hused, filterFrom_list]
  · refine .perform trivial ?_
    rintro (_ | entry) _ ⟨st₁, -, rfl⟩
    · have hrefresh := @refreshListing_surveys cl ⟨st₁ :: s.replicas, none, s.used⟩ level seek rfl
        hused
      refine hrefresh.mono fun s' res h => ⟨h.looked, h.others, fun st hst => ?_, h.result⟩
      exact fun st' hst' => h.still st hst st' (mem_cons_of_mem _ hst')
    · refine .perform trivial ?_
      rintro now _ ⟨st₂, -, rfl⟩
      simp only [Survey.step, Survey.judge, map_some]
      split
      · next hyoung =>
        refine ⟨rfl, fun l hl => update_of_ne hl .., fun st h st' hst => ?_, ?_⟩
        · exact h st' (mem_cons_of_mem _ (mem_cons_of_mem _ hst))
        intro st h files hfiles
        cases hfiles
        simp [Survey.view]
      · have hrefresh := @refreshListing_surveys cl ⟨st₂ :: st₁ :: s.replicas, none, s.used⟩ level
          seek rfl hused
        refine hrefresh.mono fun s' res h => ⟨h.looked, h.others, fun st hst => ?_, h.result⟩
        exact fun st' hst' => h.still st hst st' (mem_cons_of_mem _ (mem_cons_of_mem _ hst'))

/-- The loop of `BuildManifest` over levels that have not been listed. -/
theorem buildLevels_surveys {levels : List ℕ} (hnodup : levels.Nodup) (files : List FileInfo)
    (hlooked : s.looked = none) (hused : ∀ level ∈ levels, s.used level = none) :
    (buildLevels (fun level => cl.ltxFiles level 0) levels files).Obeys (surveying cl)
      (fun s' res => (∀ level ∉ levels, s'.used level = s.used level) ∧
        (∀ st, s'.Still st → s.Still st) ∧
        ∀ st, s'.Still st → ∀ out, res = .ok out → out = files ++ levels.flatMap (s'.view st))
      s := by
  induction levels generalizing s files with
  | nil =>
    refine ⟨fun _ _ => rfl, fun _ h => h, fun st _ out hout => ?_⟩
    cases hout
    simp
  | cons level levels ih =>
    obtain ⟨hnot, hnodup⟩ := nodup_cons.mp hnodup
    refine (ltxFiles_surveys level 0 hlooked (hused level mem_cons_self)).bind ?_
    rintro s₁ (e | found) h₁
    · refine ⟨fun l hl => h₁.others l fun heq => hl (heq ▸ mem_cons_self), h₁.still, ?_⟩
      rintro _ _ _ ⟨⟩
    have hused₁ : ∀ l ∈ levels, s₁.used l = none := by
      intro l hl
      rw [h₁.others l (fun heq => hnot (heq ▸ hl))]
      exact hused l (mem_cons_of_mem _ hl)
    refine (ih hnodup (files ++ found) h₁.looked hused₁).mono ?_
    rintro s' res ⟨hothers, hstill, hres⟩
    refine ⟨fun l hl => ?_, fun st hst => h₁.still st (hstill st hst), fun st hst out hout => ?_⟩
    · obtain ⟨hne, hl⟩ := not_or.mp fun h => hl (mem_cons.mpr h)
      rw [hothers l hl, h₁.others l hne]
    have hfound := h₁.result st (hstill st hst) found rfl
    have hview : s₁.view st level = s'.view st level := by
      simp only [Survey.view, hothers level hnot]
    rw [hres st hst out hout, hfound, hview, flatMap_cons, append_assoc]
    rfl

/-- A program that caches no listing. -/
theorem surveys_of_only {α : Type} {p : CacheM α} (h : p.Only Tagged) :
    p.Keeps (surveying cl) s := h.safe fun _ _ hc => hc

theorem cacheData_tagged (k : FileKey) (data : List UInt8) : (cl.cacheData k data).Only Tagged := by
  unfold CachingClient.cacheData
  split
  · exact Prog.only_perform trivial
  · trivial

theorem openLTXFile_tagged (k : FileKey) (offset : ℕ) (size : ℤ) :
    (cl.openLTXFile k offset size).Only Tagged := by
  unfold CachingClient.openLTXFile
  split
  · refine .perform trivial ?_
    rintro (_ | data)
    · refine .perform trivial ?_
      rintro (e | data)
      · trivial
      · exact (cacheData_tagged k data).bind fun _ => trivial
    · trivial
  · exact Prog.only_perform trivial

theorem writeLTXFile_tagged (k : FileKey) (input : List UInt8) :
    (cl.writeLTXFile k input).Only Tagged := by
  refine .perform trivial fun _ => ?_
  split
  · refine .perform trivial ?_
    rintro (e | data)
    · trivial
    refine .perform trivial fun _ => .perform trivial ?_
    rintro (e | info)
    · trivial
    · exact (cacheData_tagged k data).bind fun _ => trivial
  · exact Prog.only_perform trivial

theorem dropFiles_tagged (files : List FileInfo) : (cl.dropFiles files).Only Tagged := by
  induction files with
  | nil => trivial
  | cons f files ih =>
    unfold CachingClient.dropFiles
    split
    · exact .perform trivial fun _ => .perform trivial fun _ => ih
    · exact .perform trivial fun _ => ih

theorem deleteAll_tagged : cl.deleteAll.Only Tagged := by
  have hinner : (do does .dropListings; does .innerDeleteAll : CacheM (Option Err)).Only Tagged :=
    .perform trivial fun _ => Prog.only_perform trivial
  unfold CachingClient.deleteAll
  split
  · exact .perform trivial fun _ => hinner
  · exact hinner

theorem method_surveys (call : ReplicaCall) : (cl.method call).Keeps (surveying cl) .idle := by
  cases call with
  | ltxFiles level seek => exact (ltxFiles_surveys level seek rfl rfl).mono fun _ _ _ => trivial
  | openLTXFile k offset size => exact surveys_of_only (openLTXFile_tagged k offset size)
  | writeLTXFile k input => exact surveys_of_only (writeLTXFile_tagged k input)
  | deleteLTXFiles files =>
    exact surveys_of_only ((dropFiles_tagged files).bind fun _ => Prog.only_perform trivial)
  | deleteAll => exact surveys_of_only deleteAll_tagged

/-- A caller whose result is a list of files has rebuilt the manifest, and the list is what it was
shown of the levels. -/
theorem visit_surveys (v : Visit) :
    (cl.visit v).Obeys (surveying cl) (fun s res => ∀ st, s.Still st → ∀ files,
      res = some (.ok files) →
        files = (List.range (snapshotLevel + 1)).flatMap (s.view st)) .idle := by
  cases v with
  | rebuild =>
    refine (buildLevels_surveys nodup_range [] rfl fun _ _ => rfl).bind ?_
    rintro s res ⟨-, -, hres⟩ st hst files hfiles
    exact hres st hst files (some.inj hfiles)
  | method call =>
    refine (method_surveys call).bind fun s res _ => ?_
    rintro _ _ _ ⟨⟩
  | dropListings =>
    refine .perform trivial ?_
    rintro _ _ - _ _ _ ⟨⟩

end Methods

/-! ### The invariant -/

/-- Listings are of the level that they are cached for, also those that a caller looked at or
answered from. -/
structure Survey.Proper (s : Survey) : Prop where
  looked : ∀ level entry, s.looked = some (level, entry) → OfLevel level entry.infos
  used : ∀ level entry, s.used level = some entry → OfLevel level entry.infos

/-- The same for the cached listings. -/
def ProperListings (listings : ℕ → Option ListingEntry) : Prop :=
  ∀ level entry, listings level = some entry → OfLevel level entry.infos

theorem Survey.proper_idle : Survey.idle.Proper := ⟨by rintro _ _ ⟨⟩, by rintro _ _ ⟨⟩⟩

theorem Survey.Proper.judge {cl : CachingClient} {s : Survey} (h : s.Proper) (now : ℤ) :
    (s.judge cl now).Proper := by
  unfold Survey.judge
  split
  · exact h
  · next level entry hlooked =>
    split
    · refine ⟨by rintro _ _ ⟨⟩, fun l e he => ?_⟩
      by_cases hl : l = level
      · subst hl
        simp only [update_self, some.injEq] at he
        exact he ▸ h.looked l entry hlooked
      · simp only [update_of_ne hl] at he
        exact h.used l e he
    · exact ⟨by rintro _ _ ⟨⟩, h.used⟩

theorem Survey.Proper.step {cl : CachingClient} {s : Survey} (h : s.Proper)
    (hlistings : ProperListings w.listings) (hserve : w.serve c luck = some (r, w')) (st : Bucket) :
    (s.step cl st c r).Proper := by
  cases c with
  | listing level =>
    cases hserve
    refine ⟨fun l e he => ?_, h.used⟩
    obtain ⟨entry, hentry, heq⟩ := map_eq_some_iff.mp he
    obtain ⟨rfl, rfl⟩ := Prod.mk.inj heq
    exact hlistings level entry hentry
  | now =>
    have hproper : Survey.Proper { s with replicas := st :: s.replicas } := ⟨h.looked, h.used⟩
    exact hproper.judge r
  | _ => exact ⟨h.looked, h.used⟩

theorem ProperListings.serve (h : ProperListings w.listings) (hallow : Tagged c)
    (hserve : w.serve c luck = some (r, w')) : ProperListings w'.listings := by
  cases c with
  | setListing level entry =>
    cases hserve
    intro l e he
    by_cases hl : l = level
    · subst hl
      simp only [update_self, some.injEq] at he
      exact he ▸ hallow
    · simp only [update_of_ne hl] at he
      exact h l e he
  | dropLevel level =>
    cases hserve
    intro l e he
    by_cases hl : l = level
    · subst hl
      simp at he
    · simp only [update_of_ne hl] at he
      exact h l e he
  | dropListings =>
    cases hserve
    rintro l e ⟨⟩
  | get | put | drop | dropDB | listing =>
    cases hserve
    exact h
  | now =>
    cases luck with
    | fails => cases hserve
    | succeeds stamp =>
      cases hserve
      exact h
  | innerOpenLTXFile k offset size =>
    cases luck with
    | fails e =>
      cases hserve
      exact h
    | succeeds stamp =>
      obtain ⟨b, -, heq⟩ := map_eq_some_iff.mp hserve
      cases heq
      exact h
  | _ =>
    cases luck with
    | fails e | succeeds e =>
      cases hserve
      exact h

/-- What the callers and the caches keep to. -/
structure Surveyed (w : SurveyWorld ι) : Prop where
  listings : ProperListings w.inner.listings
  surveys : ∀ i, (w.survey i).Proper

/-- In every reachable state listings are of their level, and a caller that has rebuilt the manifest
returned what it was shown of the levels. -/
theorem surveyed_of_reachable {cl : CachingClient} {w₀ : SurveyWorld ι}
    (hidle : ∀ i, w₀.survey i = .idle) (hlistings : ∀ level, w₀.inner.listings level = none)
    {a : Pool (SurveyWorld ι) ι CacheOp CacheResp (Option (Except Err (List FileInfo)))}
    (ha : (rebuildSystem cl).Reachable w₀ a) :
    Surveyed a.world ∧ ∀ i files, a.procs i = some (.done (some (.ok files))) →
      ∀ st, (a.world.survey i).Still st →
        files = (List.range (snapshotLevel + 1)).flatMap ((a.world.survey i).view st) := by
  have hw₀ : Surveyed w₀ := by
    refine ⟨fun level entry hentry => ?_, fun i => ?_⟩
    · rw [hlistings level] at hentry
      cases hentry
    · rw [hidle i]
      exact Survey.proper_idle
  have hinv := ha.invariant_knowing (surveying cl)
    (fun _ s res => ∀ st, s.Still st → ∀ files, res = some (.ok files) →
      files = (List.range (snapshotLevel + 1)).flatMap (s.view st))
    (fun w g => g = w.survey ∧ Surveyed w) (K := fun _ => True) w₀.survey (fun _ _ => trivial)
    ⟨rfl, hw₀⟩ ?_ ?_ ?_
  · obtain ⟨g, ⟨rfl, hw⟩, hobeys, -⟩ := hinv
    exact ⟨hw, fun i files hi st hst => hobeys i _ hi st hst files rfl⟩
  · rintro w g i p w' - ⟨rfl, hw⟩ hi ⟨⟨v, rfl⟩, rfl⟩
    refine ⟨.idle, visit_surveys v, ?_, hw⟩
    rw [hidle i] at hi
    rw [← hi, update_eq_self]
  · rintro w g i c r w' - ⟨rfl, hw⟩ hallow ⟨⟨luck, hserve⟩, hsurvey⟩
    refine ⟨_, ⟨w.inner.bucket, shows_of_serve hserve, rfl⟩, hsurvey.symm, ?_, ?_⟩
    · exact hw.listings.serve hallow hserve
    rw [hsurvey]
    refine (forall_update_iff w.survey fun _ s => s.Proper).mpr ⟨?_, fun j _ => ?_⟩
    · exact (hw.surveys i).step hw.listings hserve _
    · exact hw.surveys j
  · rintro w g w' - ⟨rfl, hw⟩ ⟨st, rfl⟩
    exact ⟨rfl, hw.listings, hw.surveys⟩

/-! ### Completeness of the rebuilt manifest -/

theorem hasKey_list {st : Bucket} {k : FileKey} {level : ℕ} :
    HasKey (st.list level 0) k ↔ k.level = level ∧ HasKey st.infos k := by
  simp only [hasKey_iff, Bucket.list, mem_filter, Bool.and_eq_true, decide_eq_true_eq]
  constructor
  · rintro ⟨f, ⟨hf, hlevel, -⟩, rfl⟩
    exact ⟨hlevel, f, hf, rfl⟩
  · rintro ⟨hlevel, f, hf, rfl⟩
    exact ⟨f, ⟨hf, hlevel, Nat.zero_le _⟩, rfl⟩

theorem OfLevel.level_of_hasKey {level : ℕ} {files : List FileInfo} (h : OfLevel level files)
    {k : FileKey} (hk : HasKey files k) : k.level = level := by
  obtain ⟨f, hf, rfl⟩ := hasKey_iff.mp hk
  exact h f hf

theorem Survey.Proper.ofLevel_view {s : Survey} (h : s.Proper) (st : Bucket) (level : ℕ) :
    OfLevel level (s.view st level) := by
  unfold Survey.view
  split
  · exact ofLevel_list st level 0
  · next entry hentry => exact h.used level entry hentry

theorem Survey.Proper.hasKey_flatMap_view {s : Survey} (h : s.Proper) (st : Bucket)
    (levels : List ℕ) (k : FileKey) :
    HasKey (levels.flatMap (s.view st)) k ↔ k.level ∈ levels ∧ HasKey (s.view st k.level) k := by
  constructor
  · intro hk
    obtain ⟨f, hf, rfl⟩ := hasKey_iff.mp hk
    obtain ⟨level, hlevel, hf⟩ := mem_flatMap.mp hf
    obtain rfl := h.ofLevel_view st level f hf
    exact ⟨hlevel, hasKey_of_mem hf⟩
  · rintro ⟨hlevel, hk⟩
    obtain ⟨f, hf, rfl⟩ := hasKey_iff.mp hk
    exact hasKey_of_mem (mem_flatMap.mpr ⟨_, hlevel, hf⟩)

/-- **When a rebuilt manifest is complete.** In every run of any number of callers of one client,
with other processes changing the replica at will: if a call of `BuildManifest` succeeded and met
the same replica at all of its steps, then it returned the names of the files that the replica holds
exactly if every cached listing that was young enough to be answered from shows the names that the
replica holds on its level. -/
theorem buildManifest_exact_iff {cl : CachingClient} {w₀ : SurveyWorld ι}
    (hidle : ∀ i, w₀.survey i = .idle) (hlistings : ∀ level, w₀.inner.listings level = none)
    {a : Pool (SurveyWorld ι) ι CacheOp CacheResp (Option (Except Err (List FileInfo)))}
    (ha : (rebuildSystem cl).Reachable w₀ a) {i : ι} {files : List FileInfo}
    (hi : a.procs i = some (.done (some (.ok files)))) {st : Bucket}
    (hstill : (a.world.survey i).Still st) :
    (∀ k, HasKey files k ↔ k.level ≤ snapshotLevel ∧ HasKey st.infos k) ↔
      ∀ level ≤ snapshotLevel, ∀ entry, (a.world.survey i).used level = some entry →
        ∀ k, HasKey entry.infos k ↔ HasKey (st.list level 0) k := by
  obtain ⟨hw, hreturned⟩ := surveyed_of_reachable hidle hlistings ha
  have hproper := hw.surveys i
  have hfiles (k : FileKey) : HasKey files k ↔
      k.level ≤ snapshotLevel ∧ HasKey ((a.world.survey i).view st k.level) k := by
    rw [hreturned i files hi st hstill, hproper.hasKey_flatMap_view, mem_range, Nat.lt_succ_iff]
  constructor
  · intro hexact level hlevel entry hentry k
    have hview : (a.world.survey i).view st level = entry.infos := by
      simp only [Survey.view, hentry]
    rw [hasKey_list]
    constructor
    · intro hk
      obtain rfl := (hproper.used level entry hentry).level_of_hasKey hk
      exact ⟨rfl, ((hexact k).mp ((hfiles k).mpr ⟨hlevel, hview ▸ hk⟩)).2⟩
    · rintro ⟨rfl, hk⟩
      exact hview ▸ ((hfiles k).mp ((hexact k).mpr ⟨hlevel, hk⟩)).2
  · intro hcurrent k
    rw [hfiles k]
    refine and_congr_right fun hlevel => ?_
    cases hentry : (a.world.survey i).used k.level with
    | none => simp [Survey.view, hentry, hasKey_list]
    | some entry =>
      simp only [Survey.view, hentry]
      rw [hcurrent k.level hlevel entry hentry k, hasKey_list]
      simp

/-- The runs that scripts describe. -/
def rebuildInterpreter (cl : CachingClient) :
    Interpreter (@rebuildSystem ι _ cl) Visit Luck Bucket where
  start w _ v := some (cl.visit v, w)
  call w i c luck := (w.inner.serve c luck).map fun s =>
    (s.1, ⟨s.2, update w.survey i ((w.survey i).step cl w.inner.bucket c s.1)⟩)
  env w st := some { w with inner := { w.inner with bucket := st } }
  start_sound h := by
    cases h
    exact ⟨⟨_, rfl⟩, rfl⟩
  call_sound h := by
    obtain ⟨s, hs, heq⟩ := map_eq_some_iff.mp h
    obtain ⟨rfl, rfl⟩ := Prod.mk.inj heq
    exact ⟨⟨_, hs⟩, rfl⟩
  env_sound h := ⟨_, (some.inj h).symm⟩

namespace Rebuilding

/-- A client that trusts a listing for sixty units of time. -/
def client : CachingClient := ⟨"db", false, 60⟩

/-- Two files of level `0`. -/
def small : Bucket := ⟨[⟨⟨0, 1, 1, 1, 10⟩, [7]⟩, ⟨⟨0, 2, 2, 1, 20⟩, [8]⟩], by decide⟩

/-- The file of level `1` that they are merged into. -/
def merged : Bucket := ⟨[⟨⟨1, 1, 2, 2, 30⟩, [7, 8]⟩], by decide⟩

/-- Nothing is cached. -/
def start (st : Bucket) : SurveyWorld (Fin 2) := ⟨⟨st, .new 0, fun _ => none⟩, fun _ => .idle⟩

/-- The pools of a script. -/
abbrev State :=
  Pool (SurveyWorld (Fin 2)) (Fin 2) CacheOp CacheResp (Option (Except Err (List FileInfo)))

/-- The moves of a script. -/
abbrev Moves := List (Move (Fin 2) Visit Luck Bucket)

/-- A caller makes steps that succeed. -/
def steps (i : Fin 2) (n : ℕ) (now : ℤ) : Moves := List.replicate n (.call i (.succeeds now))

/-- Level `1` is listed, and some time later the manifest is rebuilt; the replica changes in between
to `st`. -/
def rebuilt (st : Bucket) : Moves :=
  .start 0 (.method (.ltxFiles 1 0)) :: steps 0 4 40 ++ .env st :: .start 1 .rebuild ::
    steps 1 35 50

/-- The result of the second caller, and the cached listings that it answered from. -/
structure View where
  outcome : Option (Option (Option (List FileInfo)))
  used : List (Option ListingEntry)
  stored : List Blob
  met : List (List Blob)
  deriving DecidableEq

/-- The view of a pool. -/
def view (a : State) : View where
  outcome := (a.outcome 1).map fun res => res.map Except.toOption
  used := (List.range (snapshotLevel + 1)).map (a.world.survey 1).used
  stored := a.world.inner.bucket.blobs
  met := (a.world.survey 1).replicas.map Bucket.blobs

theorem still_of_met {s : Survey} {st : Bucket} {n : ℕ}
    (h : s.replicas.map Bucket.blobs = List.replicate n st.blobs) : s.Still st := by
  intro st' hst'
  have hblobs : st'.blobs = st.blobs := eq_of_mem_replicate (h ▸ List.mem_map_of_mem hst')
  cases st'
  cases st
  cases hblobs
  rfl

/-- Only level `1` is answered from a cached listing. -/
def onlyOne (entry : ListingEntry) (level : ℕ) : Option ListingEntry :=
  if level = 1 then some entry else none

theorem procs_of_view {a : State} {files : List FileInfo}
    (h : (view a).outcome = some (some (some files))) :
    a.procs 1 = some (.done (some (.ok files))) := by
  obtain ⟨res, hres, hmap⟩ := map_eq_some_iff.mp h
  obtain ⟨x, rfl, hx⟩ := map_eq_some_iff.mp hmap
  cases x with
  | error e => cases hx
  | ok files' =>
    obtain rfl : files' = files := some.inj hx
    exact Pool.procs_of_outcome hres

end Rebuilding

open Rebuilding in
/-- The replica stays as it is, and level `1` is answered from the cached listing. -/
theorem buildManifest_exact_cached : ∃ (a : State) (files : List FileInfo),
    (rebuildSystem client).Reachable (start merged) a ∧
      a.procs 1 = some (.done (some (.ok files))) ∧
      (a.world.survey 1).used 1 = some ⟨[⟨1, 1, 2, 2, 30⟩], 40⟩ ∧
      ∀ k, HasKey files k ↔ k.level ≤ snapshotLevel ∧ HasKey merged.infos k := by
  have hview : ((rebuildInterpreter client).exec (start merged) (rebuilt merged)).map view =
      some ⟨some (some (some [⟨1, 1, 2, 2, 30⟩])),
        (List.range (snapshotLevel + 1)).map (onlyOne ⟨[⟨1, 1, 2, 2, 30⟩], 40⟩), merged.blobs,
        List.replicate 35 merged.blobs⟩ := by decide +kernel
  obtain ⟨a, ha, heq⟩ := map_eq_some_iff.mp hview
  have hreach := Interpreter.exec_reachable _ ha
  have hprocs := procs_of_view (congrArg View.outcome heq)
  have hused : ∀ level ≤ snapshotLevel,
      (a.world.survey 1).used level = onlyOne ⟨[⟨1, 1, 2, 2, 30⟩], 40⟩ level := by
    intro level hlevel
    exact map_inj_left.mp (congrArg View.used heq) level
      (mem_range.mpr (Nat.lt_succ_iff.mpr hlevel))
  refine ⟨a, _, hreach, hprocs, hused 1 (by decide), ?_⟩
  refine (buildManifest_exact_iff (fun _ => rfl) (fun _ => rfl) hreach hprocs
    (still_of_met (congrArg View.met heq))).mpr ?_
  intro level hlevel entry hentry k
  rw [hused level hlevel, onlyOne] at hentry
  split at hentry
  · next hone =>
    subst hone
    cases hentry
    exact Iff.rfl
  · cases hentry

open Rebuilding in
/-- Another process merges the two files of the replica into one and deletes them. The listing of
level `1` is still trusted, so the rebuilt manifest is empty. -/
theorem buildManifest_omits : ∃ a : State, (rebuildSystem client).Reachable (start small) a ∧
    a.procs 1 = some (.done (some (.ok []))) ∧ (a.world.survey 1).Still merged ∧
    HasKey merged.infos ⟨1, 1, 2⟩ := by
  have hview : ((rebuildInterpreter client).exec (start small) (rebuilt merged)).map view =
      some ⟨some (some (some [])), (List.range (snapshotLevel + 1)).map (onlyOne ⟨[], 40⟩),
        merged.blobs, List.replicate 35 merged.blobs⟩ := by decide +kernel
  obtain ⟨a, ha, heq⟩ := map_eq_some_iff.mp hview
  exact ⟨a, Interpreter.exec_reachable _ ha, procs_of_view (congrArg View.outcome heq),
    still_of_met (congrArg View.met heq), by decide⟩

end Walrusd.Litestream
