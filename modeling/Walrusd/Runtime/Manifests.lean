import Walrusd.Runtime.Runs

/-!
# The stored manifest along runs of a cluster

Only the PUTs of processes change the stored manifest, and a process stores a listing, the file
list of its session or a merge (`Cluster.Posts`). A process that holds the write lease and has read
the manifest since then knows the stored one (`Cluster.Current`), as long as nobody else stores a
manifest in the meantime. Statements about what the database contains refer to its index: the files
of the manifest, or all objects while there is none.

## Main definitions

* `Cluster.Posts`, `Cluster.Current`.
* `Cluster.index`.

## Main results

* `Cluster.Answers.manifest_cases` — what a call does to the manifest.
* `Cluster.Current.call`.
-/

namespace Walrusd.Runtime

open Program Litestream Option

namespace Cluster

variable {B : Type} {P : Setup B} {w w' : Cluster B} {i j : ℕ} {T : Task} {c : Op B} {r : Resp c}
variable {data : B} {files : List FileInfo} {m : Seen}

/-! ### Stored manifests -/

/-- The process `i` stores the manifest `files`. -/
structure Posts (P : Setup B) (w : Cluster B) (i : ℕ) (files : List FileInfo) (w' : Cluster B) :
    Prop where
  live : w.Alive i
  write : (w.track i).write = true
  valid : AllValid files
  source : (w.track i).Rebuilt files ∨ (w.track i).Committed files ∨ (w.track i).Merged files ∨
    (w.track i).Emptied files
  stores : ∃ decoded, w'.manifest P = some decoded ∧ (∀ f ∈ decoded, f ∈ files) ∧
    ∀ k, HasKey decoded k ↔ HasKey files k
  objects : w'.storage.replica.objects = w.storage.replica.objects

theorem manifest_congr (h : w'.storage.replica.manifest = w.storage.replica.manifest) :
    w'.manifest P = w.manifest P := by
  rw [manifest, manifest, h]

theorem manifest_of_data (h : w.storage.replica.manifest = some data)
    (hdata : decodeManifest P.json data = .ok files) : w.manifest P = some files := by
  simp [manifest, h, hdata, Except.toOption]

theorem manifest_eq_none (h : w.storage.replica.manifest = none) : w.manifest P = none := by
  simp [manifest, h]

/-- A manifest object that exists can be read. -/
theorem Facts.manifest_ne_none (h : w.Facts P) (hsome : w.storage.replica.manifest ≠ none) :
    ∃ files, w.manifest P = some files := by
  obtain ⟨data, hdata⟩ := ne_none_iff_exists'.mp hsome
  obtain ⟨files, hfiles⟩ := h.proper.decodes data hdata
  exact ⟨files, manifest_of_data hdata hfiles⟩

theorem decodeManifest_of_manifest (h : w.manifest P = some files) :
    ∃ data, decodeManifest P.json data = .ok files := by
  obtain ⟨data, -, hdata⟩ := bind_eq_some_iff.mp h
  refine ⟨data, ?_⟩
  cases hdecode : decodeManifest P.json data with
  | error e => simp [hdecode, Except.toOption] at hdata
  | ok decoded => simpa [hdecode, Except.toOption] using hdata

theorem manifest_valid (h : w.manifest P = some files) : AllValid files :=
  have ⟨_, hdecode⟩ := decodeManifest_of_manifest h
  (decodeManifest_valid P.json hdecode).1

theorem posts_of_store (hallow : (w.track i).Allows P.json (.manifestPut data))
    (hT : w.tasks i = some T) (hlive : w.Live T)
    (hstore : w'.storage.replica = w.storage.replica.store data) :
    ∃ files, w.Posts P i files w' := by
  obtain ⟨hwrite, files, hdata, hvalid, hsource⟩ := hallow
  obtain ⟨decoded, hdecode, hmem, hkeys⟩ := decodeManifest_encodeManifest P.json hvalid hdata
  refine ⟨files, ⟨T, hT, hlive⟩, hwrite, hvalid, hsource,
    ⟨decoded, manifest_of_data ?_ hdecode, hmem, hkeys⟩, ?_⟩
  · rw [hstore]
    rfl
  · rw [hstore]
    rfl

theorem Answers.put_posts (hallow : (w.track i).Allows P.json (.manifestPut data))
    (hcall : w.Answers P i (.manifestPut data) none w') : ∃ files, w.Posts P i files w' := by
  obtain ⟨T, st, write, pass, hT, -, hanswers, -, -, hbound, rfl⟩ := hcall
  obtain rfl : st = _ := hanswers
  rcases hbound rfl with hlive | ⟨hfailed, -⟩
  · exact posts_of_store hallow hT hlive replica_after
  · cases hfailed

/-- **What a call does to the manifest.** -/
theorem Answers.manifest_cases (hallow : w.Permits P i c) (hcall : w.Answers P i c r w') :
    w'.storage.replica.manifest = w.storage.replica.manifest ∨
      ∃ data files, c = .manifestPut data ∧ w.Posts P i files w' := by
  obtain ⟨T, st, write, pass, hT, -, hanswers, -, -, hbound, rfl⟩ := hcall
  rw [replica_after]
  rcases hanswers.replica_cases with heq | ⟨data, rfl, heq⟩ | ⟨site, files, gone, -, -, heq⟩ |
    ⟨level, files, info, -, -, heq⟩ | ⟨s, ses, info, -, -, -, heq⟩
  · exact .inl (congrArg Replica.manifest heq)
  · rcases hbound rfl with hlive | ⟨-, rfl, -⟩
    · obtain ⟨files, hposts⟩ := posts_of_store hallow hT hlive (replica_after.trans heq)
      exact .inr ⟨data, files, rfl, hposts⟩
    · exact .inl rfl
  all_goals
    refine .inl ?_
    rw [heq]
    rfl

/-! ### The manifest that the holder of the write lease knows -/

/-- The holder of the write lease that has read or stored a manifest knows the stored one. -/
def Current (P : Setup B) (w : Cluster B) : Prop :=
  ∀ i m, w.writeLease.holder = some i → (w.track i).write = true →
    (w.track i).current = some m → w.manifest P = m

/-- A process that holds the write lease after a call held it before, unless it acquired it. -/
theorem Answers.holder_before (hcall : w.Answers P i c r w') (hj : w'.writeLease.holder = some j) :
    w.writeLease.holder = some j ∨ j = i ∧ ∃ id key, c = .acquire id key := by
  obtain ⟨T, st, write, pass, -, -, -, hstep, -, -, rfl⟩ := hcall
  have hacquired : ∀ {now skew earliest}, w.writeLease.Acquired i now skew earliest write →
      j = i := fun h => (some.inj (h.2.1.symm.trans hj)).symm
  have hreleased : w.writeLease.Released i write → False := by
    rintro ⟨-, rfl⟩
    cases hj
  cases c with
  | acquire id key =>
    cases r with
    | ok held => exact .inr ⟨hacquired hstep, id, key, rfl⟩
    | error e =>
      rcases hstep with rfl | hstep
      · exact .inl hj
      · exact .inr ⟨hacquired hstep, id, key, rfl⟩
  | release held cancellable =>
    cases r with
    | none => exact (hreleased hstep).elim
    | some e =>
      rcases hstep with rfl | hstep
      · exact .inl hj
      · exact (hreleased hstep).elim
  | _ => exact .inl ((congrArg Cell.holder (show write = w.writeLease from hstep)).symm.trans hj)

theorem manifest_of_shownData (h : w.storage.replica.manifest = some data)
    (hm : shownManifest P.json (.ok data) = some m) : w.manifest P = m := by
  simp only [shownManifest] at hm
  split at hm
  · next files hfiles =>
    cases hm
    exact manifest_of_data h hfiles
  · cases hm

theorem manifest_of_shown {res : Except Err B} {st : Storage B}
    (hanswers : w.storage.Answers .manifestGet res st) (hm : shownManifest P.json res = some m) :
    w.manifest P = m := by
  cases res with
  | ok data => exact manifest_of_shownData hanswers.2 hm
  | error e =>
    simp only [shownManifest] at hm
    split at hm
    · next hfound =>
      cases hm
      exact manifest_eq_none (hanswers.2 hfound)
    · cases hm

/-- The write lease is not believed to be held before it is acquired. -/
theorem write_before {s : Track} (hw : (s.step P.json c r).write = true)
    (hc : ∀ id key, c ≠ .acquire id key) : s.write = true := by
  have hfollows := (lease_follows P.json s c r).1
  cases c with
  | acquire id key => exact absurd rfl (hc id key)
  | release held cancellable => cases cancellable <;> cases r <;> cases hw
  | _ => exact hfollows hw

section

variable (h : w.Current P) (hallow : w.Permits P i c) (hcall : w.Answers P i c r w')
include h hallow hcall

theorem Current.call_self (hholder : w'.writeLease.holder = some i)
    (hw : ((w.track i).step P.json c r).write = true)
    (hm : ((w.track i).step P.json c r).current = some m) : w'.manifest P = m := by
  have hbefore := hcall.holder_before hholder
  have hcases := hcall.manifest_cases hallow
  cases c with
  | acquire id key =>
    have hcurrent := ((w.track i).step_frame P.json _ r).manifest (by rintro ⟨⟩) (by rintro ⟨⟩)
    rw [hcurrent.2.1, hallow.current] at hm
    cases hm
  | manifestGet =>
    have hwrite : (w.track i).write = true := write_before hw (by rintro _ _ ⟨⟩)
    obtain ⟨T, st, write, pass, -, -, hanswers, -, -, -, rfl⟩ := hcall
    have hshown : shownManifest P.json r = some m := by
      simpa only [Track.step, Track.see, hwrite, if_true] using hm
    rw [← manifest_of_shown hanswers hshown]
    exact manifest_congr (by rw [replica_after, hanswers.replica_eq rfl])
  | manifestPut data =>
    obtain ⟨T, st, write, pass, -, -, hanswers, -, -, -, rfl⟩ := hcall
    cases r with
    | some e => cases hm
    | none =>
      have hdata : (w.after P i T (.manifestPut data) none st write pass).storage.replica.manifest =
          some data := by
        rw [replica_after, show st = _ from hanswers]
        rfl
      exact manifest_of_shownData hdata hm
  | _ =>
    have hcurrent := ((w.track i).step_frame P.json _ r).manifest (by rintro ⟨⟩) (by rintro ⟨⟩)
    rcases hcases with heq | ⟨data, files, hc, -⟩
    · rcases hbefore with hbefore | ⟨-, id, key, hc⟩
      · rw [manifest_congr heq]
        exact h i m hbefore (write_before hw (by rintro _ _ ⟨⟩)) (hcurrent.2.1.symm.trans hm)
      · cases hc
    · cases hc

/-- **The holder of the write lease knows the stored manifest**, if only the holder stores one. -/
theorem Current.call (hheld : ∀ files, w.Posts P i files w' → w.writeLease.holder = some i) :
    w'.Current P := by
  intro j m hholder hw hm
  rcases hcall.track_cases j with ⟨rfl, heq⟩ | ⟨hne, heq⟩
  · rw [heq] at hw hm
    exact h.call_self hallow hcall hholder hw hm
  rw [heq] at hw hm
  rcases hcall.holder_before hholder with hbefore | ⟨rfl, -⟩
  · rcases hcall.manifest_cases hallow with hsame | ⟨data, files, -, hposts⟩
    · rw [manifest_congr hsame]
      exact h j m hbefore hw hm
    · exact absurd (some.inj (hbefore.symm.trans (hheld files hposts))) hne
  · exact absurd rfl hne

end

theorem Current.launch (h : w.Current P) (l : Launch) : (w.launch P i l).Current P := by
  intro j m hholder hw hm
  rcases track_launch_cases (P := P) (w := w) (i := i) l j with ⟨-, heq⟩ | ⟨-, heq⟩
  · rw [heq] at hw
    cases hw
  · rw [heq] at hw hm
    exact h j m hholder hw hm

theorem Current.move (h : w.Current P) (hmove : w.Drifts P w') : w'.Current P := by
  intro j m hholder hw hm
  rw [hmove.track_eq] at hw hm
  rw [manifest_congr (congrArg Replica.manifest hmove.replica)]
  exact h j m (hmove.writeHolder ▸ hholder) hw hm

theorem current_initial (rep : Replica B) : (initial P rep).Current P := nofun

/-- In a timely setup only the holder of the write lease stores manifests. -/
theorem Fenced.holder_of_posts (h : w.Fenced P) (hposts : w.Posts P i files w') :
    w.writeLease.holder = some i := by
  obtain ⟨T, hT, hlive⟩ := hposts.live
  exact h.write.holder i T hT hposts.write hlive

/-- In a timely setup a process that may still use its context knows the stored manifest. -/
theorem Current.of_live (h : w.Current P) (hfenced : w.Fenced P) (hT : w.tasks i = some T)
    (hlive : w.Live T) (hw : (w.track i).write = true) (hm : (w.track i).current = some m) :
    w.manifest P = m :=
  h i m (hfenced.write.holder i T hT hw hlive) hw hm

/-! ### The index -/

/-- The files of the database: those of the manifest, or all objects while there is none. -/
def index (P : Setup B) (w : Cluster B) : List FileInfo :=
  (w.manifest P).getD w.storage.replica.infos

theorem index_of_manifest (h : w.manifest P = some files) : w.index P = files := by
  rw [index, h, getD_some]

theorem index_of_none (h : w.manifest P = none) : w.index P = w.storage.replica.infos := by
  rw [index, h, getD_none]

theorem index_congr (h : w'.storage.replica = w.storage.replica) : w'.index P = w.index P := by
  rw [index, index, manifest_congr (congrArg Replica.manifest h), h]

theorem Posts.hasKey_index (h : w.Posts P i files w') {k : FileKey} :
    HasKey (w'.index P) k ↔ HasKey files k := by
  obtain ⟨decoded, hdecoded, -, hkeys⟩ := h.stores
  rw [index_of_manifest hdecoded, hkeys]

/-- **A call that stores no manifest drops nothing from the index.** Files are deleted only by a
pass that has stored a manifest before. -/
theorem Facts.index_mono (h : w.Facts P) (hallow : w.Permits P i c) (hcall : w.Answers P i c r w')
    (hsame : w'.storage.replica.manifest = w.storage.replica.manifest) {k : FileKey}
    (hk : HasKey (w.index P) k) : HasKey (w'.index P) k := by
  cases hm : w.manifest P with
  | some files =>
    rw [index_of_manifest ((manifest_congr hsame).trans hm)]
    rwa [index_of_manifest hm] at hk
  | none =>
    rw [index_of_none ((manifest_congr hsame).trans hm)]
    rw [index_of_none hm] at hk
    obtain ⟨T, st, write, pass, -, -, hanswers, -, -, -, rfl⟩ := hcall
    rw [replica_after]
    rcases hanswers.replica_cases with heq | ⟨data, -, heq⟩ | ⟨site, files, gone, rfl, -, -⟩ |
      ⟨level, files, info, -, -, heq⟩ | ⟨s, ses, info, -, -, -, heq⟩
    · rwa [heq]
    · rwa [heq]
    · have hstored : (w.track i).stored = true := hallow.2.2.1
      obtain ⟨files', hfiles'⟩ := h.manifest_ne_none (h.present i (.inr (.inr hstored)))
      rw [hm] at hfiles'
      cases hfiles'
    · rw [heq]
      exact Replica.hasKey_put.mpr (.inl hk)
    · rw [heq]
      exact Replica.hasKey_put.mpr (.inl hk)

end Cluster

end Walrusd.Runtime
