import Walrusd.Runtime.Manifests
import Walrusd.Runtime.Plan

/-!
# Acknowledged writes stay in the index

The manifest is stored by writes, by repairs and by compaction passes, each time as a whole. A
process that stores it holds the write lease, and in a timely setup it then replaces the manifest
that it has read; what is left to show is that the new list covers what the old one did. That is
so for a commit. A repair stores what it has listed, and a pass applies a merge that it planned on
an older snapshot, so both depend on how these relate to the index (`Cluster.Careful`).

## Main definitions

* `Cluster.Careful` — the condition on the steps of a run.
* `Cluster.Covered` — the invariant.

## Main results

* `Cluster.acknowledged_covered` — an acknowledged TXID is covered by every manifest stored from
  then on.
-/

namespace Walrusd.Runtime

open Program Litestream Option

/-- The files of the snapshot that a pass has planned on. -/
def Track.planned (s : Track) : List FileInfo := s.snapshot.join.getD []

/-- What the record says about a manifest to be stored in place of `index`: a listing of all levels
names every file, and a merge was planned on a fronted snapshot whose files are all there. -/
def Track.Complete (s : Track) (index : List FileInfo) : Prop :=
  (s.role = .write → s.levels = snapshotLevel + 1 → ∀ f ∈ index, HasKey s.listed f.key) ∧
    (s.role ≠ .write → Fronted s.planned ∧ ∀ f ∈ s.planned, HasKey index f.key)

instance (s : Track) (index : List FileInfo) : Decidable (s.Complete index) :=
  inferInstanceAs (Decidable ((_ → _ → ∀ f ∈ _, _) ∧ (_ → _ ∧ ∀ f ∈ _, _)))

section Records

variable {B : Type} {json : ManifestJson B} {s : Track} {c : Op B} {r : Resp c}

theorem Track.found_step (hc : ∀ h key, c ≠ .selectTXID h key) :
    (s.step json c r).found = s.found := by
  cases c with
  | selectTXID h key => exact absurd rfl (hc h key)
  | openWrite | pos | setWriteDisabled => cases r <;> rfl
  | manifestGet | ltxFiles | release | acquire | acquireKey | manifestPut | compact | openRead
  | cacheGet => exact ((s.step_frame json _ r).session (by rintro ⟨⟩)).2.1
  | _ => rfl

theorem Track.lapsed_step (hc : ∀ m, c ≠ .openWrite m) : (s.step json c r).lapsed = s.lapsed := by
  cases c with
  | openWrite m => exact absurd rfl (hc m)
  | pos | setWriteDisabled => cases r <;> rfl
  | selectTXID => rcases r with e | _ | text <;> rfl
  | manifestGet | ltxFiles | release | acquire | acquireKey | manifestPut | compact | openRead
  | cacheGet => exact ((s.step_frame json _ r).session (by rintro ⟨⟩)).2.2.2.2
  | _ => rfl

theorem Track.acked_step (hc : ∀ held, c ≠ .release held true) :
    (s.step json c r).acked = s.acked := by
  by_cases hk : c.kind = .lease
  · cases c with
    | release held cancellable =>
      cases cancellable with
      | true => exact absurd rfl (hc held)
      | false => cases r <;> rfl
    | acquire | acquireKey => cases r <;> rfl
    | releaseKey | abandon => rfl
    | _ => cases hk
  · exact ((s.step_frame json c r).lease hk).2.2

/-- An open session sees what it saw when it was opened. -/
theorem Storage.Answers.visible_eq {st st' : Storage B} (h : st.Answers c r st') {s : Sess}
    {ses : Session} (hses : st'.sessions s = some ses) (hs : s < st.opened) :
    ∃ ses', st.sessions s = some ses' ∧ ses'.visible = ses.visible := by
  cases h.session_cases hses with
  | opened heq hc => exact absurd heq hs.ne
  | same hses' | stage _ _ hses' | rollback hses' | commit hses' | flush hses' =>
    exact ⟨_, hses', rfl⟩

end Records

namespace Cluster

variable {B : Type} {P : Setup B} {w w' : Cluster B} {i j : ℕ} {T : Task} {c : Op B} {r : Resp c}

/-- A manifest is stored only in place of one that it covers by its construction, and a write opens
its session on a listing only while there is no manifest. -/
def Careful (P : Setup B) (w : Cluster B) (i : ℕ) : (c : Op B) → Resp c → Cluster B → Prop
  | .manifestPut _, _, _ => (w.track i).Complete (w.index P)
  | .openWrite none, _, _ => w.manifest P = none
  | _, _, _ => True

instance (P : Setup B) (w : Cluster B) (i : ℕ) (c : Op B) (r : Resp c) (w' : Cluster B) :
    Decidable (w.Careful P i c r w') := by
  unfold Careful
  split <;> infer_instance

/-- Everything that a session sees or that a process has reported is in the index. -/
structure Covered (P : Setup B) (w : Cluster B) : Prop where
  current : w.Current P
  lapsed : ∀ i, (w.track i).lapsed = false
  visible : ∀ i s m ses, (w.track i).session = some (s, m) → w.storage.sessions s = some ses →
    ∀ row ∈ ses.visible, Covers (w.index P) row.txid
  found : ∀ i text t, (w.track i).found = some text → parseTXID text = some t → Covers (w.index P) t
  flushed : ∀ i s n, w.writeLease.holder = some i → (w.track i).write = true →
    (w.track i).session = some (s, none) → (w.track i).flushed = true →
    (w.track i).position = some n → Covers (w.index P) (n + 1)
  acked : ∀ i t, (w.track i).acked = some t → Covers (w.index P) t

/-- **A manifest that replaces another one covers it.** -/
theorem Covered.posts (h : w.Covered P) (hfenced : w.Fenced P) {files : List FileInfo}
    (hposts : w.Posts P i files w') (hcomplete : (w.track i).Complete (w.index P)) {t : ℕ}
    (ht : Covers (w.index P) t) : Covers (w'.index P) t := by
  have hcurrent : ∀ {base}, (w.track i).current = some (some base) → w.index P = base :=
    fun hbase => index_of_manifest
      (h.current i _ (hfenced.holder_of_posts hposts) hposts.write hbase)
  refine Covers.mono (fun k => hposts.hasKey_index.mpr) ?_
  rcases hposts.source with ⟨hrole, hlevels, rfl, -⟩ | ⟨-, -, s, plan, base, n, -, hbase, hplan, -,
    -, -, hfiles⟩ | ⟨-, T, S, base, client, hrole, hS, hbase, hvalid, -, hmerging, rfl⟩ |
    ⟨-, -, hlapsed, -⟩
  · refine ht.mono fun k hk => ?_
    obtain ⟨f, hf, rfl⟩ := hasKey_iff.mp hk
    exact hcomplete.1 hrole hlevels f hf
  · rw [hcurrent hbase] at ht
    exact ht.mono fun k hk => (hfiles k).mpr (.inl ((hplan k).mp hk))
  · rw [hcurrent hbase] at ht
    have hplanned : (w.track i).planned = S := by rw [Track.planned, hS]; rfl
    obtain ⟨hfronted, hthere⟩ := hcomplete.2 (by rw [hrole]; rintro ⟨⟩)
    rw [hplanned] at hfronted hthere
    rw [hcurrent hbase] at hthere
    refine hmerging.covers_delta hvalid hfronted (fun k hk => ?_) ht
    obtain ⟨f, hf, rfl⟩ := hasKey_iff.mp hk
    exact hthere f hf
  · rw [h.lapsed i] at hlapsed
    cases hlapsed

/-- The index covers what it covered before a call. -/
theorem Covered.index_mono (h : w.Covered P) (hbase : w.Base P) (hallow : w.Permits P i c)
    (hcall : w.Answers P i c r w') (hgood : w.Careful P i c r w') {t : ℕ}
    (ht : Covers (w.index P) t) : Covers (w'.index P) t := by
  rcases hcall.manifest_cases hallow with hsame | ⟨data, files, rfl, hposts⟩
  · exact ht.mono fun k => hbase.index_mono hallow hcall hsame
  · exact h.posts hbase.fenced hposts hgood ht

/-- A write session is opened on files of the index. -/
theorem Covered.opens (h : w.Covered P) (hbase : w.Base P) {s : Sess} {m : Seen}
    (hallow : (w.track i).Allows P.json (.openWrite m)) (hopens : w.Opens P i s m w')
    (hgood : m = none → w.manifest P = none) :
    (∀ k, HasKey (m.getD w.storage.replica.infos) k → HasKey (w.index P) k) ∧
      ¬ (m = none ∧ (w.track i).current = some (some [])) := by
  obtain ⟨hw, -, manifest, rfl, hfinds⟩ := hallow
  obtain ⟨T, hT, hlive⟩ := hopens.live
  have hknown : ∀ {seen}, (w.track i).current = some seen → w.manifest P = seen :=
    h.current.of_live hbase.fenced hT hlive hw.write
  rcases manifest with _ | _ | plan
  · refine ⟨fun k hk => by rwa [index_of_none (hgood rfl)], ?_⟩
    rintro ⟨-, hcurrent⟩
    exact absurd (hknown hcurrent) (by rw [hgood rfl]; rintro ⟨⟩)
  · exact absurd (hknown hfinds) (by rw [hgood rfl]; rintro ⟨⟩)
  obtain ⟨-, base, hcurrent, hkeys⟩ := hfinds
  refine ⟨fun k hk => ?_, ?_⟩
  · rw [index_of_manifest (hknown hcurrent)]
    exact (hkeys k).mpr hk
  · rintro ⟨⟨⟩, -⟩

section

variable (h : w.Covered P) (hbase : w.Base P) (hallow : w.Permits P i c)
  (hcall : w.Answers P i c r w') (hgood : w.Careful P i c r w')
include h hbase hallow hcall hgood

theorem Covered.call_lapsed (j : ℕ) : (w'.track j).lapsed = false := by
  rcases hcall.track_cases j with ⟨rfl, heq⟩ | ⟨-, heq⟩
  · rw [heq]
    by_cases hopen : ∃ m, c = .openWrite m
    · obtain ⟨m, rfl⟩ := hopen
      cases r with
      | error e => exact h.lapsed j
      | ok s =>
        have hsession : (w'.track j).session = some (s, m) := by rw [heq]; rfl
        rcases hcall.session_named hallow hsession with hold | ⟨-, -, hopens⟩
        · have hnone : (w.track j).session = none := hallow.2.1
          rw [hold] at hnone
          cases hnone
        · have hnot := (h.opens hbase hallow hopens (by rintro rfl; exact hgood)).2
          exact decide_eq_false hnot
    · rw [Track.lapsed_step fun m hm => hopen ⟨m, hm⟩]
      exact h.lapsed j
  · rw [heq]
    exact h.lapsed j

theorem Covered.call_visible {s : Sess} {m : Seen} {ses : Session}
    (hm : (w'.track j).session = some (s, m)) (hses : w'.storage.sessions s = some ses) {row : Row}
    (hrow : row ∈ ses.visible) : Covers (w'.index P) row.txid := by
  have hmono := fun {t} => h.index_mono (t := t) hbase hallow hcall hgood
  rcases hcall.session_named hallow hm with hold | ⟨rfl, rfl, hopens⟩
  · obtain ⟨T, st, write, pass, -, -, hanswers, -, -, -, rfl⟩ := hcall
    have hlt := (hbase.sessions j s m hold).1
    obtain ⟨ses', hses', hvisible⟩ := hanswers.visible_eq (sessions_closeAll hses) hlt
    exact hmono (h.visible j s m ses' hold hses' row (hvisible ▸ hrow))
  · refine hmono ?_
    rw [hopens.session ses hses] at hrow
    obtain ⟨o, ho, hkey, hrow⟩ := Replica.mem_rowsOf.mp hrow
    obtain ⟨-, hmin, hmax⟩ := (hbase.proper.objects o ho).2 row hrow
    have hindex := (h.opens hbase hallow hopens (by rintro rfl; exact hgood)).1
    exact ⟨o.info.key, hindex _ hkey, hmin, hmax⟩

theorem Covered.call_found {text : String} {t : ℕ} (hfound : (w'.track j).found = some text)
    (ht : parseTXID text = some t) : Covers (w'.index P) t := by
  refine h.index_mono hbase hallow hcall hgood ?_
  rcases hcall.track_cases j with ⟨rfl, heq⟩ | ⟨-, heq⟩
  · rw [heq] at hfound
    by_cases hselect : ∃ s key, c = .selectTXID s key
    · obtain ⟨s, key, rfl⟩ := hselect
      rcases r with e | _ | text'
      · exact h.found j text t hfound ht
      · exact h.found j text t hfound ht
      obtain rfl : text' = text := some.inj hfound
      obtain ⟨hw, m, hm, -⟩ := hallow
      obtain ⟨T, st, write, pass, -, -, ⟨-, ses, hses, htext⟩, -, -, -, -⟩ := hcall
      obtain ⟨row, hrow, rfl⟩ := map_eq_some_iff.mp htext.symm
      have hof := (hbase.sessions j s m.join hm).2 ses hses
      have hmem := List.mem_of_find?_eq_some hrow
      rw [hof.unstaged hw.position, List.append_nil] at hmem
      obtain ⟨⟨hproper, hlt⟩, -⟩ := hof.visible row hmem
      rw [hproper, parseTXID_formatTXID hlt] at ht
      rw [← some.inj ht]
      exact h.visible j s m.join ses hm hses row hmem
    · rw [Track.found_step fun s key hc => hselect ⟨s, key, hc⟩] at hfound
      exact h.found j text t hfound ht
  · rw [heq] at hfound
    exact h.found j text t hfound ht

end

section

variable (h : w.Covered P) (hbase : w.Base P)
include h hbase

/-- The flush of a session that was opened on a listing reaches the index. -/
theorem Covered.flush {s s' : Sess} {n : ℕ}
    (hallow : (w.track i).Allows P.json (.setWriteDisabled s'))
    (hcall : w.Answers P i (.setWriteDisabled s') none w') (hholder : w.writeLease.holder = some i)
    (hm : (w.track i).session = some (s, none)) (hn : (w.track i).position = some n) :
    Covers (w'.index P) (n + 1) := by
  obtain ⟨hflushed, manifest, n', hrun⟩ := hallow
  obtain ⟨rfl, hjoin⟩ := Prod.mk.inj (some.inj (hrun.session.symm.trans hm))
  have hnone : w.manifest P = none := by
    rcases manifest with _ | _ | plan
    · exact h.current i none hholder hrun.write hrun.knows
    · have hlapsed : (w.track i).lapsed = true := hrun.knows
      rw [h.lapsed i] at hlapsed
      cases hlapsed
    · cases hjoin
  obtain ⟨T, st, write, pass, -, -, ⟨ses, info, hses, -, hland, rfl⟩, -, -, -, rfl⟩ := hcall
  have hof := (hbase.sessions i s' none hm).2 ses hses
  have hkey : info.key = Track.nextKey n := by
    rw [hland.2, ← hof.position hflushed n hn]
    rfl
  rw [index_of_none ((manifest_congr (by rw [replica_after]; rfl)).trans hnone), replica_after]
  exact ⟨Track.nextKey n, Replica.hasKey_put.mpr (.inr hkey), le_rfl, le_rfl⟩

theorem Covered.call_flushed (hallow : w.Permits P i c) (hcall : w.Answers P i c r w')
    (hgood : w.Careful P i c r w') {s : Sess} {n : ℕ} (hholder : w'.writeLease.holder = some j)
    (hw : (w'.track j).write = true) (hm : (w'.track j).session = some (s, none))
    (hflushed : (w'.track j).flushed = true) (hn : (w'.track j).position = some n) :
    Covers (w'.index P) (n + 1) := by
  have hmono := fun {t} => h.index_mono (t := t) hbase hallow hcall hgood
  have hbefore := hcall.holder_before hholder
  rcases hcall.track_cases j with ⟨rfl, heq⟩ | ⟨hne, heq⟩
  · rw [heq] at hw hm hflushed hn
    -- the record before the call, when the call is not the flush
    have hold (hacquire : ∀ id key, c ≠ .acquire id key) (hpos : ∀ h, c ≠ .pos h)
        (hopen : ∀ m, c ≠ .openWrite m) (hflush : ∀ h, c ≠ .setWriteDisabled h) :
        Covers (w'.index P) (n + 1) := by
      obtain ⟨hsteady, hposition⟩ := (w.track j).step_steady P.json c r hpos hflush
      rcases hbefore with hbefore | ⟨-, id, key, hc⟩
      · rw [hsteady] at hflushed
        rw [hposition] at hn
        obtain ⟨T, st, write, pass, -, -, hanswers, -, -, -, -⟩ := hcall
        rcases session_step_cases hallow hanswers with hsame | ⟨plan, lapsed, hc, -⟩
        · exact hmono (h.flushed j s n hbefore (write_before hw hacquire) (hsame ▸ hm) hflushed hn)
        · exact absurd hc (hopen plan)
      · exact absurd hc (hacquire id key)
    cases c with
    | acquire id key =>
      have hunlocked : (w.track j).flushed = false := hallow.flushed
      have hsame := ((w.track j).step_steady P.json _ r (by rintro _ ⟨⟩) (by rintro _ ⟨⟩)).1
      rw [hsame, hunlocked] at hflushed
      cases hflushed
    | openWrite m =>
      have hwriting : (w.track j).flushed = false := hallow.1.flushed
      have hsame := ((w.track j).step_steady P.json _ r (by rintro _ ⟨⟩) (by rintro _ ⟨⟩)).1
      rw [hsame, hwriting] at hflushed
      cases hflushed
    | pos s' =>
      have hwriting : (w.track j).flushed = false := hallow.1.flushed
      have hsame : ((w.track j).step P.json (.pos s') r).flushed = (w.track j).flushed := by
        cases r <;> rfl
      rw [hsame, hwriting] at hflushed
      cases hflushed
    | setWriteDisabled s' =>
      cases r with
      | none =>
        rcases hbefore with hbefore | ⟨-, id, key, hc⟩
        · exact h.flush hbase hallow hcall hbefore hm hn
        · cases hc
      | some e =>
        have hunflushed : (w.track j).flushed = false := hallow.1
        rw [show (w.track j).flushed = true from hflushed] at hunflushed
        cases hunflushed
    | _ => exact hold (by rintro _ _ ⟨⟩) (by rintro _ ⟨⟩) (by rintro _ ⟨⟩) (by rintro _ ⟨⟩)
  · rw [heq] at hw hm hflushed hn
    rcases hbefore with hbefore | ⟨rfl, -⟩
    · exact hmono (h.flushed j s n hbefore hw hm hflushed hn)
    · exact absurd rfl hne

/-- What a write has published is in the index as long as it may use its context. -/
theorem Covered.published (hpub : (w.track i).Published) (hT : w.tasks i = some T)
    (hlive : w.Live T) {t : ℕ} (ht : (w.track i).result = some t) : Covers (w.index P) t := by
  obtain ⟨-, hw, hfound, hflushed, n, hn, -, hindexed⟩ := hpub
  obtain rfl : n + 1 = t := by simpa [Track.result, hfound, hn] using ht
  rcases hindexed with ⟨s, hs⟩ | ⟨files, hfiles, hkey⟩
  · exact h.flushed i s n (hbase.fenced.write.holder i T hT hw hlive) hw hs hflushed hn
  · rw [index_of_manifest (h.current.of_live hbase.fenced hT hlive hw hfiles)]
    exact ⟨Track.nextKey n, hkey, le_rfl, le_rfl⟩

/-- **What a write acknowledges is in the index.** -/
theorem Covered.release {held : Lease.Held} {t : ℕ}
    (hallow : (w.track i).Allows P.json (.release held true))
    (hcall : w.Answers P i (.release held true) none w') (ht : (w.track i).result = some t) :
    Covers (w.index P) t := by
  obtain ⟨T, st, write, pass, hT, -, -, -, -, hbound, rfl⟩ := hcall
  have hlive : w.Live T := by
    rcases hbound rfl with hlive | ⟨⟨⟩, -⟩
    exact hlive
  rcases hallow with hpub | ⟨-, hw, text, t', hfound, ht'⟩
  · exact h.published hbase hpub hT hlive ht
  · obtain rfl : t' = t := by simpa [Track.result, hfound, ht'] using ht
    exact h.found i text t' hfound ht'

end

section

variable (h : w.Covered P) (hbase : w.Base P) (hallow : w.Permits P i c)
  (hcall : w.Answers P i c r w') (hgood : w.Careful P i c r w')
include h hbase hallow hcall hgood

theorem Covered.call_acked {t : ℕ} (hacked : (w'.track j).acked = some t) :
    Covers (w'.index P) t := by
  refine h.index_mono hbase hallow hcall hgood ?_
  rcases hcall.track_cases j with ⟨rfl, heq⟩ | ⟨-, heq⟩
  · rw [heq] at hacked
    by_cases hrelease : ∃ held, c = .release held true
    · obtain ⟨held, rfl⟩ := hrelease
      cases r with
      | none => exact h.release hbase hallow hcall hacked
      | some e => exact h.acked j t hacked
    · rw [Track.acked_step fun held hc => hrelease ⟨held, hc⟩] at hacked
      exact h.acked j t hacked
  · rw [heq] at hacked
    exact h.acked j t hacked

theorem Covered.call : w'.Covered P where
  current := h.current.call hallow hcall fun _ => hbase.fenced.holder_of_posts
  lapsed := h.call_lapsed hbase hallow hcall hgood
  visible _ _ _ _ hm hses _ hrow := h.call_visible hbase hallow hcall hgood hm hses hrow
  found _ _ _ hfound ht := h.call_found hbase hallow hcall hgood hfound ht
  flushed _ _ _ hholder hw hm hflushed hn :=
    h.call_flushed hbase hallow hcall hgood hholder hw hm hflushed hn
  acked _ _ hacked := h.call_acked hbase hallow hcall hgood hacked

end

theorem Covered.launch (h : w.Covered P) (l : Launch) : (w.launch P i l).Covered P := by
  have htrack := track_launch_cases (P := P) (w := w) (i := i) l
  refine ⟨h.current.launch l, fun j => ?_, fun j s m ses hm hses => ?_,
    fun j text t hfound ht => ?_,
    fun j s n hholder hw hm hflushed hn => ?_, fun j t hacked => ?_⟩
  · rcases htrack j with ⟨-, heq⟩ | ⟨-, heq⟩
    · rw [heq]
    · rw [heq]
      exact h.lapsed j
  · rcases htrack j with ⟨-, heq⟩ | ⟨-, heq⟩ <;> rw [heq] at hm
    · cases hm
    · exact h.visible j s m ses hm hses
  · rcases htrack j with ⟨-, heq⟩ | ⟨-, heq⟩ <;> rw [heq] at hfound
    · cases hfound
    · exact h.found j text t hfound ht
  · rcases htrack j with ⟨-, heq⟩ | ⟨-, heq⟩ <;> rw [heq] at hw hm hflushed hn
    · cases hm
    · exact h.flushed j s n hholder hw hm hflushed hn
  · rcases htrack j with ⟨-, heq⟩ | ⟨-, heq⟩ <;> rw [heq] at hacked
    · cases hacked
    · exact h.acked j t hacked

theorem Covered.move (h : w.Covered P) (hmove : w.Drifts P w') : w'.Covered P := by
  have hindex : w'.index P = w.index P := index_congr hmove.replica
  refine ⟨h.current.move hmove, fun j => ?_, fun j s m ses hm hses => ?_,
    fun j text t hfound ht => ?_, fun j s n hholder hw hm hflushed hn => ?_, fun j t hacked => ?_⟩
  · rw [hmove.track_eq]
    exact h.lapsed j
  · rw [hmove.track_eq] at hm
    rw [hindex]
    exact h.visible j s m ses hm (hmove.sessions s ses hses)
  · rw [hmove.track_eq] at hfound
    rw [hindex]
    exact h.found j text t hfound ht
  · rw [hmove.track_eq] at hw hm hflushed hn
    rw [hindex]
    exact h.flushed j s n (hmove.writeHolder ▸ hholder) hw hm hflushed hn
  · rw [hmove.track_eq] at hacked
    rw [hindex]
    exact h.acked j t hacked

theorem covered_of_reachable (htimely : P.Timely) {rep : Replica B} (hrep : rep.Proper P.json)
    {good : Cluster B → ℕ → (c : Op B) → Resp c → Cluster B → Prop}
    (hgood : ∀ w i c r w', good w i c r w' → w.Careful P i c r w')
    {a : Pool (Cluster B) ℕ (Op B) Resp Outcome}
    (h : ((clusterSystem P).restrict good).Reachable (initial P rep) a) :
    a.world.Base P ∧ a.world.Covered P ∧ ∀ i p, a.procs i = some p →
      p.Obeys (Runtime.tracked P.json) Reports (a.world.track i) := by
  refine Cluster.invariant htimely hrep ?_ (fun w i l _ hI _ => hI.launch l) ?_
    (fun w w' _ hI hmove => hI.move hmove) h
  · exact ⟨current_initial rep, fun _ => rfl, nofun, nofun, nofun, nofun⟩
  · intro w i c r w' hbase hI hallow _ hcall hstep _
    exact hI.call hbase hallow hcall (hgood w i c r w' hstep)

/-- **An acknowledged TXID is covered by every manifest stored from then on**, in a timely setup and
along every run whose steps are careful. -/
theorem acknowledged_covered (htimely : P.Timely) {rep : Replica B} (hrep : rep.Proper P.json)
    {a : Pool (Cluster B) ℕ (Op B) Resp Outcome}
    (h : ((clusterSystem P).restrict (Careful P)).Reachable (initial P rep) a) {i : ℕ}
    {res : WriteResult} (hdone : a.procs i = some (.done (.wrote (.ok res)))) :
    ∃ t, res.txid = formatTXID t ∧ t < 2 ^ 64 ∧
      ∀ files, a.world.manifest P = some files → Covers files t := by
  obtain ⟨-, hcovered, hobeys⟩ := covered_of_reachable htimely hrep (fun _ _ _ _ _ h => h) h
  have hreports : (a.world.track i).Acknowledges (.ok res) := hobeys i _ hdone
  obtain ⟨t, hacked, hlt, htxid⟩ := hreports res rfl
  refine ⟨t, htxid, hlt, fun files hfiles => ?_⟩
  rw [← index_of_manifest hfiles]
  exact hcovered.acked i t hacked

end Cluster

/-! ### Particular runs -/

namespace Covering

open Script

/-- A configuration with a low threshold and the given time limit for passes. -/
def config (timeout : ℤ) : Config :=
  { defaultConfig with
    compaction := { enabled := false, threshold := 1, retention := 600 * second, timeout } }

/-- A node whose clock is exact. -/
def node (timeout : ℤ) : Node := ⟨config timeout, 0⟩

/-- All nodes are the same. -/
def setup (timeout : ℤ) : Setup (Option ManifestDocument) :=
  ⟨.plain, ⟨⟨"db"⟩, ""⟩, "db", fun _ => node timeout⟩

/-- The pools of a run. -/
abbrev State :=
  Pool (Cluster (Option ManifestDocument)) ℕ (Op (Option ManifestDocument)) Resp Cluster.Outcome

/-- Two writes, and a pass that has read the manifest under the write lease; its compaction lease
lasts until `expiry`. -/
def merging (expiry : ℤ) : Moves :=
  .start 0 (.write 0 "a") :: calls 0 (firstWrite (30 * second) 0) ++
    .start 1 (.write 0 "b") :: calls 1 (write (30 * second) 0) ++
    .start 2 (.compaction 0) ::
      calls 2 [.ok, .ok, .wrote expiry, .wrote 0, .wrote (30 * second), .ok]

/-- The pass does not store its manifest before its lease has been taken over. -/
def overtaken : Moves :=
  merging (64 * second) ++ .env (.tick (40 * second)) :: .start 3 (.write 0 "c") ::
    calls 3 (write (70 * second) (40 * second)) ++ calls 2 [.ok]

/-- The pass stores its manifest and another write follows. -/
def settled : Moves :=
  merging (34 * second) ++ calls 2 (oks 2) ++
    .start 3 (.write 0 "c") :: calls 3 (write (30 * second) 0)

/-- The result of the last write, and the manifest. -/
structure View where
  txid : Option (Option String)
  manifest : Option (List FileInfo)
  deriving DecidableEq

/-- The TXID of a successful write. -/
def txidOf : Cluster.Outcome → Option String
  | .wrote (.ok res) => some res.txid
  | _ => none

/-- The view of a pool. -/
def view (timeout : ℤ) (a : State) : View :=
  ⟨(a.outcome 3).map txidOf, a.world.manifest (setup timeout)⟩

theorem procs_of_view {timeout : ℤ} {a : State} {text : String}
    (h : (view timeout a).txid = some (some text)) :
    ∃ res : WriteResult, a.procs 3 = some (.done (.wrote (.ok res))) ∧ res.txid = text := by
  obtain ⟨x, hx, htext⟩ := map_eq_some_iff.mp h
  rcases x with (e | res) | _ | err
  · cases htext
  · exact ⟨res, Pool.procs_of_outcome hx, some.inj htext⟩
  · cases htext
  · cases htext

theorem settled_exec :
    (((clusterInterpreter (setup (30 * second))).restrict
      (Cluster.Careful (setup (30 * second)))).exec
      (Cluster.initial (setup (30 * second)) ⟨[], none⟩) settled).map (view (30 * second)) =
      some ⟨some (some "0000000000000003"), some [⟨0, 3, 3, 0, 0⟩, ⟨1, 1, 2, 0, 0⟩]⟩ := by
  decide +kernel

theorem overtaken_exec :
    ((clusterInterpreter (setup (60 * second))).exec
      (Cluster.initial (setup (60 * second)) ⟨[], none⟩) overtaken).map (view (60 * second)) =
      some ⟨some (some "0000000000000003"), some [⟨1, 1, 2, 0, 0⟩]⟩ := by
  decide +kernel

theorem timely : (setup (30 * second)).Timely := fun _ _ =>
  (by decide : 0 < (node (30 * second)).cfg.requestTimeout ∧
    (node (30 * second)).cfg.requestTimeout + 0 ≤ (node (30 * second)).duration + 0 +
      (node (30 * second)).skew ∧
    (node (30 * second)).passTimeout + 0 ≤ (node (30 * second)).duration + 0 +
      (node (30 * second)).skew)

/-- A node with the given retention, whose clock is exact. -/
def retainer (retention : ℤ) : Node :=
  ⟨{ config (30 * second) with
    compaction := { enabled := false, threshold := 1, retention, timeout := 30 * second } }, 0⟩

/-- The setup of nodes with the given retention. -/
def retaining (retention : ℤ) : Setup (Option ManifestDocument) :=
  ⟨.plain, ⟨⟨"db"⟩, ""⟩, "db", fun _ => retainer retention⟩

/-- Two writes. -/
def written : Moves :=
  .start 0 (.write 0 "a") :: calls 0 (firstWrite (30 * second) 0) ++
    .start 1 (.write 0 "b") :: calls 1 (write (30 * second) 0)

theorem retaining_timely {retention : ℤ} : (retaining retention).Timely := fun m n => timely m n

theorem proper_empty {json : ManifestJson (Option ManifestDocument)} :
    (⟨[], none⟩ : Replica (Option ManifestDocument)).Proper json := ⟨nofun, nofun⟩

end Covering

open Covering in
/-- Three writes and a pass in between, on time: the manifest covers the last one. -/
theorem acknowledged_covered_settled : ∃ (a : State) (res : WriteResult),
    ((clusterSystem (setup (30 * second))).restrict
      (Cluster.Careful (setup (30 * second)))).Reachable
      (Cluster.initial (setup (30 * second)) ⟨[], none⟩) a ∧
    a.procs 3 = some (.done (.wrote (.ok res))) ∧ res.txid = "0000000000000003" ∧
    a.world.manifest (setup (30 * second)) = some [⟨0, 3, 3, 0, 0⟩, ⟨1, 1, 2, 0, 0⟩] ∧
    ∃ t, res.txid = formatTXID t ∧ t < 2 ^ 64 ∧
      ∀ files, a.world.manifest (setup (30 * second)) = some files → Covers files t := by
  obtain ⟨a, ha, hview⟩ := map_eq_some_iff.mp settled_exec
  have hreach := Interpreter.exec_reachable _ ha
  obtain ⟨res, hdone, htxid⟩ := procs_of_view (congrArg View.txid hview)
  exact ⟨a, res, hreach, hdone, htxid, congrArg View.manifest hview,
    Cluster.acknowledged_covered timely proper_empty hreach hdone⟩

open Covering in
/-- A pass may take longer than the write lease lasts. The manifest that it stores then replaces
that of a write that was acknowledged in the meantime. -/
theorem acknowledged_dropped : (∀ n, ((setup (60 * second)).nodes n).cfg.Accepted) ∧
    ∃ (a : State) (res : WriteResult),
      (clusterSystem (setup (60 * second))).Reachable
        (Cluster.initial (setup (60 * second)) ⟨[], none⟩) a ∧
      a.procs 3 = some (.done (.wrote (.ok res))) ∧ res.txid = formatTXID 3 ∧
      ∃ files, a.world.manifest (setup (60 * second)) = some files ∧ ¬ Covers files 3 := by
  obtain ⟨a, ha, hview⟩ := map_eq_some_iff.mp overtaken_exec
  obtain ⟨res, hdone, htxid⟩ := procs_of_view (congrArg View.txid hview)
  have haccepted : (node (60 * second)).cfg.Accepted := by decide
  exact ⟨fun _ => haccepted, a, res, Interpreter.exec_reachable _ ha, hdone,
    htxid.trans (by decide), _, congrArg View.manifest hview, by decide⟩

end Walrusd.Runtime
