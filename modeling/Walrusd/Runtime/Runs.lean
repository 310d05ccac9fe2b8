import Walrusd.Runtime.Cluster

/-!
# What holds in every run of a cluster

When no context outlives a lease of its node (`Setup.Timely`), a process that believes to hold a
lease and whose deadline has not passed does hold it, so that two of them exclude each other
(`Fenced`). Independently of this, manifests decode, objects carry the rows of their TXIDs, and a
session reads what it was opened on (`Facts`). These facts are what the answers to a call have to
meet for the programs to keep to their protocol, so they hold along every run together with it.

## Main definitions

* `Setup.Timely`, `Cluster.Fenced`.
* `Cluster.Facts`, `Cluster.Base`.

## Main results

* `Cluster.Facts.learns` — answers tell a process what its protocol relies on.
* `Cluster.invariant` — the rule for invariants of runs.
-/

namespace Walrusd.Runtime

open Program Litestream Function List Option

/-- No context outlives a lease of its node, by the clock of any node: every attempt, read and pass
has a deadline, which it reaches before its lease can be taken over. -/
def Setup.Timely {B : Type} (P : Setup B) : Prop := ∀ n m : ℕ,
  0 < (P.nodes n).cfg.requestTimeout ∧
  (P.nodes n).cfg.requestTimeout + (P.nodes m).clock ≤
    (P.nodes n).duration + (P.nodes n).clock + (P.nodes m).skew ∧
  (P.nodes n).passTimeout + (P.nodes m).clock ≤
    (P.nodes n).duration + (P.nodes n).clock + (P.nodes m).skew

/-- The process has read or stored a manifest. -/
def Track.SawManifest (s : Track) : Prop :=
  (∃ files, s.snapshot = some (some files)) ∨ (∃ files, s.current = some (some files)) ∨
    s.stored = true

/-- The text of the row is its TXID. -/
def Row.Proper (row : Row) : Prop := row.text = formatTXID row.txid ∧ row.txid < 2 ^ 64

/-- The object has a valid name, and its rows are of TXIDs in its range. -/
def Object.Proper (o : Object) : Prop :=
  o.info.key.Valid ∧ ∀ row ∈ o.rows, row.Proper ∧ o.info.minTXID ≤ row.txid ∧
    row.txid ≤ o.info.maxTXID

/-- The objects are proper and the manifest, if there is one, decodes. -/
structure Replica.Proper {B : Type} (json : ManifestJson B) (rep : Replica B) : Prop where
  objects : ∀ o ∈ rep.objects, o.Proper
  decodes : ∀ data, rep.manifest = some data → ∃ files, decodeManifest json data = .ok files

namespace Replica.Proper

variable {B : Type} {json : ManifestJson B} {rep : Replica B}

variable (h : rep.Proper json)
include h

theorem store {data : B} {files : List FileInfo} (hdata : decodeManifest json data = .ok files) :
    (rep.store data).Proper json := by
  refine ⟨h.objects, ?_⟩
  rintro _ ⟨rfl⟩
  exact ⟨files, hdata⟩

theorem remove (files : List FileInfo) : (rep.remove files).Proper json :=
  ⟨fun o ho => h.objects o (mem_of_mem_filter ho), h.decodes⟩

theorem put {o : Object} (ho : o.Proper) : (rep.put o).Proper json := by
  refine ⟨fun o' ho' => ?_, h.decodes⟩
  rcases Replica.mem_put.mp ho' with ⟨ho', -⟩ | rfl
  · exact h.objects o' ho'
  · exact ho

theorem merge {level : ℕ} {files : List FileInfo} {info : FileInfo} (hvalid : AllValid files)
    (hlevel : level ≤ snapshotLevel) (hmerge : rep.Merges level files info) :
    (rep.merge level files info).Proper json := by
  obtain ⟨hne, -, hinfo⟩ := hmerge
  refine h.put ⟨?_, fun row hrow => ?_⟩
  · rw [hinfo]
    exact mergedFile_valid (fun k hk => hvalid k (hasKey_mergeSources.mp hk).1) hne hlevel
  obtain ⟨o, ho, hkey, hrow⟩ := Replica.mem_rowsOf.mp hrow
  obtain ⟨hproper, hmin, hmax⟩ := (h.objects o ho).2 row hrow
  refine ⟨hproper, ?_, ?_⟩
  · rw [hinfo]
    exact (manifestMinTXID_le hkey).trans hmin
  · rw [hinfo]
    exact hmax.trans (le_manifestMaxTXID hkey)

end Replica.Proper

/-- The session `ses` of the process with record `s`, opened on the manifest `m`. -/
structure Session.Of (ses : Session) (s : Track) (m : Seen) : Prop where
  captured : ses.captured = m.isSome
  unflushed : s.flushed = false → ∀ plan, m = some plan → ses.client.files = plan
  flushed : s.flushed = true → ∀ plan n, m = some plan → s.position = some n →
    ∀ k, HasKey ses.client.files k ↔ HasKey plan k ∨ k = Track.nextKey n
  position : s.flushed = false → ∀ n, s.position = some n → ses.pos = n
  unstaged : s.position = none → ses.staged = []
  staged : s.flushed = false → ∀ row ∈ ses.staged, row.txid = ses.pos + 1 ∧
    row.text = formatTXID ((ses.pos + 1) % 2 ^ 64)
  visible : ∀ row ∈ ses.visible, row.Proper ∧ ∀ plan, m = some plan → Covers plan row.txid

namespace Session.Of

variable {ses : Session} {s s' : Track} {m : Seen}

theorem congr (h : ses.Of s m) (hflushed : s'.flushed = s.flushed)
    (hposition : s'.position = s.position) : ses.Of s' m := by
  refine ⟨h.captured, ?_, ?_, ?_, ?_, ?_, h.visible⟩ <;> simp only [hflushed, hposition]
  exacts [h.unflushed, h.flushed, h.position, h.unstaged, h.staged]

theorem rollback (h : ses.Of s m) : ({ ses with staged := [] } : Session).Of s m :=
  ⟨h.captured, h.unflushed, h.flushed, h.position, fun _ => rfl, nofun, h.visible⟩

theorem commit (h : ses.Of s m) : ({ ses with committed := true } : Session).Of s m :=
  ⟨h.captured, h.unflushed, h.flushed, h.position, h.unstaged, h.staged, h.visible⟩

variable (h : ses.Of s m) (hflushed : s.flushed = false)
include h hflushed

theorem atPosition : ses.Of { s with position := some ses.pos } m := by
  refine ⟨h.captured, h.unflushed, ?_, ?_, nofun, h.staged, h.visible⟩
  · intro hf
    exact absurd (hflushed.symm.trans hf) nofun
  · rintro - n ⟨rfl⟩
    rfl

theorem stage {n : ℕ} (hposition : s.position = some n) (key : String) :
    (ses.stage key (formatTXID ((n + 1) % 2 ^ 64))).Of s m := by
  obtain rfl := h.position hflushed n hposition
  refine ⟨h.captured, h.unflushed, h.flushed, h.position, ?_, ?_, h.visible⟩
  · rw [hposition]
    exact nofun
  intro _ row hrow
  rcases mem_append.mp hrow with hrow | hrow
  · exact h.staged hflushed row hrow
  · rw [mem_singleton.mp hrow]
    exact ⟨rfl, rfl⟩

theorem flush {info : FileInfo} (hland : ses.Lands info) :
    ({ ses with client := ses.client.recordWrite info } : Session).Of
      { s with flushed := true, levels := 0, listed := [] } m := by
  refine ⟨h.captured, nofun, ?_, nofun, h.unstaged, nofun, h.visible⟩
  rintro - plan n hplan hn k
  have hkey : info.key = Track.nextKey n := by
    rw [hland.2, ← h.position hflushed n hn]
    rfl
  rw [ManifestClient.hasKey_recordWrite, h.unflushed hflushed plan hplan, hkey, eq_comm (b := k)]

end Session.Of

namespace Cluster

variable {B : Type} {P : Setup B} {w w' : Cluster B} {i j : ℕ} {T : Task} {c : Op B} {r : Resp c}
  {st : Storage B} {write pass : Cell}
variable {duration : Node → ℤ} {cell : Cell} {holds : ℕ → Bool}
  {a : Pool (Cluster B) ℕ (Op B) Resp Outcome}

/-! ### The world after a call -/

@[simp] theorem replica_closeAll (st : Storage B) (closed : List (Option Sess)) :
    (st.closeAll closed).replica = st.replica := by
  unfold Storage.closeAll
  induction closed.reduceOption generalizing st with
  | nil => rfl
  | cons h hs ih => exact ih _

@[simp] theorem opened_closeAll (st : Storage B) (closed : List (Option Sess)) :
    (st.closeAll closed).opened = st.opened := by
  unfold Storage.closeAll
  induction closed.reduceOption generalizing st with
  | nil => rfl
  | cons h hs ih => exact ih _

theorem sessions_closeAll {st : Storage B} {closed : List (Option Sess)} {h : Sess} {ses : Session}
    (hses : (st.closeAll closed).sessions h = some ses) : st.sessions h = some ses := by
  unfold Storage.closeAll at hses
  generalize closed.reduceOption = hs at hses
  induction hs generalizing st with
  | nil => exact hses
  | cons h' hs ih =>
    rcases Storage.setSession_cases (ih hses) with ⟨-, heq⟩ | ⟨-, heq⟩
    · cases heq
    · exact heq

theorem remember_tracks : (w.remember P i T c r st).tracks =
    update w.past.tracks i ((w.track i).step P.json c r) := by
  unfold remember
  split
  all_goals first | rfl | (split <;> rfl)

theorem remember_steps : (w.remember P i T c r st).steps = w.past.steps + 1 := by
  unfold remember
  split
  all_goals first | rfl | (split <;> rfl)

theorem track_after_self :
    (w.after P i T c r st write pass).track i = (w.track i).step P.json c r := by
  simp [track, after, remember_tracks]

theorem track_after_of_ne (h : j ≠ i) : (w.after P i T c r st write pass).track j = w.track j := by
  simp [track, after, remember_tracks, update_of_ne h]

@[simp] theorem replica_after :
    (w.after P i T c r st write pass).storage.replica = st.replica := replica_closeAll _ _

/-- The record of the process that takes a step, or of another one. -/
theorem Answers.track_cases (h : w.Answers P i c r w') (j : ℕ) :
    j = i ∧ w'.track j = (w.track j).step P.json c r ∨ j ≠ i ∧ w'.track j = w.track j := by
  obtain ⟨T, st, write, pass, -, -, -, -, -, -, rfl⟩ := h
  by_cases hj : j = i
  · subst hj
    exact .inl ⟨rfl, track_after_self⟩
  · exact .inr ⟨hj, track_after_of_ne hj⟩

theorem Answers.track_self (h : w.Answers P i c r w') : w'.track i = (w.track i).step P.json c r :=
  (h.track_cases i).elim And.right fun hne => absurd rfl hne.1

theorem Answers.role_eq (h : w.Answers P i c r w') (j : ℕ) :
    (w'.track j).role = (w.track j).role := by
  rcases h.track_cases j with ⟨-, heq⟩ | ⟨-, heq⟩
  · rw [heq, ((w.track j).step_frame P.json c r).role]
  · rw [heq]

theorem tasks_launch_self (l : Launch) : (w.launch P i l).tasks i =
    some ⟨l.node, w.stamp, (l.timeout P).map (w.now + ·)⟩ := update_self _ _ _

theorem tasks_launch_of_ne (h : j ≠ i) (l : Launch) :
    (w.launch P i l).tasks j = w.tasks j := update_of_ne h _ _

theorem track_launch_cases (l : Launch) (j : ℕ) :
    j = i ∧ (w.launch P i l).track j = { role := l.role P } ∨
      j ≠ i ∧ (w.launch P i l).track j = w.track j := by
  by_cases h : j = i
  · subst h
    exact .inl ⟨rfl, by simp [track, launch]⟩
  · exact .inr ⟨h, by simp [track, launch, update_of_ne h]⟩

/-- What the moves of the world leave alone, and what they may change. -/
structure Drifts (P : Setup B) (w w' : Cluster B) : Prop where
  replica : w'.storage.replica = w.storage.replica
  opened : w'.storage.opened = w.storage.opened
  sessions : ∀ h ses, w'.storage.sessions h = some ses → w.storage.sessions h = some ses
  now : w.now ≤ w'.now
  tasks : w'.tasks = w.tasks
  past : w'.past = w.past
  writeHolder : w'.writeLease.holder = w.writeLease.holder
  writeExpiry : w.writeLease.expiresAt ≤ w'.writeLease.expiresAt
  passHolder : w'.passLease.holder = w.passLease.holder
  passExpiry : w.passLease.expiresAt ≤ w'.passLease.expiresAt
  caches : ∀ n, ∀ e ∈ (w'.caches n).entries, e.key = P.key →
    ∃ e' ∈ (w.caches n).entries, e'.key = P.key ∧ e'.inst = e.inst

theorem Drifts.refl (w : Cluster B) : w.Drifts P w :=
  ⟨rfl, rfl, fun _ _ h => h, le_rfl, rfl, rfl, rfl, le_rfl, rfl, le_rfl, fun _ e he hk =>
    ⟨e, he, hk, rfl⟩⟩

/-- The use of a cache for another key keeps the entries of a key or removes them. -/
theorem mem_apply {use : CacheUse} {cache : Cache (Option Sess)} {key other : String} {now : ℤ}
    {e : Cache.Entry (Option Sess)} (he : e ∈ (use.apply cache other now).2.entries)
    (hkey : e.key = key) (hne : other ≠ key) :
    ∃ e' ∈ cache.entries, e'.key = key ∧ e'.inst = e.inst := by
  cases use with
  | get =>
    obtain ⟨e', he', hk, hi⟩ := Cache.mem_get he
    exact ⟨e', he', hk.trans hkey, hi⟩
  | put =>
    rcases Cache.mem_put he with he | rfl
    · exact ⟨e, he, hkey, rfl⟩
    · exact absurd hkey hne
  | evict => exact ⟨e, (Cache.mem_evict he).1, hkey, rfl⟩

theorem move_drifts {e : Event} (h : w.move P e = some w') : w.Drifts P w' := by
  cases e with
  | tick now =>
    obtain ⟨hle, rfl⟩ := ite_some_none_eq_some.mp h
    exact { Drifts.refl w with now := hle }
  | renewWrite expiresAt =>
    obtain ⟨hheld, rfl⟩ := ite_some_none_eq_some.mp h
    exact { Drifts.refl w with writeExpiry := hheld.2 }
  | renewPass expiresAt =>
    obtain ⟨hheld, rfl⟩ := ite_some_none_eq_some.mp h
    exact { Drifts.refl w with passExpiry := hheld.2 }
  | cache node key use =>
    simp only [move] at h
    split at h
    · cases h
    · next hne =>
      cases h
      refine { Drifts.refl (P := P) w with
        replica := replica_closeAll _ _
        opened := opened_closeAll _ _
        sessions := fun _ _ => sessions_closeAll
        caches := fun n e he hk => ?_ }
      by_cases hn : n = node
      · subst hn
        simp only [update_self] at he
        exact mem_apply he hk hne
      · simp only [update_of_ne hn] at he
        exact ⟨e, he, hk, rfl⟩

theorem Drifts.track_eq (h : w.Drifts P w') (j : ℕ) : w'.track j = w.track j := by
  rw [track, h.past, track]

theorem Drifts.live (h : w.Drifts P w') (hlive : w'.Live T) : w.Live T :=
  fun d hd => h.now.trans (hlive d hd)

/-! ### Leases -/

/-- The processes that believe to hold a lease and whose deadline has not passed hold it, and the
lease has not expired before its holder's start plus its duration. -/
structure Guarded (P : Setup B) (w : Cluster B) (duration : Node → ℤ) (cell : Cell)
    (holds : ℕ → Bool) : Prop where
  holder : ∀ i T, w.tasks i = some T → holds i = true → w.Live T → cell.holder = some i
  expiry : ∀ i, cell.holder = some i → ∃ T, w.tasks i = some T ∧
    T.started.time + (P.nodes T.node).clock + duration (P.nodes T.node) ≤ cell.expiresAt

/-- The deadline of every task comes before its leases can be taken over. -/
def Bounded (P : Setup B) (w : Cluster B) : Prop :=
  ∀ i T, w.tasks i = some T → ∃ d ∈ T.deadline, ∀ m, d + (P.nodes m).clock ≤
    T.started.time + (P.nodes T.node).clock + (P.nodes T.node).duration + (P.nodes m).skew

/-- Both leases are guarded. -/
structure Fenced (P : Setup B) (w : Cluster B) : Prop where
  bounded : w.Bounded P
  write : w.Guarded P Node.duration w.writeLease fun i => (w.track i).write
  pass : w.Guarded P Node.passDuration w.passLease fun i => (w.track i).pass

/-- **A live holder keeps others out.** -/
theorem Guarded.not_free (h : w.Guarded P duration cell holds) (hb : w.Bounded P)
    (hdur : ∀ n : Node, n.duration ≤ duration n) (hT : w.tasks i = some T) (hi : holds i = true)
    (hlive : w.Live T) (m : ℕ) : ¬ cell.Free (w.now + (P.nodes m).clock) (P.nodes m).skew := by
  have hholder := h.holder i T hT hi hlive
  obtain ⟨T', hT', huntil⟩ := h.expiry i hholder
  cases hT.symm.trans hT'
  obtain ⟨d, hd, hbound⟩ := hb i T hT
  have hnow : w.now ≤ d := hlive d hd
  have hm := hbound m
  have hd' := hdur (P.nodes T.node)
  rintro (hnone | hexpired)
  · rw [hholder] at hnone
    cases hnone
  · omega

/-- Two live processes do not both hold a lease. -/
theorem Guarded.unique {T' : Task} (h : w.Guarded P duration cell holds) (hT : w.tasks i = some T)
    (hi : holds i = true) (hlive : w.Live T) (hT' : w.tasks j = some T') (hj : holds j = true)
    (hlive' : w.Live T') : i = j :=
  some.inj ((h.holder i T hT hi hlive).symm.trans (h.holder j T' hT' hj hlive'))

/-- How the belief of a process to hold a lease follows its calls. -/
def Follows (before after : Bool) : LeaseAction → Prop
  | .none | .notAcquired => after = true → before = true
  | .acquired => True
  | .released | .notReleased => after = false

/-- A call keeps a lease guarded. -/
theorem Guarded.step {cell' : Cell} {holds' : ℕ → Bool} {action : LeaseAction}
    (h : w.Guarded P duration cell holds) (hb : w.Bounded P)
    (hdur : ∀ n : Node, n.duration ≤ duration n) (hT : w.tasks i = some T) (hnow : w'.now = w.now)
    (htasks : w'.tasks = w.tasks) (hself : Follows (holds i) (holds' i) action)
    (hother : ∀ j ≠ i, holds' j = holds j)
    (hstep : cell.Step i (w.now + (P.nodes T.node).clock) (P.nodes T.node).skew
      (T.started.time + (P.nodes T.node).clock + duration (P.nodes T.node)) action cell') :
    w'.Guarded P duration cell' holds' := by
  have hlive_iff : ∀ T, w'.Live T ↔ w.Live T := fun T => by rw [Live, Live, hnow]
  -- the lease changes hands only when no other process holds it
  have hacq : cell.Acquired i (w.now + (P.nodes T.node).clock) (P.nodes T.node).skew
      (T.started.time + (P.nodes T.node).clock + duration (P.nodes T.node)) cell' →
      w'.Guarded P duration cell' holds' := by
    rintro ⟨hfree, hholder, huntil⟩
    refine ⟨fun j T' hT' hj hlive => ?_, fun j hj => ?_⟩
    · by_cases hji : j = i
      · rw [hji, hholder]
      rw [htasks] at hT'
      rw [hother j hji] at hj
      exact absurd hfree (h.not_free hb hdur hT' hj ((hlive_iff T').mp hlive) T.node)
    · cases hholder.symm.trans hj
      exact ⟨T, by rw [htasks]; exact hT, huntil⟩
  have hsame : (holds' i = true → holds i = true) → cell' = cell →
      w'.Guarded P duration cell' holds' := by
    rintro hi rfl
    refine ⟨fun j T' hT' hj hlive => ?_, fun j hj => by rw [htasks]; exact h.expiry j hj⟩
    rw [htasks] at hT'
    refine h.holder j T' hT' ?_ ((hlive_iff T').mp hlive)
    by_cases hji : j = i
    · rw [hji] at hj ⊢
      exact hi hj
    · rwa [← hother j hji]
  have hgone : holds' i = false → cell' = cell ∨ cell.Released i cell' →
      w'.Guarded P duration cell' holds' := by
    intro hi hcell
    have hsub : ∀ j T', w.tasks j = some T' → holds' j = true → w.Live T' →
        j ≠ i ∧ cell.holder = some j := by
      intro j T' hT' hj hlive
      have hji : j ≠ i := by
        rintro rfl
        rw [hi] at hj
        cases hj
      exact ⟨hji, h.holder j T' hT' (by rwa [← hother j hji]) hlive⟩
    rcases hcell with rfl | ⟨hholder, rfl⟩
    · refine ⟨fun j T' hT' hj hlive => ?_, fun j hj => by rw [htasks]; exact h.expiry j hj⟩
      rw [htasks] at hT'
      exact (hsub j T' hT' hj ((hlive_iff T').mp hlive)).2
    refine ⟨fun j T' hT' hj hlive => ?_, nofun⟩
    rw [htasks] at hT'
    obtain ⟨hji, hj⟩ := hsub j T' hT' hj ((hlive_iff T').mp hlive)
    exact absurd (some.inj (hj.symm.trans hholder)) hji
  cases action with
  | none => exact hsame hself hstep
  | acquired => exact hacq hstep
  | notAcquired => exact hstep.elim (hsame hself) hacq
  | released => exact hgone hself (.inr hstep)
  | notReleased => exact hgone hself hstep

theorem lease_follows (json : ManifestJson B) (s : Track) (c : Op B) (r : Resp c) :
    Follows s.write (s.step json c r).write (writeAction c r) ∧
      Follows s.pass (s.step json c r).pass (passAction c r) := by
  by_cases hk : c.kind = .lease
  · cases c with
    | acquire =>
      cases r with
      | ok => exact ⟨trivial, fun h => h⟩
      | error => exact ⟨fun h => h, fun h => h⟩
    | acquireKey =>
      cases r with
      | ok => exact ⟨fun h => h, trivial⟩
      | error => exact ⟨fun h => h, fun h => h⟩
    | release held cancellable => cases cancellable <;> cases r <;> exact ⟨rfl, fun h => h⟩
    | releaseKey => cases r <;> exact ⟨fun h => h, rfl⟩
    | abandon => exact ⟨nofun, fun h => h⟩
    | _ => cases hk
  · obtain ⟨hwrite, hpass, -⟩ := (s.step_frame json c r).lease hk
    have hnone : writeAction c r = .none ∧ passAction c r = .none := by
      cases c <;> first | exact ⟨rfl, rfl⟩ | exact absurd rfl hk
    rw [hnone.1, hnone.2]
    exact ⟨fun h => hwrite ▸ h, fun h => hpass ▸ h⟩

theorem duration_le_passDuration (n : Node) : n.duration ≤ n.passDuration := le_max_left _ _

theorem Fenced.call (h : w.Fenced P) (hcall : w.Answers P i c r w') : w'.Fenced P := by
  obtain ⟨T, st, write, pass, hT, -, -, hwrite, hpass, -, rfl⟩ := hcall
  refine ⟨h.bounded, ?_, ?_⟩
  · refine h.write.step h.bounded (fun _ => le_rfl) hT rfl rfl ?_ (fun j hj => ?_) hwrite
    · rw [track_after_self]
      exact (lease_follows P.json _ c r).1
    · rw [track_after_of_ne hj]
  · refine h.pass.step h.bounded duration_le_passDuration hT rfl rfl ?_ (fun j hj => ?_) hpass
    · rw [track_after_self]
      exact (lease_follows P.json _ c r).2
    · rw [track_after_of_ne hj]

theorem Guarded.launch {holds' : ℕ → Bool} {l : Launch} (h : w.Guarded P duration cell holds)
    (hi : w.tasks i = none) (hself : holds' i = false) (hother : ∀ j ≠ i, holds' j = holds j) :
    (w.launch P i l).Guarded P duration cell holds' := by
  refine ⟨fun j T hT hj hlive => ?_, fun j hj => ?_⟩
  · have hji : j ≠ i := by
      rintro rfl
      rw [hself] at hj
      cases hj
    rw [tasks_launch_of_ne hji] at hT
    exact h.holder j T hT (by rwa [← hother j hji]) hlive
  · obtain ⟨T, hT, hexp⟩ := h.expiry j hj
    have hji : j ≠ i := by
      rintro rfl
      rw [hi] at hT
      cases hT
    exact ⟨T, by rwa [tasks_launch_of_ne hji], hexp⟩

theorem Fenced.launch (htimely : P.Timely) (h : w.Fenced P) (hi : w.tasks i = none) (l : Launch) :
    (w.launch P i l).Fenced P := by
  have htrack : ∀ f : Track → Bool, f { role := l.role P } = false →
      f ((w.launch P i l).track i) = false ∧
        ∀ j ≠ i, f ((w.launch P i l).track j) = f (w.track j) := by
    refine fun f hf => ⟨?_, fun j hj => ?_⟩
    · rcases track_launch_cases (P := P) (w := w) l i with ⟨-, heq⟩ | ⟨hne, -⟩
      · rwa [heq]
      · exact absurd rfl hne
    rcases track_launch_cases (P := P) (w := w) (i := i) l j with ⟨heq, -⟩ | ⟨-, heq⟩
    · exact absurd heq hj
    · rw [heq]
  refine ⟨fun j T hT => ?_, ?_, ?_⟩
  · by_cases hj : j = i
    · subst hj
      rw [tasks_launch_self] at hT
      cases hT
      have hnode := fun m => htimely l.node m
      have htimeout : ∃ t, l.timeout P = some t ∧ ∀ m, t + (P.nodes m).clock ≤
          (P.nodes l.node).duration + (P.nodes l.node).clock + (P.nodes m).skew := by
        cases l with
        | write n key | read n =>
          exact ⟨_, if_pos (hnode 0).1, fun m => (hnode m).2.1⟩
        | compaction n => exact ⟨_, rfl, fun m => (hnode m).2.2⟩
      obtain ⟨t, ht, hbound⟩ := htimeout
      refine ⟨w.now + t, by simp [ht], fun m => ?_⟩
      have := hbound m
      simp only [stamp]
      omega
    · rw [tasks_launch_of_ne hj] at hT
      exact h.bounded j T hT
  · obtain ⟨hself, hother⟩ := htrack Track.write rfl
    exact h.write.launch hi hself hother
  · obtain ⟨hself, hother⟩ := htrack Track.pass rfl
    exact h.pass.launch hi hself hother

theorem Guarded.move {cell' : Cell} (h : w.Guarded P duration cell holds) (hnow : w.now ≤ w'.now)
    (htasks : w'.tasks = w.tasks) (hholder : cell'.holder = cell.holder)
    (hexp : cell.expiresAt ≤ cell'.expiresAt) : w'.Guarded P duration cell' holds := by
  refine ⟨fun j T hT hj hlive => ?_, fun j hj => ?_⟩
  · rw [htasks] at hT
    rw [hholder]
    exact h.holder j T hT hj fun d hd => hnow.trans (hlive d hd)
  · obtain ⟨T, hT, hle⟩ := h.expiry j (hholder ▸ hj)
    exact ⟨T, htasks ▸ hT, hle.trans hexp⟩

theorem Fenced.move (h : w.Fenced P) (hmove : w.Drifts P w') : w'.Fenced P := by
  refine ⟨fun j T hT => h.bounded j T (hmove.tasks ▸ hT), ?_, ?_⟩
  · simp only [hmove.track_eq]
    exact h.write.move hmove.now hmove.tasks hmove.writeHolder hmove.writeExpiry
  · simp only [hmove.track_eq]
    exact h.pass.move hmove.now hmove.tasks hmove.passHolder hmove.passExpiry

/-! ### Rows, manifests and sessions -/

/-- What holds in every run, whatever the leases guarantee. -/
structure Facts (P : Setup B) (w : Cluster B) : Prop where
  proper : w.storage.replica.Proper P.json
  present : ∀ i, (w.track i).SawManifest → w.storage.replica.manifest ≠ none
  fresh : w.storage.Fresh
  sessions : ∀ i h m, (w.track i).session = some (h, m) → h < w.storage.opened ∧
    ∀ ses, w.storage.sessions h = some ses → ses.Of (w.track i) m
  owner : ∀ i j h m m', (w.track i).session = some (h, m) → (w.track j).session = some (h, m') →
    i = j

/-- What holds in every run of a timely setup. -/
structure Base (P : Setup B) (w : Cluster B) : Prop extends Facts P w where
  fenced : w.Fenced P

/-- **Answers tell a process what its protocol relies on.** -/
theorem Facts.learns (h : w.Facts P) (hallow : w.Permits P i c) (hcall : w.Answers P i c r w') :
    (w.track i).Learns P.json c r := by
  obtain ⟨T, st, write, pass, hT, hcredible, hanswers, -, -, -, -⟩ := hcall
  cases c with
  | manifestGet =>
    cases r with
    | ok data => exact h.proper.decodes data hanswers.2
    | error e =>
      intro hfound
      have hnone := hanswers.2 hfound
      refine ⟨fun files hs => ?_, fun files hs => ?_⟩
      · exact h.present i (.inl ⟨files, hs⟩) hnone
      · exact h.present i (.inr (.inl ⟨files, hs⟩)) hnone
  | ltxFiles site level =>
    cases r with
    | ok files =>
      have hvalid : ∀ f ∈ files, f.key.Valid ∧ f.level = level := by
        simpa [credible] using hcredible
      exact hvalid
    | error e => trivial
  | compact level files =>
    cases r with
    | ok info => exact ⟨hanswers.1.1, hanswers.1.2.2⟩
    | error e =>
      intro hnone
      simpa [credible, hnone] using hcredible
  | selectTXID s key =>
    rcases r with e | _ | text
    · trivial
    · trivial
    obtain ⟨hw, m, hm, -⟩ := hallow
    obtain ⟨-, ses, hses, htext⟩ := hanswers
    obtain ⟨-, hsession⟩ := h.sessions i s m.join hm
    have hof := hsession ses hses
    obtain ⟨row, hrow, hrow'⟩ := map_eq_some_iff.mp htext.symm
    have hmem := mem_of_find?_eq_some hrow
    rw [hof.unstaged hw.position, append_nil] at hmem
    obtain ⟨⟨hproper, hlt⟩, -⟩ := hof.visible row hmem
    exact ⟨row.txid, hlt, hrow'.symm.trans hproper⟩
  | pos s =>
    cases r with
    | error e => trivial
    | ok n =>
      intro plan hplan
      obtain ⟨-, ses, hses, rfl⟩ := hanswers
      have hof := (h.sessions i s _ hplan).2 ses hses
      rw [Session.pos, hof.unflushed hallow.1.flushed plan rfl]
  | setWriteDisabled s =>
    cases r with
    | some e => trivial
    | none =>
      intro n hn
      obtain ⟨hflushed, m, _, hrun⟩ := hallow
      obtain ⟨ses, info, hses, -, hland, -⟩ := hanswers
      have hof := (h.sessions i s m.join hrun.session).2 ses hses
      rw [← hof.position hflushed n hn]
      exact hland.1
  | manifestFiles s =>
    obtain ⟨-, ses, hses, rfl⟩ := hanswers
    refine ⟨fun hnone => ?_, fun hflushed plan n hplan hn => ?_⟩
    · have hof := (h.sessions i s _ hnone).2 ses hses
      exact if_neg (by simp [hof.captured])
    · have hof := (h.sessions i s _ hplan).2 ses hses
      exact ⟨ses.client.files, if_pos hof.captured, hof.flushed hflushed plan n rfl hn⟩
  | _ => trivial

theorem proper_land {ses : Session} {s : Track} {m : Seen} {info : FileInfo} (hof : ses.Of s m)
    (hflushed : s.flushed = false) (hland : ses.Lands info) :
    (⟨info, ses.staged⟩ : Object).Proper := by
  obtain ⟨hlt, hinfo⟩ := hland
  have hkey : info.key = Track.nextKey ses.pos := by
    rw [hinfo]
    rfl
  refine ⟨?_, fun row hrow => ?_⟩
  · rw [hkey]
    exact ⟨Nat.zero_le _, Nat.succ_pos _, le_rfl⟩
  obtain ⟨htxid, htext⟩ := hof.staged hflushed row hrow
  have hmin : info.minTXID = ses.pos + 1 := congrArg FileKey.minTXID hkey
  have hmax : info.maxTXID = ses.pos + 1 := congrArg FileKey.maxTXID hkey
  refine ⟨⟨?_, htxid ▸ hlt⟩, ?_, ?_⟩
  · rw [htext, htxid, Nat.mod_eq_of_lt hlt]
  · rw [hmin, htxid]
  · rw [hmax, htxid]

theorem Facts.call_proper (h : w.Facts P) (hallow : w.Permits P i c)
    (hanswers : w.storage.Answers c r st) : st.replica.Proper P.json := by
  rcases hanswers.replica_cases with heq | ⟨data, rfl, heq⟩ | ⟨site, files, gone, rfl, -, heq⟩ |
    ⟨level, files, info, rfl, hmerge, heq⟩ | ⟨s, ses, info, hc, hses, hland, heq⟩
  · rw [heq]
    exact h.proper
  · obtain ⟨-, files, hdata, hvalid, -⟩ := hallow
    obtain ⟨decoded, hdecode, -⟩ := decodeManifest_encodeManifest P.json hvalid hdata
    rw [heq]
    exact h.proper.store hdecode
  · rw [heq]
    exact h.proper.remove gone
  · obtain ⟨-, -, T, S, -, -, hS, below, rfl, hlevel, hmerging⟩ := hallow
    have htop : below + 1 ≤ snapshotLevel := hlevel.trans (by decide)
    rw [heq]
    exact h.proper.merge (hmerging.valid hS (Nat.le_of_succ_le htop)).1 htop hmerge
  · obtain ⟨hflushed, m, n, hrun⟩ : (w.track i).flushed = false ∧ ∃ m n,
        (w.track i).Running s m n := by
      rcases hc with rfl | rfl <;> exact hallow
    rw [heq]
    exact h.proper.put
      (proper_land ((h.sessions i s m.join hrun.session).2 ses hses) hflushed hland)

theorem manifest_mono (hanswers : w.storage.Answers c r st)
    (h : w.storage.replica.manifest ≠ none) : st.replica.manifest ≠ none := by
  rcases hanswers.replica_cases with heq | ⟨data, rfl, heq⟩ | ⟨site, files, gone, rfl, -, heq⟩ |
    ⟨level, files, info, rfl, hmerge, heq⟩ | ⟨s, ses, info, hc, hses, hland, heq⟩
  · rwa [heq]
  · rw [heq]
    exact nofun
  all_goals
    rw [heq]
    exact h

theorem Facts.call_present (h : w.Facts P) (hanswers : w.storage.Answers c r st)
    (hsaw : ((w.track i).step P.json c r).SawManifest) : st.replica.manifest ≠ none := by
  by_cases hold : (w.track i).SawManifest
  · exact manifest_mono hanswers (h.present i hold)
  cases c with
  | manifestGet =>
    cases r with
    | ok data =>
      rw [hanswers.1, hanswers.2]
      exact some_ne_none _
    | error e =>
      -- an error shows no manifest
      refine absurd ?_ hold
      have hseen : ∀ files, shownManifest P.json (.error e) ≠ some (some files) := by
        intro files
        simp only [shownManifest]
        split <;> simp
      revert hsaw
      simp only [Track.step, Track.see]
      split
      · rintro (hs | ⟨files, hs⟩ | hs)
        · exact .inl hs
        · exact absurd hs (hseen files)
        · exact .inr (.inr hs)
      · split
        · exact fun hs => hs
        rintro (⟨files, hs⟩ | hs | hs)
        · exact absurd hs (hseen files)
        · exact .inr (.inl hs)
        · exact .inr (.inr hs)
  | manifestPut data =>
    cases r with
    | none =>
      rw [show st = _ from hanswers]
      exact some_ne_none _
    | some e =>
      rcases hsaw with hs | ⟨files, hs⟩ | hs
      · exact absurd (.inl hs) hold
      · cases hs
      · exact absurd (.inr (.inr hs)) hold
  | _ =>
    refine absurd ?_ hold
    obtain ⟨hsnapshot, hcurrent, hstored⟩ :=
      ((w.track i).step_frame P.json _ r).manifest (by rintro ⟨⟩) (by rintro ⟨⟩)
    rwa [Track.SawManifest, hsnapshot, hcurrent, hstored] at hsaw

section

variable (h : w.Facts P) (hallow : w.Permits P i c)
  (hanswers : w.storage.Answers c r st)
include h hallow hanswers

theorem Facts.call_session_self {s : Sess} {m : Seen} {ses : Session}
    (hm : (w.track i).session = some (s, m)) (hses : st.sessions s = some ses) :
    ses.Of ((w.track i).step P.json c r) m := by
  obtain ⟨hlt, hof⟩ := h.sessions i s m hm
  have howned : ∀ {s'}, (w.track i).Owns s' → s' = s := by
    rintro s' ⟨m', hm'⟩
    exact (Prod.mk.inj (some.inj (hm'.symm.trans hm))).1
  cases hanswers.session_cases hses with
  | opened heq hc => exact absurd heq hlt.ne
  | same hses' hc =>
    have hbefore := hof ses hses'
    by_cases hpos : ∃ s', c = .pos s'
    · obtain ⟨s', rfl⟩ := hpos
      obtain ⟨hw, m', hm', -⟩ := hallow
      obtain rfl := howned ⟨m'.join, hm'⟩
      cases r with
      | error e => exact hbefore
      | ok n =>
        obtain ⟨-, ses', hses'', rfl⟩ := hanswers
        cases hses'.symm.trans hses''
        exact hbefore.atPosition hw.flushed
    by_cases hflush : ∃ s', c = .setWriteDisabled s'
    · obtain ⟨s', rfl⟩ := hflush
      obtain ⟨-, m', n, hrun⟩ := hallow
      obtain rfl := howned ⟨m'.join, hrun.session⟩
      cases r with
      | none => simp [Storage.flushes] at hc
      | some e => exact hbefore
    obtain ⟨hflushed, hposition⟩ := (w.track i).step_steady P.json c r
      (fun s' hc => hpos ⟨s', hc⟩) fun s' hc => hflush ⟨s', hc⟩
    exact hbefore.congr hflushed hposition
  | stage key text hses' =>
    obtain ⟨hflushed, m', n, hrun, rfl⟩ := hallow
    exact (hof _ hses').stage hflushed hrun.position key
  | rollback hses' => exact (hof _ hses').rollback
  | commit hses' => exact (hof _ hses').commit
  | flush hses' hland => exact (hof _ hses').flush hallow.1 hland

theorem Facts.call_session_other {s : Sess} {m : Seen} {ses : Session} (hj : j ≠ i)
    (hm : (w.track j).session = some (s, m)) (hses : st.sessions s = some ses) :
    ses.Of (w.track j) m := by
  obtain ⟨hlt, hof⟩ := h.sessions j s m hm
  have howned : ¬ (w.track i).Owns s := by
    rintro ⟨m', hm'⟩
    exact hj (h.owner j i s m m' hm hm')
  cases hanswers.session_cases hses with
  | opened heq hc => exact absurd heq hlt.ne
  | same hses' hc => exact hof ses hses'
  | stage key text hses' =>
    obtain ⟨-, m', n, hrun, -⟩ := hallow
    exact absurd ⟨m'.join, hrun.session⟩ howned
  | rollback hses' => exact (hof _ hses').rollback
  | commit hses' | flush hses' hland =>
    obtain ⟨-, m', n, hrun⟩ := hallow
    exact absurd ⟨m'.join, hrun.session⟩ howned

end

theorem Facts.newSession_of (h : w.Facts P) {s : Track} (plan : Seen) (hflushed : s.flushed = false)
    (hposition : s.position = none) : (w.storage.newSession plan).Of s plan := by
  refine ⟨rfl, ?_, ?_, ?_, fun _ => rfl, fun _ => nofun, ?_⟩
  · rintro - _ rfl
    rfl
  · intro hf
    exact absurd (hflushed.symm.trans hf) nofun
  · intro _ n hn
    exact absurd (hposition.symm.trans hn) nofun
  · intro row hrow
    obtain ⟨o, ho, hkey, hrow⟩ := Replica.mem_rowsOf.mp hrow
    obtain ⟨hproper, hmin, hmax⟩ := (h.proper.objects o ho).2 row hrow
    refine ⟨hproper, ?_⟩
    rintro _ rfl
    exact ⟨o.info.key, hkey, hmin, hmax⟩

/-- The session of a record changes only when a write session is opened. -/
theorem session_step_cases (hallow : w.Permits P i c) (hanswers : w.storage.Answers c r st) :
    ((w.track i).step P.json c r).session = (w.track i).session ∨
      ∃ plan lapsed, c = .openWrite plan ∧ st = w.storage.openSession plan ∧
        (w.track i).Writing ∧ (w.track i).step P.json c r =
          { w.track i with session := some (w.storage.opened, plan), lapsed } := by
  cases c with
  | openWrite plan =>
    cases r with
    | error e => exact .inl rfl
    | ok s =>
      obtain ⟨rfl, rfl⟩ := hanswers
      exact .inr ⟨plan, _, rfl, rfl, hallow.1, rfl⟩
  | pos | setWriteDisabled => cases r <;> exact .inl rfl
  | selectTXID => rcases r with e | _ | text <;> exact .inl rfl
  | manifestGet | ltxFiles | release | acquire | acquireKey | manifestPut | compact | openRead
  | cacheGet => exact .inl (((w.track i).step_frame P.json _ r).session nofun).1
  | _ => exact .inl rfl

/-- The process `i` opens the write session `s` on the manifest `m`. -/
structure Opens (P : Setup B) (w : Cluster B) (i : ℕ) (s : Sess) (m : Seen) (w' : Cluster B) :
    Prop where
  live : w.Alive i
  handle : s = w.storage.opened
  opened : w'.storage.opened = w.storage.opened + 1
  session : ∀ ses, w'.storage.sessions s = some ses → ses = w.storage.newSession m
  writing : (w.track i).Writing
  track : ∃ lapsed, w'.track i = { w.track i with session := some (s, m), lapsed }

/-- A record names the session that it named before, or one that its process has just opened. -/
theorem Answers.session_named (hallow : w.Permits P i c) (hcall : w.Answers P i c r w') {s : Sess}
    {m : Seen} (hm : (w'.track j).session = some (s, m)) :
    (w.track j).session = some (s, m) ∨
      j = i ∧ c = .openWrite m ∧ w.Opens P i s m w' := by
  have htrack := hcall.track_cases j
  obtain ⟨T, st, write, pass, hT, -, hanswers, -, -, hbound, rfl⟩ := hcall
  rcases htrack with ⟨rfl, hself⟩ | ⟨hne, hother⟩
  · rw [hself] at hm
    rcases session_step_cases hallow hanswers with hsame | ⟨plan, lapsed, rfl, rfl, hw, hstep⟩
    · exact .inl (hsame ▸ hm)
    rw [hstep] at hm
    cases hm
    refine .inr ⟨rfl, rfl, ⟨T, hT, ?_⟩, rfl, opened_closeAll _ _, fun ses hses => ?_, hw,
      lapsed, hself.trans hstep⟩
    · rcases hbound rfl with hlive | ⟨-, hst, -⟩
      · exact hlive
      · exact absurd (congrArg Storage.opened hst) (Nat.succ_ne_self _)
    · have hnew := sessions_closeAll hses
      simpa [Storage.openSession, Storage.setSession] using hnew.symm
  · exact .inl (hother ▸ hm)

/-- **A call of a process that keeps to its protocol keeps the facts.** -/
theorem Facts.call (h : w.Facts P) (hallow : w.Permits P i c) (hcall : w.Answers P i c r w') :
    w'.Facts P := by
  have htrack := hcall.track_cases
  have hnamed : ∀ j s m, (w'.track j).session = some (s, m) → (w.track j).session = some (s, m) ∨
      j = i ∧ c = .openWrite m ∧ w.Opens P i s m w' := fun j s m => hcall.session_named hallow
  obtain ⟨T, st, write, pass, hT, -, hanswers, -, -, -, rfl⟩ := hcall
  have hopened : (w.after P i T c r st write pass).storage.opened = st.opened := opened_closeAll _ _
  have hsessions : ∀ {s ses}, (w.after P i T c r st write pass).storage.sessions s = some ses →
      st.sessions s = some ses := sessions_closeAll
  refine ⟨?_, fun j hsaw => ?_, ?_, fun j s m hm => ?_, fun j j' s m m' hm hm' => ?_⟩
  · rw [replica_after]
    exact h.call_proper hallow hanswers
  · rw [replica_after]
    rcases htrack j with ⟨rfl, hself⟩ | ⟨hne, hother⟩
    · exact h.call_present hanswers (hself ▸ hsaw)
    · exact manifest_mono hanswers (h.present j (hother ▸ hsaw))
  · intro s hs
    rcases hses : (w.after P i T c r st write pass).storage.sessions s with _ | ses
    · rfl
    have hnone := hanswers.fresh h.fresh s (hopened ▸ hs)
    rw [hsessions hses] at hnone
    cases hnone
  · rcases hnamed j s m hm with hold | ⟨rfl, -, hopens⟩
    · refine ⟨hopened ▸ ((h.sessions j s m hold).1.trans_le hanswers.opened_le), fun ses hses => ?_⟩
      rcases htrack j with ⟨rfl, hself⟩ | ⟨hne, hother⟩
      · rw [hself]
        exact h.call_session_self hallow hanswers hold (hsessions hses)
      · rw [hother]
        exact h.call_session_other hallow hanswers hne hold (hsessions hses)
    · obtain ⟨lapsed, hself⟩ := hopens.track
      refine ⟨?_, fun ses hses => ?_⟩
      · rw [hopens.opened, hopens.handle]
        exact Nat.lt_succ_self _
      · rw [hself, hopens.session ses hses]
        exact h.newSession_of m hopens.writing.flushed hopens.writing.position
  · have hnew : ∀ {j j' s m m'}, (w.track j).session = some (s, m) →
        w.Opens P j' s m' (w.after P i T c r st write pass) → False := by
      intro j j' s m m' hold hopens
      exact absurd (h.sessions j s m hold).1 (hopens.handle ▸ lt_irrefl _)
    rcases hnamed j s m hm with hold | ⟨rfl, -, hopens⟩
    · rcases hnamed j' s m' hm' with hold' | ⟨rfl, -, hopens⟩
      · exact h.owner j j' s m m' hold hold'
      · exact (hnew hold hopens).elim
    rcases hnamed j' s m' hm' with hold' | ⟨rfl, -⟩
    · exact (hnew hold' hopens).elim
    · rfl

theorem Facts.launch (h : w.Facts P) (l : Launch) : (w.launch P i l).Facts P := by
  have htrack := track_launch_cases (P := P) (w := w) (i := i) l
  have hnamed : ∀ j s m, ((w.launch P i l).track j).session = some (s, m) →
      (w.launch P i l).track j = w.track j := by
    intro j s m hm
    rcases htrack j with ⟨-, heq⟩ | ⟨-, heq⟩
    · rw [heq] at hm
      cases hm
    · exact heq
  refine ⟨h.proper, fun j hsaw => ?_, h.fresh, fun j s m hm => ?_, fun j j' s m m' hm hm' => ?_⟩
  · rcases htrack j with ⟨-, heq⟩ | ⟨-, heq⟩
    · rw [heq] at hsaw
      rcases hsaw with ⟨files, hs⟩ | ⟨files, hs⟩ | hs <;> cases hs
    · exact h.present j (heq ▸ hsaw)
  · have heq := hnamed j s m hm
    rw [heq] at hm ⊢
    exact h.sessions j s m hm
  · rw [hnamed j s m hm] at hm
    rw [hnamed j' s m' hm'] at hm'
    exact h.owner j j' s m m' hm hm'

theorem Facts.move (h : w.Facts P) (hmove : w.Drifts P w') : w'.Facts P := by
  refine ⟨?_, fun j hsaw => ?_, fun s hs => ?_, fun j s m hm => ?_, fun j j' s m m' hm hm' => ?_⟩
  · rw [hmove.replica]
    exact h.proper
  · rw [hmove.replica]
    exact h.present j (hmove.track_eq j ▸ hsaw)
  · rcases hses : w'.storage.sessions s with _ | ses
    · rfl
    have hnone := h.fresh s (hmove.opened ▸ hs)
    rw [hmove.sessions s ses hses] at hnone
    cases hnone
  · rw [hmove.track_eq] at hm ⊢
    obtain ⟨hlt, hof⟩ := h.sessions j s m hm
    exact ⟨hmove.opened ▸ hlt, fun ses hses => hof ses (hmove.sessions s ses hses)⟩
  · rw [hmove.track_eq] at hm hm'
    exact h.owner j j' s m m' hm hm'

theorem facts_initial {rep : Replica B} (hrep : rep.Proper P.json) : (initial P rep).Facts P := by
  refine ⟨hrep, ?_, fun _ _ => rfl, nofun, nofun⟩
  rintro i (⟨files, hs⟩ | ⟨files, hs⟩ | hs) <;> cases hs

theorem fenced_initial (rep : Replica B) : (initial P rep).Fenced P := by
  have hguarded : ∀ (duration : Node → ℤ),
      (initial P rep).Guarded P duration ⟨none, 0⟩ fun _ => false := fun _ => ⟨nofun, nofun⟩
  exact ⟨nofun, hguarded _, hguarded _⟩

/-! ### Invariants of runs -/

/-- What a record says about the value of its program. -/
def Reports (s : Track) : Outcome → Prop
  | .wrote res => s.Acknowledges res
  | _ => True

theorem Launch.tracked (l : Launch) :
    (l.program P).Obeys (tracked P.json) Reports { role := l.role P } := by
  cases l with
  | write n key => exact withWriteAttempt_tracked.bind fun s res hres => hres
  | compaction n => exact runCompaction_tracked.bind fun s res hres => trivial
  | read n => exact (withRead_tracked none).bind fun s res hres => trivial

variable {good : Cluster B → ℕ → (c : Op B) → Resp c → Cluster B → Prop}

/-- The rule for invariants of runs that refer to the states of a further protocol `E`, which every
program keeps to from the state `e` of its launch. -/
theorem facts_invariant {σ : Type} (E : Protocol (Op B) Resp σ) (e₀ : σ) (e : Launch → σ)
    (hE : ∀ l : Launch, (l.program P).Keeps E (e l))
    {I : Cluster B → (ℕ → σ) → Prop} {rep : Replica B} (hrep : rep.Proper P.json)
    (h₀ : I (initial P rep) fun _ => e₀) (hstart : ∀ w g i l, w.Facts P → I w g → w.tasks i = none →
      I (w.launch P i l) (update g i (e l)))
    (hcall : ∀ w g i c r w', w.Facts P → I w g → (w.track i).Allows P.json c →
      (w.track i).Learns P.json c r → E.allow (g i) c → w.Answers P i c r w' → good w i c r w' →
      w'.Facts P → ∃ x, E.next (g i) c r x ∧ I w' (update g i x))
    (hmove : ∀ w g w', w.Facts P → I w g → w.Drifts P w' → I w' g)
    (h : ((clusterSystem P).restrict good).Reachable (initial P rep) a) :
    a.world.Facts P ∧ ∃ g, I a.world g ∧ ∀ i p, a.procs i = some p →
      p.Obeys ((Runtime.tracked P.json).prod E) (fun x res => Reports x.1 res ∧ True)
        (a.world.track i, g i) := by
  -- the first protocol state of a process is its record
  have hinv := h.invariant ((Runtime.tracked P.json).prod E) (fun _ x res => Reports x.1 res ∧ True)
    (fun w g => (∀ i, (g i).1 = w.track i) ∧ w.Facts P ∧ I w fun i => (g i).2)
    (fun i => ((initial P rep).track i, e₀)) ⟨fun _ => rfl, facts_initial hrep, h₀⟩ ?_ ?_ ?_
  · obtain ⟨g, ⟨hg, hfacts, hI⟩, hobeys⟩ := hinv
    refine ⟨hfacts, fun i => (g i).2, hI, fun i p hp => ?_⟩
    rw [← hg i]
    exact hobeys i p hp
  · rintro w g i p _ ⟨hg, hfacts, hI⟩ ⟨hi, l, rfl, rfl⟩
    refine ⟨({ role := l.role P }, e l), l.tracked.prod (hE l), fun j => ?_, hfacts.launch l, ?_⟩
    · rcases track_launch_cases (P := P) (w := w) (i := i) l j with ⟨rfl, heq⟩ | ⟨hne, heq⟩
      · rw [update_self, heq]
      · rw [update_of_ne hne, heq, hg]
    rw [show (fun j => (update g i ({ role := l.role P }, e l) j).2) =
      update (fun j => (g j).2) i (e l) from comp_update ..]
    exact hstart w _ i l hfacts hI hi
  · rintro w g i c r w' ⟨hg, hfacts, hI⟩ ⟨hallow, hallow'⟩ ⟨hanswers, hgood⟩
    rw [hg] at hallow
    have hlearns := hfacts.learns hallow hanswers
    have hfacts' := hfacts.call hallow hanswers
    obtain ⟨x, hx, hI'⟩ :=
      hcall w _ i c r w' hfacts hI hallow hlearns hallow' hanswers hgood hfacts'
    refine ⟨((w.track i).step P.json c r, x), ⟨by rw [hg]; exact ⟨hlearns, rfl⟩, hx⟩, fun j => ?_,
      hfacts', ?_⟩
    · rcases hanswers.track_cases j with ⟨rfl, heq⟩ | ⟨hne, heq⟩
      · rw [update_self, heq]
      · rw [update_of_ne hne, heq, hg]
    rw [show (fun j => (update g i ((w.track i).step P.json c r, x) j).2) =
      update (fun j => (g j).2) i x from comp_update ..]
    exact hI'
  · rintro w g w' ⟨hg, hfacts, hI⟩ ⟨e, hmove'⟩
    have hdrifts := move_drifts hmove'
    exact ⟨fun i => (hg i).trans (hdrifts.track_eq i).symm, hfacts.move hdrifts,
      hmove w _ w' hfacts hI hdrifts⟩

/-- The rule in a timely setup, where the leases are fenced. -/
theorem invariant_with {σ : Type} (E : Protocol (Op B) Resp σ) (e₀ : σ) (e : Launch → σ)
    (hE : ∀ l : Launch, (l.program P).Keeps E (e l)) (htimely : P.Timely)
    {I : Cluster B → (ℕ → σ) → Prop} {rep : Replica B} (hrep : rep.Proper P.json)
    (h₀ : I (initial P rep) fun _ => e₀) (hstart : ∀ w g i l, w.Base P → I w g → w.tasks i = none →
      I (w.launch P i l) (update g i (e l)))
    (hcall : ∀ w g i c r w', w.Base P → I w g → (w.track i).Allows P.json c →
      (w.track i).Learns P.json c r → E.allow (g i) c → w.Answers P i c r w' → good w i c r w' →
      w'.Base P → ∃ x, E.next (g i) c r x ∧ I w' (update g i x))
    (hmove : ∀ w g w', w.Base P → I w g → w.Drifts P w' → I w' g)
    (h : ((clusterSystem P).restrict good).Reachable (initial P rep) a) :
    a.world.Base P ∧ ∃ g, I a.world g ∧ ∀ i p, a.procs i = some p →
      p.Obeys ((Runtime.tracked P.json).prod E) (fun x res => Reports x.1 res ∧ True)
        (a.world.track i, g i) := by
  have hinv := facts_invariant E e₀ e hE (I := fun w g => w.Fenced P ∧ I w g) hrep
    ⟨fenced_initial rep, h₀⟩ ?_ ?_ ?_ h
  · obtain ⟨hfacts, g, ⟨hfenced, hI⟩, hobeys⟩ := hinv
    exact ⟨⟨hfacts, hfenced⟩, g, hI, hobeys⟩
  · rintro w g i l hfacts ⟨hfenced, hI⟩ hi
    exact ⟨hfenced.launch htimely hi l, hstart w g i l ⟨hfacts, hfenced⟩ hI hi⟩
  · rintro w g i c r w' hfacts ⟨hfenced, hI⟩ hallow hlearns hallow' hanswers hgood hfacts'
    have hfenced' := hfenced.call hanswers
    obtain ⟨x, hx, hI'⟩ := hcall w g i c r w' ⟨hfacts, hfenced⟩ hI hallow hlearns hallow' hanswers
      hgood ⟨hfacts', hfenced'⟩
    exact ⟨x, hx, hfenced', hI'⟩
  · rintro w g w' hfacts ⟨hfenced, hI⟩ hdrifts
    exact ⟨hfenced.move hdrifts, hmove w g w' ⟨hfacts, hfenced⟩ hI hdrifts⟩

/-- **The rule for invariants of runs.** A property of the world that holds initially, and that
starts, moves and the answers to protocol calls keep, holds along every run whose answers are
good, and with it the base facts; every program keeps to its protocol. -/
theorem invariant (htimely : P.Timely) {I : Cluster B → Prop} {rep : Replica B}
    (hrep : rep.Proper P.json) (h₀ : I (initial P rep))
    (hstart : ∀ w i l, w.Base P → I w → w.tasks i = none → I (w.launch P i l))
    (hcall : ∀ w i c r w', w.Base P → I w → (w.track i).Allows P.json c →
      (w.track i).Learns P.json c r → w.Answers P i c r w' → good w i c r w' → w'.Base P → I w')
    (hmove : ∀ w w', w.Base P → I w → w.Drifts P w' → I w')
    (h : ((clusterSystem P).restrict good).Reachable (initial P rep) a) :
    a.world.Base P ∧ I a.world ∧ ∀ i p, a.procs i = some p →
      p.Obeys (Runtime.tracked P.json) Reports (a.world.track i) := by
  have hE (l : Launch) : (l.program P).Keeps (.ofStep fun (_ : Unit) _ _ => ()) () :=
    (Prog.yields_true _).obeys fun _ _ _ => trivial
  obtain ⟨hbase, g, hI, hobeys⟩ := invariant_with (.ofStep fun (_ : Unit) _ _ => ()) ()
    (fun _ => ()) hE htimely (I := fun w _ => I w) hrep h₀ (fun w _ => hstart w)
    (fun w _ i c r w' hbase hI hallow hlearns _ hanswers hgood hbase' =>
      ⟨(), rfl, hcall w i c r w' hbase hI hallow hlearns hanswers hgood hbase'⟩)
    (fun w _ => hmove w) h
  exact ⟨hbase, hI, fun i p hp =>
    (hobeys i p hp).of_prod (fun _ _ _ => ⟨(), rfl⟩) fun _ _ hx => hx.1⟩

end Cluster

end Walrusd.Runtime
