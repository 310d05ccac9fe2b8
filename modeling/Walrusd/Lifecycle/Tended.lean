import Walrusd.Lifecycle.Ward

/-!
# Every open session is in somebody's charge

The invariant that ties the sessions of a process to the records of its goroutines: a session that
has not finished closing is in the cache, or owned by the goroutine that opened it, which then holds
its database, or taken out of the cache by a goroutine that has still to close it. A cached session
belongs to a database whose teardown has not begun. Each step keeps the invariant.

## Main definitions

* `Owns` — the goroutine that alone may close a session.
* `Tended` — the invariant.

## Main results

* `Tended.answer`, `Tended.move` — the steps keep it.
-/

namespace Walrusd.Lifecycle

open Program Walrusd.Runtime Function List Option

variable {ι B : Type}
variable {i : ι} {x : Session ι} {s : Sess} {x' : Session ι} {k' : Stock ι} {c : Act B}
  {ch : Choice B} {ret : Rsp c}

/-- The goroutine that alone may close a session: the one that holds the lock of a read session,
and the one that opened a write session. -/
def Owns (i : ι) (x : Session ι) : Prop :=
  if x.vfs.isRead then x.lock = some i else x.opener = i

theorem Owns.unique {j : ι} (hi : Owns i x) (hj : Owns j x) : i = j := by
  unfold Owns at hi hj
  split at hi
  · next hread =>
    rw [if_pos hread] at hj
    exact some.inj (hi.symm.trans hj)
  · next hread =>
    rw [if_neg hread] at hj
    exact hi.symm.trans hj

/-- The phase of a session at a stage of its closing. -/
def Stage.phase : Stage → Phase
  | .flagged => .opened
  | .marked => .closing
  | .disconnected => .disconnected

theorem Stage.phase_ne_finished (st : Stage) : st.phase ≠ .finished := by
  cases st <;> nofun

/-- The sessions agree with the records of the goroutines. -/
structure Tended (r : Roster ι) (k : Stock ι) (g : ι → Ward) : Prop where
  fresh : ∀ s, k.sessionSeq ≤ s → k.session s = none
  keyed : k.cache.Keyed
  cached : ∀ c ∈ k.cache.entries, ∃ x, k.session c.inst = some x ∧ x.vfs.isRead = true ∧
    c.key = x.vfs.entry.key ∧ x.vfs.entry ∉ r.torn
  cover : ∀ s x, k.session s = some x → x.phase ≠ .finished →
    (∃ c ∈ k.cache.entries, c.inst = s) ∨ (∃ i b, (g i).mine = some (s, b)) ∨ ∃ i, s ∈ (g i).taken
  mine : ∀ i s b, (g i).mine = some (s, b) → ∃ x, k.session s = some x ∧ x.opener = i ∧
    x.vfs.isRead = !b ∧ (g i).held = some x.vfs.entry ∧
      ((∀ st, (g i).closing ≠ some (s, st)) → x.closed = false ∧ x.phase = .opened)
  alone : ∀ i s b, (g i).mine = some (s, b) →
    (∀ c ∈ k.cache.entries, c.inst ≠ s) ∧ ∀ j, s ∉ (g j).taken
  taken : ∀ i s, s ∈ (g i).taken → (i, s) ∈ k.removed ∧
    ∃ x, k.session s = some x ∧ x.vfs.isRead = true
  removed : ∀ i s, (i, s) ∈ k.removed →
    ∃ x, k.session s = some x ∧ (x.phase = .finished ∨ s ∈ (g i).taken)
  locked : ∀ i s b, (g i).lock = some (s, b) →
    ∃ x, k.session s = some x ∧ x.lock = some i ∧ x.closed = b
  closing : ∀ i s st, (g i).closing = some (s, st) →
    ∃ x, k.session s = some x ∧ Owns i x ∧ x.phase = st.phase ∧
      (x.vfs.isRead = true → x.closed = true)
  shut : ∀ s x, k.session s = some x → x.closed = true ∨ x.phase ≠ .opened →
    x.phase = .finished ∨ ∃ i st, (g i).closing = some (s, st)
  flagged : ∀ s x, k.session s = some x → (x.closed = true → x.vfs.isRead = true) ∧
    (x.vfs.isRead = true → x.phase ≠ .opened → x.closed = true)
  held : ∀ i e, (g i).held = some e → (i, e) ∈ r.holders
  tearing : ∀ i e, (g i).tearing = some e → e ∈ r.torn
  files : (k.files.map Prod.fst).Nodup
  opened : ∀ s v, (s, v) ∈ k.files →
    ∃ x, k.session s = some x ∧ x.vfs = v ∧ (x.phase = .opened ∨ x.phase = .closing)
  active : ∀ v, k.activeFiles v = (k.files.map Prod.snd).count v + k.hostFiles.count v

variable {r : Roster ι} {k : Stock ι} {g : ι → Ward}

theorem new_tended (cfg : Config) :
    Tended (Roster.new cfg : Roster ι) (Stock.new cfg) fun _ => .calm none none none where
  fresh _ _ := rfl
  keyed := Cache.new_keyed _ _
  cached _ hc := nomatch hc
  cover _ _ hs := nomatch hs
  mine _ _ _ h := nomatch h
  alone _ _ _ h := nomatch h
  taken _ _ h := nomatch h
  removed _ _ h := nomatch h
  locked _ _ _ h := nomatch h
  closing _ _ _ h := nomatch h
  shut _ _ hs := nomatch hs
  flagged _ _ hs := nomatch hs
  held _ _ h := nomatch h
  tearing _ _ h := nomatch h
  files := nodup_nil
  opened _ _ h := nomatch h
  active _ := rfl

/-! ### Steps on one session -/

theorem setSession_cases {s' : Sess} {y : Session ι}
    (hy : (k.setSession s x').session s' = some y) :
    s' = s ∧ y = x' ∨ s' ≠ s ∧ k.session s' = some y := by
  by_cases hss : s' = s
  · subst hss
    refine .inl ⟨rfl, ?_⟩
    simpa only [Stock.setSession, update_self, some.injEq, eq_comm] using hy
  · refine .inr ⟨hss, ?_⟩
    simpa only [Stock.setSession, update_of_ne hss] using hy

theorem of_session {P : Session ι → Prop} (hs : k.session s = some x)
    (h : ∃ y, k.session s = some y ∧ P y) : P x := by
  obtain ⟨y, hy, hP⟩ := h
  rwa [some.inj (hs.symm.trans hy)]

/-- A session of the old map is in the new one, where the one that was set is the new one. -/
theorem setSession_exists {s' : Sess} {P P' : Session ι → Prop} (hs : k.session s = some x)
    (hself : s' = s → P x → P' x') (hother : s' ≠ s → ∀ y, P y → P' y)
    (h : ∃ y, k.session s' = some y ∧ P y) :
    ∃ y, (k.setSession s x').session s' = some y ∧ P' y := by
  by_cases hss : s' = s
  · subst hss
    exact ⟨x', update_self .., hself rfl (of_session hs h)⟩
  · obtain ⟨y, hy, hP⟩ := h
    exact ⟨y, (update_of_ne hss ..).trans hy, hother hss y hP⟩

/-- The goroutine `i` changes the session `s` from `x` to `x'`, and its own record to `t`. -/
structure Touches (g : ι → Ward) (i : ι) (s : Sess) (x x' : Session ι) (t : Ward) : Prop where
  vfs : x'.vfs = x.vfs
  opener : x'.opener = x.opener
  held : t.held = (g i).held
  tearing : t.tearing = (g i).tearing
  mine : ∀ p, t.mine = some p → (g i).mine = some p
  taken : ∀ s', s' ∈ t.taken → s' ∈ (g i).taken
  dropMine : ∀ p, (g i).mine = some p → t.mine = some p ∨ p.1 = s ∧ x'.phase = .finished
  dropTaken : ∀ s' ∈ (g i).taken, s' ∈ t.taken ∨ s' = s ∧ x'.phase = .finished
  finished : x.phase = .finished → x'.phase = .finished
  lock : ∀ s' b, t.lock = some (s', b) → (s' = s → x'.lock = some i ∧ x'.closed = b) ∧
    (s' ≠ s → (g i).lock = some (s', b))
  locks : ∀ j b, j ≠ i → (g j).lock = some (s, b) → x'.lock = x.lock ∧ x'.closed = x.closed
  closing : ∀ s' st, t.closing = some (s', st) → s' = s ∧ Owns i x' ∧ x'.phase = st.phase ∧
    (x'.vfs.isRead = true → x'.closed = true)
  only : ∀ s' st, (g i).closing = some (s', st) → s' = s
  closings : ∀ j st, j ≠ i → (g j).closing = some (s, st) → Owns j x' ∧ x'.phase = x.phase ∧
    x'.closed = x.closed
  shut : x'.closed = true ∨ x'.phase ≠ .opened → x'.phase = .finished ∨
    (∃ st, t.closing = some (s, st)) ∨ ∃ j st, j ≠ i ∧ (g j).closing = some (s, st)
  flagged : (x'.closed = true → x'.vfs.isRead = true) ∧
    (x'.vfs.isRead = true → x'.phase ≠ .opened → x'.closed = true)
  own : ∀ b, t.mine = some (s, b) → (∀ st, t.closing ≠ some (s, st)) →
    x'.closed = false ∧ x'.phase = .opened
  owns : ∀ j b, j ≠ i → (g j).mine = some (s, b) → x'.closed = x.closed ∧ x'.phase = x.phase

variable [DecidableEq ι]

section Fields

variable {t : Ward} (j : ι)

@[simp] theorem held_update (h : t.held = (g i).held) : (update g i t j).held = (g j).held :=
  apply_update_eq h j

@[simp] theorem mine_update (h : t.mine = (g i).mine) : (update g i t j).mine = (g j).mine :=
  apply_update_eq h j

@[simp] theorem taken_update (h : t.taken = (g i).taken) : (update g i t j).taken = (g j).taken :=
  apply_update_eq h j

@[simp] theorem tearing_update (h : t.tearing = (g i).tearing) :
    (update g i t j).tearing = (g j).tearing :=
  apply_update_eq h j

@[simp] theorem lock_update (h : t.lock = (g i).lock) : (update g i t j).lock = (g j).lock :=
  apply_update_eq h j

@[simp] theorem closing_update (h : t.closing = (g i).closing) :
    (update g i t j).closing = (g j).closing :=
  apply_update_eq h j

end Fields

theorem Tended.touch (h : Tended r k g) {t : Ward} (hs : k.session s = some x)
    (ht : Touches g i s x x' t)
    (hfiles : ∀ v, (s, v) ∈ k.files → x'.phase = .opened ∨ x'.phase = .closing) :
    Tended r (k.setSession s x') (update g i t) := by
  have hmine {j : ι} {p : Sess × Bool} : (update g i t j).mine = some p → (g j).mine = some p :=
    of_update (P := fun u : Ward => u.mine = some p) (ht.mine p)
  have htaken {j : ι} {s' : Sess} : s' ∈ (update g i t j).taken → s' ∈ (g j).taken :=
    of_update (P := fun u : Ward => s' ∈ u.taken) (ht.taken s')
  have hkeep {j : ι} {s' : Sess} (hlive : ¬ (s' = s ∧ x'.phase = .finished)) :
      s' ∈ (g j).taken → s' ∈ (update g i t j).taken :=
    imp_update (P := fun u : Ward => s' ∈ u.taken) fun hi => (ht.dropTaken _ hi).resolve_right hlive
  have hclosing {j : ι} {s' : Sess} {st : Stage} (hss : s' ≠ s) :
      (g j).closing = some (s', st) → (update g i t j).closing = some (s', st) :=
    imp_update (P := fun u : Ward => u.closing = some (s', st))
      fun hi => absurd (ht.only s' st hi) hss
  refine { h with
    fresh := fun s' hs' => ?_
    cached := fun c hc =>
      setSession_exists hs (fun _ => by rw [ht.vfs]; exact id) (fun _ _ => id) (h.cached c hc)
    cover := ?_
    mine := ?_
    alone := fun j s' b hj =>
      (h.alone j s' b (hmine hj)).imp_right fun hnot j' hj' => hnot j' (htaken hj')
    taken := fun j s' hj => (h.taken j s' (htaken hj)).imp_right
      (setSession_exists hs (fun _ => by rw [ht.vfs]; exact id) fun _ _ => id)
    removed := ?_
    locked := ?_
    closing := ?_
    shut := ?_
    flagged := fun s' y hy => ?_
    held := by simp only [held_update _ ht.held]; exact h.held
    tearing := by simp only [tearing_update _ ht.tearing]; exact h.tearing
    opened := fun s' v hv => ?_ }
  · have hnone := h.fresh s' hs'
    refine (update_of_ne ?_ ..).trans hnone
    rintro rfl
    cases hs.symm.trans hnone
  · intro s' y hy hphase
    have hlive : ¬ (s' = s ∧ x'.phase = .finished) := by
      rintro ⟨rfl, hfin⟩
      rcases setSession_cases hy with ⟨-, rfl⟩ | ⟨hss, -⟩
      · exact hphase hfin
      · exact hss rfl
    have hold : ∃ y, k.session s' = some y ∧ y.phase ≠ .finished := by
      rcases setSession_cases hy with ⟨rfl, rfl⟩ | ⟨-, hy⟩
      · exact ⟨x, hs, fun hfin => hphase (ht.finished hfin)⟩
      · exact ⟨y, hy, hphase⟩
    obtain ⟨y', hy', hphase'⟩ := hold
    refine (h.cover s' y' hy' hphase').imp_right (Or.imp ?_ ?_)
    · rintro ⟨j, b, hj⟩
      exact ⟨j, b, imp_update (P := fun u : Ward => u.mine = some (s', b))
        (fun hi => (ht.dropMine _ hi).resolve_right hlive) hj⟩
    · exact fun ⟨j, hj⟩ => ⟨j, hkeep hlive hj⟩
  · intro j s' b hj
    rw [held_update j ht.held]
    refine setSession_exists hs (fun hss hx => ?_) (fun hss y hy => ?_) (h.mine j s' b (hmine hj))
    · subst hss
      rw [ht.vfs, ht.opener]
      refine ⟨hx.1, hx.2.1, hx.2.2.1, fun hnot => ?_⟩
      rcases eq_or_ne j i with rfl | hji
      · rw [update_self] at hj hnot
        exact ht.own b hj hnot
      rw [update_of_ne hji] at hj hnot
      obtain ⟨hclosed, hphase⟩ := ht.owns j b hji hj
      rw [hclosed, hphase]
      exact hx.2.2.2 hnot
    · exact ⟨hy.1, hy.2.1, hy.2.2.1, fun hnot => hy.2.2.2 fun st hst => hnot st (hclosing hss hst)⟩
  · intro j s' hj
    refine setSession_exists hs (fun _ hor => ?_) (fun hss _ => Or.imp_right ?_) (h.removed j s' hj)
    · rcases hor with hfin | hmem
      · exact .inl (ht.finished hfin)
      · exact or_iff_not_imp_left.mpr fun hphase => hkeep (fun hfin => hphase hfin.2) hmem
    · exact hkeep fun hfin => hss hfin.1
  · intro j s' b hj
    rcases eq_or_ne j i with rfl | hji
    · rw [update_self] at hj
      by_cases hss : s' = s
      · subst hss
        exact ⟨x', update_self .., (ht.lock s' b hj).1 rfl⟩
      · exact setSession_exists hs (fun heq => absurd heq hss) (fun _ _ => id)
          (h.locked j s' b ((ht.lock s' b hj).2 hss))
    · rw [update_of_ne hji] at hj
      refine setSession_exists hs (fun hss hx => ?_) (fun _ _ => id) (h.locked j s' b hj)
      rw [hss] at hj
      obtain ⟨hlock, hclosed⟩ := ht.locks j b hji hj
      rwa [hlock, hclosed]
  · intro j s' st hj
    rcases eq_or_ne j i with rfl | hji
    · rw [update_self] at hj
      obtain ⟨rfl, hown⟩ := ht.closing s' st hj
      exact ⟨x', update_self .., hown⟩
    rw [update_of_ne hji] at hj
    refine setSession_exists hs (fun hss hx => ?_) (fun _ _ => id) (h.closing j s' st hj)
    rw [hss] at hj
    obtain ⟨hown, hphase, hclosed⟩ := ht.closings j st hji hj
    rw [hclosed, hphase, ht.vfs]
    exact ⟨hown, hx.2⟩
  · intro s' y hy hy'
    rcases setSession_cases hy with ⟨rfl, rfl⟩ | ⟨hss, hy⟩
    · refine (ht.shut hy').imp_right ?_
      rintro (⟨st, hst⟩ | ⟨j, st, hji, hj⟩)
      · exact ⟨i, st, by rwa [update_self]⟩
      · exact ⟨j, st, by rwa [update_of_ne hji]⟩
    · exact (h.shut s' y hy hy').imp_right fun ⟨j, st, hj⟩ => ⟨j, st, hclosing hss hj⟩
  · rcases setSession_cases hy with ⟨rfl, rfl⟩ | ⟨-, hy⟩
    · exact ht.flagged
    · exact h.flagged s' y hy
  · refine setSession_exists hs (fun hss hx => ⟨ht.vfs.trans hx.1, ?_⟩) (fun _ _ => id)
      (h.opened s' v hv)
    exact hfiles v (hss ▸ hv)

section Charge

omit [DecidableEq ι]

variable (h : Tended r k g) (hs : k.session s = some x)
include h hs

theorem Tended.mine_open (hclosing : (g i).closing = none) {b : Bool}
    (hb : (g i).mine = some (s, b)) : x.closed = false ∧ x.phase = .opened :=
  (of_session hs (h.mine i s b hb)).2.2.2 fun _ hst => nomatch hclosing.symm.trans hst

theorem Tended.mine_unique {j : ι} {b b' : Bool} (hj : (g j).mine = some (s, b))
    (hi : (g i).mine = some (s, b')) : j = i :=
  (of_session hs (h.mine j s b hj)).1.symm.trans (of_session hs (h.mine i s b' hi)).1

theorem Tended.closing_unique (hown : Owns i x) {j : ι} {st : Stage}
    (hj : (g j).closing = some (s, st)) : j = i :=
  (of_session hs (h.closing j s st hj)).1.unique hown

theorem Tended.shut_other (hclosing : (g i).closing = none)
    (hx : x.closed = true ∨ x.phase ≠ .opened) :
    x.phase = .finished ∨ ∃ j st, j ≠ i ∧ (g j).closing = some (s, st) := by
  refine (h.shut s x hs hx).imp_right fun ⟨j, st, hj⟩ => ⟨j, st, ?_, hj⟩
  rintro rfl
  cases hclosing.symm.trans hj

theorem Tended.locked_self {s' : Sess} {b : Bool} (hb : (g i).lock = some (s', b)) :
    (s' = s → x.lock = some i ∧ x.closed = b) ∧ (s' ≠ s → (g i).lock = some (s', b)) := by
  refine ⟨?_, fun _ => hb⟩
  rintro rfl
  exact of_session hs (h.locked i s' b hb)

end Charge

section

variable (h : Tended r k g)
include h

theorem Tended.lock (hs : k.session s = some x) (hlock : x.lock = none)
    (hclosing : (g i).closing = none) :
    Tended r (k.setSession s { x with lock := some i })
      (update g i { g i with
        lock := some (s, x.closed)
        taken := if x.closed then (g i).taken.erase s else (g i).taken }) := by
  have hwrite {j : ι} {st : Stage} (hj : (g j).closing = some (s, st)) :
      x.opener = j ∧ x.vfs.isRead = false := by
    have hown := (of_session hs (h.closing j s st hj)).1
    unfold Owns at hown
    split at hown
    · cases hlock.symm.trans hown
    · next hread => exact ⟨hown, Bool.eq_false_iff.mpr hread⟩
  -- A flag that is set was set by a goroutine that has finished closing and left the lock.
  have hfinished (hc : x.closed = true) : x.phase = .finished := by
    refine (h.shut s x hs (.inl hc)).resolve_right ?_
    rintro ⟨j, st, hj⟩
    exact nomatch (hwrite hj).2.symm.trans ((h.flagged s x hs).1 hc)
  refine h.touch hs {
    vfs := rfl
    opener := rfl
    held := rfl
    tearing := rfl
    mine := fun _ => id
    taken := fun s' hs' => ?_
    dropMine := fun _ => .inl
    dropTaken := fun s' hs' => ?_
    finished := id
    lock := fun s' b hb => ?_
    locks := fun j b _ hj => nomatch hlock.symm.trans (of_session hs (h.locked j s b hj)).1
    closing := fun _ _ hst => nomatch hclosing.symm.trans hst
    only := fun _ _ hst => nomatch hclosing.symm.trans hst
    closings := fun j st _ hj => ⟨by simp [Owns, hwrite hj], rfl, rfl⟩
    shut := fun hx => (h.shut_other hs hclosing hx).imp_right .inr
    flagged := h.flagged s x hs
    own := fun b hb _ => h.mine_open (x := x) hs hclosing hb
    owns := fun _ _ _ _ => ⟨rfl, rfl⟩ } fun v hv => (of_session hs (h.opened s v hv)).2
  · simp only at hs'
    split at hs'
    · exact mem_of_mem_erase hs'
    · exact hs'
  · simp only
    split
    · next hc =>
      by_cases hss : s' = s
      · exact .inr ⟨hss, hfinished hc⟩
      · exact .inl ((mem_erase_of_ne hss).mpr hs')
    · exact .inl hs'
  · cases hb
    exact ⟨fun _ => ⟨rfl, rfl⟩, fun hne => absurd rfl hne⟩

theorem Tended.unlock (hs : k.session s = some x) (hlock : x.lock = some i)
    (hclosing : (g i).closing = none) :
    Tended r (k.setSession s { x with lock := none })
      (update g i { g i with lock := none }) := by
  refine h.touch hs {
    vfs := rfl
    opener := rfl
    held := rfl
    tearing := rfl
    mine := fun _ => id
    taken := fun _ => id
    dropMine := fun _ => .inl
    dropTaken := fun _ => .inl
    finished := id
    lock := fun _ _ hb => nomatch hb
    locks := fun j b hji hj => ?_
    closing := fun _ _ hst => nomatch hclosing.symm.trans hst
    only := fun _ _ hst => nomatch hclosing.symm.trans hst
    closings := fun j st hji hj => ⟨?_, rfl, rfl⟩
    shut := fun hx => (h.shut_other hs hclosing hx).imp_right .inr
    flagged := h.flagged s x hs
    own := fun b hb _ => h.mine_open (x := x) hs hclosing hb
    owns := fun _ _ _ _ => ⟨rfl, rfl⟩ } fun v hv => (of_session hs (h.opened s v hv)).2
  · have hlock' := (of_session hs (h.locked j s b hj)).1
    exact absurd (some.inj (hlock'.symm.trans hlock)) hji
  have hown := (of_session hs (h.closing j s st hj)).1
  unfold Owns at hown ⊢
  split at hown
  · exact absurd (some.inj (hown.symm.trans hlock)) hji
  · next hread => rwa [if_neg hread]

/-- The goroutine that owns a session closes it up to the stage `st`. -/
theorem Tended.advance (st : Stage) (closed : Bool) (lock : Option (Sess × Bool))
    (hs : k.session s = some x) (hown : Owns i x) (hphase : x.phase ≠ .finished)
    (honly : ∀ s' st, (g i).closing = some (s', st) → s' = s)
    (hmine : ∀ j b, (g j).mine = some (s, b) → j = i)
    (hlock : ∀ s' b, lock = some (s', b) → (s' = s → x.lock = some i ∧ closed = b) ∧
      (s' ≠ s → (g i).lock = some (s', b))) (hflag : closed = true ↔ x.vfs.isRead = true)
    (hfiles : ∀ v, (s, v) ∈ k.files → st.phase = .opened ∨ st.phase = .closing) :
    Tended r (k.setSession s { x with phase := st.phase, closed := closed })
      (update g i { g i with lock := lock, closing := some (s, st) }) := by
  refine h.touch hs {
    vfs := rfl
    opener := rfl
    held := rfl
    tearing := rfl
    mine := fun _ => id
    taken := fun _ => id
    dropMine := fun _ => .inl
    dropTaken := fun _ => .inl
    finished := fun hfin => absurd hfin hphase
    lock := hlock
    locks := fun j b hji hj => ⟨rfl, ?_⟩
    closing := fun s' st' hst => ?_
    only := honly
    closings := fun j _ hji hj => absurd (h.closing_unique hs hown hj) hji
    shut := fun _ => .inr (.inl ⟨st, rfl⟩)
    flagged := ⟨hflag.1, fun hread _ => hflag.2 hread⟩
    own := fun _ _ hnot => absurd rfl (hnot st)
    owns := fun j b hji hj => absurd (hmine j b hj) hji } hfiles
  · have hlock' := (of_session hs (h.locked j s b hj)).1
    unfold Owns at hown
    split at hown
    · exact absurd (some.inj (hlock'.symm.trans hown)) hji
    · next hread =>
      -- The flag of a write session is never set.
      have h₁ : closed = false := Bool.eq_false_iff.mpr fun hc => hread (hflag.1 hc)
      have h₂ : x.closed = false := Bool.eq_false_iff.mpr fun hc => hread ((h.flagged s x hs).1 hc)
      exact h₁.trans h₂.symm
  · cases hst
    exact ⟨rfl, hown, rfl, hflag.2⟩

theorem Tended.finish (hs : k.session s = some x)
    (hclosing : (g i).closing = some (s, .disconnected)) :
    Tended r (k.setSession s { x with phase := .finished })
      (update g i { (g i).drop s with closing := none }) := by
  obtain ⟨hown, hphase, -⟩ := of_session hs (h.closing i s _ hclosing)
  refine h.touch hs {
    vfs := rfl
    opener := rfl
    held := rfl
    tearing := rfl
    mine := fun p hp => ?_
    taken := fun _ hs' => mem_of_mem_erase hs'
    dropMine := fun p hp => ?_
    dropTaken := fun s' hs' => ?_
    finished := fun _ => rfl
    lock := fun _ _ hb => h.locked_self hs hb
    locks := fun _ _ _ _ => ⟨rfl, rfl⟩
    closing := fun _ _ hst => nomatch hst
    only := fun s' st hst => (Prod.mk.inj (some.inj (hst.symm.trans hclosing))).1
    closings := fun j st hji hj => absurd (h.closing_unique hs hown hj) hji
    shut := fun _ => .inl rfl
    flagged := ⟨(h.flagged s x hs).1,
      fun hread _ => (h.flagged s x hs).2 hread (by rw [hphase]; nofun)⟩
    own := fun b hb => ?_
    owns := fun j b hji hj => ?_ } fun v hv => ?_
  · simp only [Ward.drop] at hp
    split at hp
    · cases hp
    · exact hp
  · by_cases hps : p.1 = s
    · exact .inr ⟨hps, rfl⟩
    · refine .inl ?_
      simp [Ward.drop, hp, hps]
  · by_cases hss : s' = s
    · exact .inr ⟨hss, rfl⟩
    · exact .inl ((mem_erase_of_ne hss).mpr hs')
  · simp only [Ward.drop] at hb
    split at hb
    · cases hb
    · next hnot => simp [hb] at hnot
  · have hopened := (of_session hs (h.mine j s b hj)).2.2.2
    cases hphase.symm.trans (hopened fun _ hst => hji (h.closing_unique hs hown hst)).2
  · have hopen := (of_session hs (h.opened s v hv)).2
    rw [hphase] at hopen
    rcases hopen with hopen | hopen <;> cases hopen

/-- A goroutine that is closing a session, or that owns a write session, goes on to close it. -/
theorem Tended.proceed (hs : k.session s = some x) (hcharge : (∃ st, (g i).closing = some (s, st)) ∨
      (g i).mine = some (s, true) ∧ (g i).closing = none) (st : Stage)
    (hfiles : ∀ v, (s, v) ∈ k.files → st.phase = .opened ∨ st.phase = .closing) :
    Tended r (k.setSession s { x with phase := st.phase })
      (update g i { g i with closing := some (s, st) }) := by
  have hown : Owns i x ∧ x.phase ≠ .finished ∧ (x.vfs.isRead = true → x.closed = true) := by
    rcases hcharge with ⟨st', hst⟩ | ⟨hmine, hclosing⟩
    · obtain ⟨hown, hphase, hclosed⟩ := of_session hs (h.closing i s st' hst)
      exact ⟨hown, by rw [hphase]; exact st'.phase_ne_finished, hclosed⟩
    obtain ⟨hopener, hread, -⟩ := of_session hs (h.mine i s true hmine)
    have hphase := (h.mine_open hs hclosing hmine).2
    refine ⟨?_, by rw [hphase]; nofun, fun hr => nomatch hread.symm.trans hr⟩
    unfold Owns
    rw [hread]
    exact hopener
  have honly (s' : Sess) (st' : Stage) (hst : (g i).closing = some (s', st')) : s' = s := by
    rcases hcharge with ⟨st'', hst'⟩ | ⟨-, hclosing⟩
    · exact (Prod.mk.inj (some.inj (hst.symm.trans hst'))).1
    · cases hclosing.symm.trans hst
  have hmine (j : ι) (b : Bool) (hj : (g j).mine = some (s, b)) : j = i := by
    obtain ⟨hopener, -, -, hopened⟩ := of_session hs (h.mine j s b hj)
    cases hread : x.vfs.isRead with
    | false =>
      have hi := hown.1
      unfold Owns at hi
      rw [hread] at hi
      exact hopener.symm.trans hi
    | true =>
      by_contra hji
      have hclosed := (hopened fun _ hst => hji (h.closing_unique hs hown.1 hst)).1
      cases hclosed.symm.trans (hown.2.2 hread)
  exact h.advance st x.closed (g i).lock hs hown.1 hown.2.1 honly hmine
    (fun _ _ hb => h.locked_self hs hb) ⟨(h.flagged s x hs).1, hown.2.2⟩ hfiles

end

theorem count_update_succ {active : VFS → ℕ} {l : List VFS} {v v' : VFS} {n : ℕ}
    (h : active v' = l.count v' + n) :
    update active v (active v + 1) v' = (v :: l).count v' + n := by
  rw [count_cons]
  by_cases hvv : v' = v
  · subst hvv
    rw [update_self, if_pos (beq_self_eq_true _)]
    omega
  · rw [update_of_ne hvv, if_neg fun heq => hvv (beq_iff_eq.mp heq).symm]
    omega

omit [DecidableEq ι] in
theorem Tended.closeFile (h : Tended r k g) (s : Sess) (v : VFS) :
    Tended r (k.closeFile s v) g := by
  unfold Stock.closeFile
  split
  · next hmem =>
    have hsub : (k.files.erase (s, v)).Sublist k.files := erase_sublist
    refine { h with
      files := (hsub.map _).nodup h.files
      opened := fun s' v' hv => h.opened s' v' (hsub.subset hv)
      active := fun v' => ?_ }
    have hcount := ((perm_cons_erase hmem).map Prod.snd).count_eq v'
    rw [map_cons, count_cons] at hcount
    have hactive := h.active v'
    simp only
    by_cases hvv : v' = v
    · subst hvv
      simp only [BEq.rfl, if_true] at hcount
      rw [update_self]
      omega
    · rw [if_neg fun heq => hvv (beq_iff_eq.mp heq).symm] at hcount
      rw [update_of_ne hvv]
      omega
  · exact h

omit [DecidableEq ι] in
theorem Tended.not_mem_closeFile (h : Tended r k g) (hs : k.session s = some x) (v : VFS) :
    (s, v) ∉ (k.closeFile s x.vfs).files := by
  have hvfs {v : VFS} (hv : (s, v) ∈ k.files) : v = x.vfs :=
    (of_session hs (h.opened s v hv)).1.symm
  unfold Stock.closeFile
  split
  · next hmem =>
    intro hv
    obtain rfl := hvfs (mem_of_mem_erase hv)
    have hnodup : k.files.Nodup := h.files.of_map _
    exact hnodup.not_mem_erase hv
  · next hmem =>
    intro hv
    obtain rfl := hvfs hv
    exact hmem hv

theorem Tended.openSession (h : Tended r k g) {v : VFS} (hheld : (g i).held = some v.entry)
    (hmine : (g i).mine = none) :
    Tended r (k.openSession i v)
      (update g i { g i with mine := some (k.sessionSeq, !v.isRead) }) := by
  have hne {s : Sess} {P : Session ι → Prop} (hy : ∃ y, k.session s = some y ∧ P y) :
      s ≠ k.sessionSeq := by
    rintro rfl
    obtain ⟨y, hy, -⟩ := hy
    cases (h.fresh _ (Nat.le_refl _)).symm.trans hy
  have hold {s : Sess} {P : Session ι → Prop} (hy : ∃ y, k.session s = some y ∧ P y) :
      ∃ y, (k.openSession i v).session s = some y ∧ P y := by
    have hss := hne hy
    obtain ⟨y, hy, hP⟩ := hy
    exact ⟨y, (update_of_ne hss ..).trans hy, hP⟩
  have hcases {s : Sess} {y : Session ι} (hy : (k.openSession i v).session s = some y) :
      s = k.sessionSeq ∧ y = ⟨v, i, .opened, none, false⟩ ∨ k.session s = some y := by
    by_cases hss : s = k.sessionSeq
    · subst hss
      refine .inl ⟨rfl, ?_⟩
      simpa only [Stock.openSession, update_self, some.injEq, eq_comm] using hy
    · refine .inr ?_
      simpa only [Stock.openSession, update_of_ne hss] using hy
  refine { h with
    fresh := fun s hs =>
      (update_of_ne (Nat.ne_of_gt hs) ..).trans (h.fresh s (Nat.le_of_succ_le hs))
    cached := fun c hc => hold (h.cached c hc)
    cover := fun s y hy hphase => ?_
    mine := fun j s b hj => ?_
    alone := fun j s b hj => ?_
    taken := by simp only [taken_update]; exact fun j s hj => (h.taken j s hj).imp_right hold
    removed := by simp only [taken_update]; exact fun j s hj => hold (h.removed j s hj)
    locked := by simp only [lock_update]; exact fun j s b hj => hold (h.locked j s b hj)
    closing := by simp only [closing_update]; exact fun j s st hj => hold (h.closing j s st hj)
    shut := fun s y hy hshut => ?_
    flagged := fun s y hy => ?_
    held := by simpa using h.held
    tearing := by simpa using h.tearing
    files := nodup_cons.mpr ⟨fun hmem => ?_, h.files⟩
    opened := fun s v' hfile => ?_
    active := fun v' => ?_ }
  · rcases hcases hy with ⟨rfl, rfl⟩ | hy
    · exact .inr (.inl ⟨i, !v.isRead, by rw [update_self]⟩)
    refine (h.cover s y hy hphase).imp_right (Or.imp ?_ ?_)
    · rintro ⟨j, b, hj⟩
      exact ⟨j, b, imp_update (P := fun u : Ward => u.mine = some (s, b))
        (fun hi => nomatch hmine.symm.trans hi) hj⟩
    · simp only [taken_update]
      exact id
  · simp only [held_update, closing_update]
    rcases eq_or_ne j i with rfl | hji
    · rw [update_self] at hj
      cases hj
      exact ⟨⟨v, j, .opened, none, false⟩, update_self .., rfl, (Bool.not_not _).symm, hheld,
        fun _ => ⟨rfl, rfl⟩⟩
    · rw [update_of_ne hji] at hj
      exact hold (h.mine j s b hj)
  · simp only [taken_update]
    rcases eq_or_ne j i with rfl | hji
    · rw [update_self] at hj
      cases hj
      exact ⟨fun c hc => hne (h.cached c hc), fun j' hj' => hne (h.taken j' _ hj').2 rfl⟩
    · rw [update_of_ne hji] at hj
      exact h.alone j s b hj
  · rcases hcases hy with ⟨rfl, rfl⟩ | hy
    · rcases hshut with hshut | hshut
      · cases hshut
      · exact absurd rfl hshut
    · simp only [closing_update]
      exact h.shut s y hy hshut
  · rcases hcases hy with ⟨rfl, rfl⟩ | hy
    · exact ⟨nofun, fun _ hphase => absurd rfl hphase⟩
    · exact h.flagged s y hy
  · obtain ⟨⟨s, v'⟩, hfile, hs⟩ := List.mem_map.mp hmem
    exact hne (h.opened s v' hfile) hs
  · rcases mem_cons.mp hfile with heq | hfile
    · cases heq
      exact ⟨_, update_self .., rfl, .inl rfl⟩
    · exact hold (h.opened s v' hfile)
  · exact count_update_succ (h.active v')

/-! ### Steps on the cache -/

/-- A step of the goroutine `i` takes the sessions `gone` out of the cache. -/
theorem Tended.takeOut (h : Tended r k g) {gone : List Sess} {c : Cache Sess}
    (hkeeps : k.cache.Keeps c gone)
    (hmem : ∀ e ∈ c.entries, ∃ e' ∈ k.cache.entries, e'.key = e.key ∧ e'.inst = e.inst) :
    (g i).Apart gone ∧ Tended r (k.takeOut i gone c)
      (update g i { g i with taken := gone ++ (g i).taken }) := by
  have hapart {j : ι} {p : Sess × Bool} (hp : (g j).mine = some p) : p.1 ∉ gone := by
    intro hin
    obtain ⟨e, he, hinst⟩ := hkeeps.cached p.1 hin
    exact (h.alone j p.1 p.2 hp).1 e he hinst
  have hread {s : Sess} (hs : s ∈ gone) : ∃ y, k.session s = some y ∧ y.vfs.isRead = true := by
    obtain ⟨e, he, rfl⟩ := hkeeps.cached s hs
    obtain ⟨y, hy, hread, -⟩ := h.cached e he
    exact ⟨y, hy, hread⟩
  have htaken {j : ι} {s : Sess} :
      s ∈ (update g i { g i with taken := gone ++ (g i).taken } j).taken ↔
        s ∈ (g j).taken ∨ j = i ∧ s ∈ gone := by
    rcases eq_or_ne j i with rfl | hji
    · simp [or_comm]
    · simp [hji]
  have hremoved {j : ι} {s : Sess} :
      (j, s) ∈ (k.takeOut i gone c).removed ↔ (j, s) ∈ k.removed ∨ j = i ∧ s ∈ gone := by
    simp only [Stock.takeOut, mem_append, List.mem_map, Prod.mk.injEq]
    constructor
    · rintro (⟨s', hs', rfl, rfl⟩ | hold)
      · exact .inr ⟨rfl, hs'⟩
      · exact .inl hold
    rintro (hold | ⟨rfl, hs⟩)
    · exact .inr hold
    · exact .inl ⟨s, hs, rfl, rfl⟩
  refine ⟨fun p hp => hapart hp, { h with
    keyed := hkeeps.keyed
    cached := fun e he => ?_
    cover := fun s y hy hphase => ?_
    mine := by simp only [mine_update, closing_update, held_update]; exact h.mine
    alone := fun j s b hj => ?_
    taken := fun j s hj => ?_
    removed := fun j s hj => ?_
    locked := by simp only [lock_update]; exact h.locked
    closing := by simp only [closing_update]; exact h.closing
    shut := by simp only [closing_update]; exact h.shut
    held := by simpa using h.held
    tearing := by simpa using h.tearing }⟩
  · obtain ⟨e', he', hkey, hinst⟩ := hmem e he
    rw [← hkey, ← hinst]
    exact h.cached e' he'
  · rcases h.cover s y hy hphase with ⟨e, he, rfl⟩ | ⟨j, b, hj⟩ | ⟨j, hj⟩
    · rcases hkeeps.stay e he with hgone | ⟨e', he', hinst⟩
      · exact .inr (.inr ⟨i, htaken.mpr (.inr ⟨rfl, hgone⟩)⟩)
      · exact .inl ⟨e', he', hinst⟩
    · exact .inr (.inl ⟨j, b, by simpa using hj⟩)
    · exact .inr (.inr ⟨j, htaken.mpr (.inl hj)⟩)
  · simp only [mine_update] at hj
    obtain ⟨hcache, hnot⟩ := h.alone j s b hj
    refine ⟨fun e he => ?_, fun j' hj' => ?_⟩
    · obtain ⟨e', he', -, hinst⟩ := hmem e he
      rw [← hinst]
      exact hcache e' he'
    rcases htaken.mp hj' with hj' | ⟨-, hin⟩
    · exact hnot j' hj'
    · exact hapart hj hin
  · rcases htaken.mp hj with hj | ⟨rfl, hin⟩
    · exact (h.taken j s hj).imp_left fun hold => hremoved.mpr (.inl hold)
    · exact ⟨hremoved.mpr (.inr ⟨rfl, hin⟩), hread hin⟩
  · rcases hremoved.mp hj with hj | ⟨rfl, hin⟩
    · obtain ⟨y, hy, hor⟩ := h.removed j s hj
      exact ⟨y, hy, hor.imp_right fun hmem => htaken.mpr (.inl hmem)⟩
    · obtain ⟨y, hy, -⟩ := hread hin
      exact ⟨y, hy, .inr (htaken.mpr (.inr ⟨rfl, hin⟩))⟩

/-- A goroutine puts the session that it owns into the cache. -/
theorem Tended.store (h : Tended r k g) (hs : k.session s = some x)
    (hmine : (g i).mine = some (s, false)) (htorn : x.vfs.entry ∉ r.torn)
    (hkey : ∀ e ∈ k.cache.entries, e.key ≠ x.vfs.entry.key) (now : ℤ) : Tended r { k with cache :=
        { k.cache with entries := ⟨x.vfs.entry.key, s, now⟩ :: k.cache.entries } }
      (update g i { g i with mine := none }) := by
  have hother {j : ι} {p : Sess × Bool}
      (hj : (update g i { g i with mine := none } j).mine = some p) :
      j ≠ i ∧ (g j).mine = some p := by
    rcases eq_or_ne j i with rfl | hji
    · rw [update_self] at hj
      cases hj
    · rw [update_of_ne hji] at hj
      exact ⟨hji, hj⟩
  refine { h with
    keyed := nodup_cons.mpr ⟨fun hmem => ?_, h.keyed⟩
    cached := fun e he => ?_
    cover := fun s' y hy hphase => ?_
    mine := fun j s' b hj => ?_
    alone := fun j s' b hj => ?_
    taken := by simpa using h.taken
    removed := by simpa using h.removed
    locked := by simpa using h.locked
    closing := by simpa using h.closing
    shut := by simpa using h.shut
    held := by simpa using h.held
    tearing := by simpa using h.tearing }
  · obtain ⟨e, he, heq⟩ := List.mem_map.mp hmem
    exact hkey e he heq
  · rcases mem_cons.mp he with rfl | he
    · exact ⟨x, hs, (of_session hs (h.mine i s false hmine)).2.1, rfl, htorn⟩
    · exact h.cached e he
  · rcases h.cover s' y hy hphase with ⟨e, he, rfl⟩ | ⟨j, b, hj⟩ | ⟨j, hj⟩
    · exact .inl ⟨e, mem_cons_of_mem _ he, rfl⟩
    · rcases eq_or_ne j i with rfl | hji
      · cases hmine.symm.trans hj
        exact .inl ⟨_, mem_cons_self, rfl⟩
      · exact .inr (.inl ⟨j, b, by rwa [update_of_ne hji]⟩)
    · exact .inr (.inr ⟨j, by simpa using hj⟩)
  · simp only [held_update, closing_update]
    exact h.mine j s' b (hother hj).2
  · obtain ⟨hji, hj⟩ := hother hj
    obtain ⟨hcache, hnot⟩ := h.alone j s' b hj
    simp only [taken_update]
    refine ⟨fun e he => ?_, hnot⟩
    rcases mem_cons.mp he with rfl | he
    · rintro rfl
      exact hji (h.mine_unique hs hj hmine)
    · exact hcache e he

/-! ### Steps on the roster -/

/-- The database that a goroutine without a session holds becomes another one. -/
theorem Tended.hold (h : Tended r k g) {held : Option DatabaseEntry} {r' : Roster ι}
    (hmine : (g i).mine = none) (htorn : r'.torn = r.torn)
    (hheld : ∀ e, held = some e → (i, e) ∈ r'.holders)
    (hothers : ∀ j e, j ≠ i → (j, e) ∈ r.holders → (j, e) ∈ r'.holders) :
    Tended r' k (update g i { g i with held := held }) := by
  refine { h with
    cached := by rw [htorn]; exact h.cached
    cover := by simpa using h.cover
    mine := fun j s b hj => ?_
    alone := by simpa using h.alone
    taken := by simpa using h.taken
    removed := by simpa using h.removed
    locked := by simpa using h.locked
    closing := by simpa using h.closing
    shut := by simpa using h.shut
    held := fun j e hj => ?_
    tearing := by simpa [htorn] using h.tearing }
  · simp only [mine_update] at hj
    have hji : j ≠ i := by
      rintro rfl
      exact nomatch hmine.symm.trans hj
    rw [update_of_ne hji]
    exact h.mine j s b hj
  · rcases eq_or_ne j i with rfl | hji
    · rw [update_self] at hj
      exact hheld e hj
    · rw [update_of_ne hji] at hj
      exact hothers j e hji (h.held j e hj)

/-- The teardown of an entry begins when no session of its key is cached. -/
theorem Tended.tear (h : Tended r k g) (i : ι) {e : DatabaseEntry}
    (hkey : ∀ c ∈ k.cache.entries, c.key ≠ e.key) :
    Tended (r.teardown e) k (update g i { g i with tearing := some e }) := by
  refine { h with
    cached := fun c hc => ?_
    cover := by simpa using h.cover
    mine := by simpa using h.mine
    alone := by simpa using h.alone
    taken := by simpa using h.taken
    removed := by simpa using h.removed
    locked := by simpa using h.locked
    closing := by simpa using h.closing
    shut := by simpa using h.shut
    held := by simp only [held_update]; exact h.held
    tearing := fun j e' hj => ?_ }
  · obtain ⟨x, hx, hread, hck, hnot⟩ := h.cached c hc
    refine ⟨x, hx, hread, hck, fun hmem => ?_⟩
    rcases mem_cons.mp hmem with heq | hmem
    · exact hkey c hc (by rw [hck, heq])
    · exact hnot hmem
  · rcases eq_or_ne j i with rfl | hji
    · rw [update_self] at hj
      rw [← some.inj hj]
      exact mem_cons_self
    · rw [update_of_ne hji] at hj
      exact mem_cons_of_mem _ (h.tearing j e' hj)

/-! ### All steps -/

section

variable (h : Tended r k g)
include h

omit [DecidableEq ι] in
/-- The part of the state that the invariant is about. -/
theorem Tended.frame (hcache : k'.cache = k.cache) (hsession : k'.session = k.session)
    (hseq : k'.sessionSeq = k.sessionSeq) (hfiles : k'.files = k.files)
    (hactive : k'.activeFiles = k.activeFiles) (hhost : k'.hostFiles = k.hostFiles)
    (hremoved : k'.removed = k.removed) : Tended r k' g := by
  obtain ⟨clock, cache, session, seq, files, active, registered, writes, dsns, host, removed⟩ := k'
  simp only at hcache hsession hseq hfiles hactive hhost hremoved
  subst hcache hsession hseq hfiles hactive hhost hremoved
  exact { h with }

theorem Tended.update_self (i : ι) : Tended r k (update g i (g i)) := by
  rwa [update_eq_self]

/-- A step that neither the registry nor the records see. -/
theorem Tended.aside (hc : c.aside = true) (hk : k.answer i c ch = some (ret, k')) :
    (g i).Learns c ret ∧ Tended r k' (update g i ((g i).step c ret)) := by
  rw [Ward.step_of_aside hc, update_eq_self]
  refine ⟨Ward.learns_of_aside hc _ ret, ?_⟩
  have hsame {ret' : Rsp c} (heq : some (ret', k) = some (ret, k')) : Tended r k' g := by
    rwa [← (Prod.mk.inj (some.inj heq)).2]
  cases c with
  | ensureWriteVFS e =>
    simp only [Stock.answer] at hk
    split at hk
    · exact hsame hk
    split at hk
    · exact hsame hk
    · cases hk
      exact h.frame rfl rfl rfl rfl rfl rfl rfl
  | returnDSN e =>
    cases hk
    exact h.frame rfl rfl rfl rfl rfl rfl rfl
  | other c =>
    cases ch with
    | other answers => exact hsame hk
    | ok => cases hk
    | fail err => cases hk
  | accessKey | ensureBufferRoot e | enableWrite s | forgetFile s | discardBuffers v
  | writeVFSName e => exact hsame hk
  | _ => cases hc

theorem Tended.cachePut (hfree : ∀ e ∈ r.torn, ∀ j, (j, e) ∉ r.holders) (hs : k.session s = some x)
    (hmine : (g i).mine = some (s, false)) :
    (g i).Apart (k.cache.putLocked x.vfs.entry.key s k.clock).1.gone ∧
    Tended r (k.takeOut i (k.cache.putLocked x.vfs.entry.key s k.clock).1.gone
        (k.cache.putLocked x.vfs.entry.key s k.clock).2)
      (Function.update g i ((g i).step (.cachePut s : Act B)
        (k.cache.putLocked x.vfs.entry.key s k.clock).1)) := by
  have hself (e : Cache.Entry Sess) (he : e ∈ k.cache.entries) :
      ∃ e' ∈ k.cache.entries, e'.key = e.key ∧ e'.inst = e.inst := ⟨e, he, rfl, rfl⟩
  rcases Cache.putLocked_cases h.keyed x.vfs.entry.key s k.clock with
    ⟨replaced, rest, hput, hkeeps, hrest⟩ | ⟨oldest, front, hput, hkeeps, hfront⟩ | hput
  · rw [hput]
    obtain ⟨hapart, h'⟩ := h.takeOut (i := i) hkeeps fun e he => hself e (hrest e he).1
    refine ⟨hapart, ?_⟩
    have hheld := (of_session hs (h.mine i s false hmine)).2.2.1
    have htorn : x.vfs.entry ∉ r.torn := fun hmem => hfree _ hmem i (h.held i _ hheld)
    have hmine' : (Function.update g i { g i with
        taken := replaced.toList ++ (g i).taken } i).mine = some (s, false) := by
      rw [Function.update_self]
      exact hmine
    have h'' := h'.store hs hmine' htorn (fun e he => (hrest e he).2) k.clock
    rw [Function.update_idem, Function.update_self] at h''
    exact h''
  · rw [hput]
    exact h.takeOut (i := i) hkeeps fun e he => hself e (hfront e he)
  · rw [hput]
    have hout := h.takeOut (i := i) h.keyed.keeps_self hself
    exact hout

theorem Tended.stockAnswer (hfree : ∀ e ∈ r.torn, ∀ j, (j, e) ∉ r.holders) (hallow : (g i).Allows c)
    (hk : k.answer i c ch = some (ret, k')) :
    (g i).Learns c ret ∧ Tended r k' (update g i ((g i).step c ret)) := by
  have hself (e : Cache.Entry Sess) (he : e ∈ k.cache.entries) :
      ∃ e' ∈ k.cache.entries, e'.key = e.key ∧ e'.inst = e.inst := ⟨e, he, rfl, rfl⟩
  by_cases hc : c.aside = true
  · exact h.aside hc hk
  cases c with
  | cacheGet key =>
    cases hk
    exact h.takeOut (Cache.get_keeps h.keyed key k.clock) fun e he => Cache.mem_get he
  | cachePut s =>
    simp only [Stock.answer] at hk
    split at hk
    · cases hk
    · next x hs =>
      cases hk
      exact h.cachePut hfree hs hallow.1
  | cacheEvict key =>
    cases hk
    exact h.takeOut (Cache.evict_keeps h.keyed key) fun e he => hself e (Cache.mem_evict he).1
  | cacheClose =>
    cases hk
    exact h.takeOut (Cache.drain_keeps k.cache) fun e he => hself e (Cache.mem_drain he)
  | lock s =>
    simp only [Stock.answer] at hk
    split at hk
    · cases hk
    · next x hs =>
      split at hk
      · cases hk
      · next hlock =>
        cases hk
        refine ⟨?_, h.lock hs (by simpa using hlock) hallow.2⟩
        rintro ⟨b, hb⟩
        exact (h.mine_open hs hallow.2 hb).1
  | setClosed s =>
    simp only [Stock.answer] at hk
    split at hk
    · cases hk
    · next x hs =>
      cases hk
      obtain ⟨hlock, hclosing, hcharge⟩ := hallow
      refine ⟨trivial, ?_⟩
      obtain ⟨hlocked, hclosed⟩ := of_session hs (h.locked i s false hlock)
      have hread : x.vfs.isRead = true := by
        rcases hcharge with htaken | hmine
        · exact of_session hs (h.taken i s htaken).2
        · exact (of_session hs (h.mine i s false hmine)).2.1
      have hphase : x.phase = .opened := by
        by_contra hne
        exact nomatch hclosed.symm.trans ((h.flagged s x hs).2 hread hne)
      have hmine (j : ι) (b : Bool) (hj : (g j).mine = some (s, b)) : j = i := by
        rcases hcharge with htaken | hmine
        · exact absurd htaken ((h.alone j s b hj).2 i)
        · exact h.mine_unique hs hj hmine
      have hown : Owns i x := by
        unfold Owns
        rwa [if_pos hread]
      have hflags (s' : Sess) (b : Bool) (hb : some (s, true) = some (s', b)) :
          (s' = s → x.lock = some i ∧ true = b) ∧ (s' ≠ s → (g i).lock = some (s', b)) := by
        cases hb
        exact ⟨fun _ => ⟨hlocked, rfl⟩, fun hne => absurd rfl hne⟩
      have hadvance := h.advance .flagged true (some (s, true)) hs hown (by rw [hphase]; nofun)
        (fun s' st hst => nomatch hclosing.symm.trans hst) hmine hflags
        ⟨fun _ => hread, fun _ => rfl⟩ fun _ _ => .inl rfl
      rw [show Stage.flagged.phase = x.phase from hphase.symm] at hadvance
      exact hadvance
  | unlock s =>
    simp only [Stock.answer] at hk
    split at hk
    · cases hk
    · next x hs =>
      cases hk
      obtain ⟨hclosing, b, hlock⟩ := hallow
      have hlocked := (of_session hs (h.locked i s b hlock)).1
      exact ⟨trivial, h.unlock hs hlocked hclosing⟩
  | connect v =>
    simp only [Stock.answer] at hk
    split at hk
    · cases hk
      exact ⟨trivial, h.update_self i⟩
    split at hk
    · cases hk
      exact ⟨trivial, h.openSession hallow.1 hallow.2⟩
    · cases hk
  | markClosed s =>
    simp only [Stock.answer] at hk
    split at hk
    · cases hk
    · next x hs =>
      have hphase : x.phase = .opened := by
        rcases hallow with hst | ⟨hmine, hclosing⟩
        · exact (of_session hs (h.closing i s _ hst)).2.1
        · exact (h.mine_open hs hclosing hmine).2
      rw [if_pos hphase] at hk
      cases hk
      exact ⟨trivial, h.proceed hs (hallow.imp_left fun hst => ⟨_, hst⟩) .marked
        fun _ _ => .inr rfl⟩
  | closeConn s =>
    simp only [Stock.answer] at hk
    split at hk
    · cases hk
    · next x hs =>
      cases hk
      have hs' : (k.closeFile s x.vfs).session s = some x := by
        unfold Stock.closeFile
        split <;> exact hs
      exact ⟨trivial, (h.closeFile s x.vfs).proceed hs' (hallow.imp_left fun hst => ⟨_, hst⟩)
        .disconnected fun v hv => absurd hv (h.not_mem_closeFile hs v)⟩
  | unregisterSession s =>
    simp only [Stock.answer] at hk
    split at hk
    · cases hk
    · next x hs =>
      cases hk
      exact ⟨trivial, h.finish hs hallow⟩
  | unregisterVFS v =>
    simp only [Stock.answer] at hk
    split at hk
    · cases hk
      exact ⟨trivial, h.update_self i⟩
    · cases hk
      exact ⟨trivial, (h.update_self i).frame rfl rfl rfl rfl rfl rfl rfl⟩
  | database key | releaseDatabase e | close | panic | spin | teardown e => cases hk
  | _ => exact absurd rfl hc

end

omit [DecidableEq ι] in
theorem Tended.roster (h : Tended r k g) {r' : Roster ι} (htorn : r'.torn = r.torn)
    (hholders : r'.holders = r.holders) : Tended r' k g :=
  { h with
    cached := by rw [htorn]; exact h.cached
    held := by rw [hholders]; exact h.held
    tearing := by rw [htorn]; exact h.tearing }

variable {w w' : World ι}

section

variable (h : Tended w.roster w.stock g)
include h

theorem Tended.database {key : String} {registration : Option Err} (hmine : (g i).mine = none) :
    Tended (w.roster.database i key registration).2
      (w.stock.register (w.roster.database i key registration).1)
      (update g i ((g i).step (.database key : Act B)
        (w.roster.database i key registration).1)) := by
  unfold Roster.database
  split
  · next out registry _ =>
    have hheld : Tended ⟨registry, (i, out.1) :: w.roster.holders, w.roster.torn⟩ w.stock
        (update g i { g i with held := some out.1 }) := by
      refine h.hold hmine rfl (fun e he => ?_) fun j e _ hj => mem_cons_of_mem _ hj
      rw [some.inj he]
      exact mem_cons_self
    exact hheld.frame rfl rfl rfl rfl rfl rfl rfl
  · exact (h.update_self i).roster rfl rfl

theorem Tended.releaseDatabase {e : DatabaseEntry} (hmine : (g i).mine = none) :
    Tended (w.roster.releaseDatabase i e).2 w.stock
      (update g i ((g i).step (.releaseDatabase e : Act B)
        (w.roster.releaseDatabase i e).1)) := by
  unfold Roster.releaseDatabase
  split
  · exact h.update_self i
  · refine h.hold hmine rfl nofun fun j e' hji hj => (mem_erase_of_ne ?_).mpr hj
    exact fun heq => hji (Prod.mk.inj heq).1

theorem Tended.teardown (i : ι) (e : DatabaseEntry) :
    (g i).Learns (.teardown e : Act B) (w.stock.cache.evict e.key).1 ∧
    Tended (w.roster.teardown e)
      (w.stock.takeOut i (w.stock.cache.evict e.key).1 (w.stock.cache.evict e.key).2)
      (Function.update g i ((g i).step (.teardown e : Act B) (w.stock.cache.evict e.key).1)) := by
  obtain ⟨hapart, htaken⟩ := h.takeOut (i := i) (Cache.evict_keeps h.keyed e.key)
    fun c hc => ⟨c, (Cache.mem_evict hc).1, rfl, rfl⟩
  have htear := htaken.tear i (e := e) fun c hc => (Cache.mem_evict hc).2
  rw [Function.update_idem, Function.update_self] at htear
  exact ⟨hapart, htear⟩

/-- The steps of the goroutines keep the invariant, and the answers tell what the protocol says. -/
theorem Tended.answer (hfree : ∀ e ∈ w.roster.torn, ∀ j, (j, e) ∉ w.roster.holders)
    (hallow : (g i).Allows c) (hw : w.answer i c ch = some (ret, w')) :
    (g i).Learns c ret ∧ Tended w'.roster w'.stock (update g i ((g i).step c ret)) := by
  cases hc : c.registers with
  | false =>
    obtain ⟨hroster, hstock⟩ := World.answer_stock hc hw
    rw [hroster]
    exact h.stockAnswer hfree hallow hstock
  | true =>
    cases c with
    | database key =>
      cases hw
      exact ⟨trivial, h.database hallow⟩
    | releaseDatabase e =>
      cases hw
      exact ⟨trivial, h.releaseDatabase hallow.1⟩
    | close =>
      cases hw
      exact ⟨trivial, (h.update_self i).roster rfl rfl⟩
    | teardown e =>
      cases hw
      exact h.teardown i e
    | _ => cases hc

end

omit [DecidableEq ι] in
theorem Tended.stockMove (h : Tended r k g) {m : HostMove} (hk : k.move m = some k') :
    Tended r k' g := by
  cases m with
  | tick d =>
    cases hk
    exact h.frame rfl rfl rfl rfl rfl rfl rfl
  | «open» e =>
    simp only [Stock.move] at hk
    split at hk
    · cases hk
      refine { h with active := fun v => ?_ }
      have hactive := h.active v
      simp only [count_cons]
      by_cases hv : v = .read e
      · subst hv
        simp only [Function.update_self, BEq.rfl, if_true]
        omega
      · rw [Function.update_of_ne hv, if_neg fun heq => hv (beq_iff_eq.mp heq).symm]
        omega
    · cases hk
  | close v' =>
    simp only [Stock.move] at hk
    split at hk
    · next hmem =>
      cases hk
      refine { h with active := fun v => ?_ }
      have hactive := h.active v
      by_cases hv : v = v'
      · subst hv
        have hpos := count_pos_iff.mpr hmem
        simp only [Function.update_self, count_erase_self]
        omega
      · simp only [Function.update_of_ne hv, count_erase_of_ne hv]
        exact hactive
    · cases hk

omit [DecidableEq ι] in
/-- The moves of the host keep the invariant. -/
theorem Tended.move (h : Tended w.roster w.stock g) {m : HostMove} (hw : w.move m = some w') :
    Tended w'.roster w'.stock g := by
  obtain ⟨hroster, hstock⟩ := World.move_stock hw
  rw [hroster]
  exact h.stockMove hstock

end Walrusd.Lifecycle
