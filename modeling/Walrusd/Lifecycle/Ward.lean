import Walrusd.Lifecycle.Custody
import Walrusd.Lifecycle.Usage

/-!
# What a goroutine has in its charge

`Ward` records what a goroutine answers for at a moment: the database it holds, the session that it
opened and still owns, the sessions that it took out of the cache and has not closed, the entry
whose teardown it is in, the cached session whose lock it holds, and the session that it is
closing. The programs of the runtime never close a session that they do not answer for, release a
database only without a session of their own, and unregister a VFS only in the teardown of its
database, when they have closed all that they took out of the cache.

## Main definitions

* `Ward`, `ward`.

## Main results

* `Api.ward`, `Api.custody` — the calls of the runtime keep to the two protocols.
-/

namespace Walrusd.Lifecycle

open Program Walrusd.Runtime List

variable {B α : Type}
variable {c : Act B} {s : Sess}
variable {key : String} {e : DatabaseEntry}

/-- How far a goroutine has come in closing a session: the flag of the cached session is set, the
session is marked as closed, the connection is closed. -/
inductive Stage
  | flagged | marked | disconnected
  deriving DecidableEq, Repr

/-- What a goroutine has in its charge. A session of its own has a mark for a write session, and a
locked one the flag that it has. -/
structure Ward where
  held : Option DatabaseEntry
  mine : Option (Sess × Bool)
  taken : List Sess
  tearing : Option DatabaseEntry
  lock : Option (Sess × Bool)
  closing : Option (Sess × Stage)

namespace Ward

/-- Nothing taken out of the cache, no lock held and nothing being closed. -/
def calm (held : Option DatabaseEntry) (mine : Option (Sess × Bool))
    (tearing : Option DatabaseEntry) : Ward := ⟨held, mine, [], tearing, none, none⟩

/-- The session is no longer in the charge of the goroutine. -/
def drop (t : Ward) (s : Sess) : Ward :=
  { t with
    mine := if t.mine.any fun p => p.1 = s then none else t.mine
    taken := t.taken.erase s }

/-- The record after a step. -/
def step (t : Ward) : (c : Act B) → Rsp c → Ward
  | .database _, .ok (e, _) => { t with held := some e }
  | .releaseDatabase _, some _ => { t with held := none }
  | .teardown e, gone => { t with tearing := some e, taken := gone ++ t.taken }
  | .cacheGet _, out => { t with taken := out.2 ++ t.taken }
  | .cacheEvict _, gone => { t with taken := gone ++ t.taken }
  | .cacheClose, gone => { t with taken := gone ++ t.taken }
  | .cachePut _, .stored replaced => { t with mine := none, taken := replaced.toList ++ t.taken }
  | .cachePut _, .full oldest => { t with taken := oldest :: t.taken }
  | .lock s, closed =>
    { t with lock := some (s, closed), taken := if closed then t.taken.erase s else t.taken }
  | .setClosed s, _ => { t with lock := some (s, true), closing := some (s, .flagged) }
  | .unlock _, _ => { t with lock := none }
  | .connect v, .ok s => { t with mine := some (s, !v.isRead) }
  | .markClosed s, (true, _) => { t.drop s with closing := none }
  | .markClosed s, (false, _) => { t with closing := some (s, .marked) }
  | .closeConn s, _ => { t with closing := some (s, .disconnected) }
  | .unregisterSession s, _ => { t.drop s with closing := none }
  | _, _ => t

/-- The steps that a goroutine may make. -/
def Allows (t : Ward) : Act B → Prop
  | .database _ => t.mine = none
  | .releaseDatabase e => t.mine = none ∧ t.held = some e
  | .cachePut s => t.mine = some (s, false) ∧ t.closing = none
  | .lock _ => t.lock = none ∧ t.closing = none
  | .setClosed s =>
    t.lock = some (s, false) ∧ t.closing = none ∧ (s ∈ t.taken ∨ t.mine = some (s, false))
  | .unlock s => t.closing = none ∧ ∃ closed, t.lock = some (s, closed)
  | .connect v => t.held = some v.entry ∧ t.mine = none
  | .markClosed s =>
    t.closing = some (s, .flagged) ∨ t.mine = some (s, true) ∧ t.closing = none
  | .closeConn s => t.closing = some (s, .marked) ∨ t.mine = some (s, true) ∧ t.closing = none
  | .unregisterSession s => t.closing = some (s, .disconnected)
  | .unregisterVFS v => t.tearing = some v.entry ∧ t.taken = []
  | _ => True

/-- The session of the goroutine is none of those that a step took out of the cache. -/
def Apart (t : Ward) (gone : List Sess) : Prop := ∀ p, t.mine = some p → p.1 ∉ gone

/-- What the answer of a step tells: a session of one's own is not in the cache, and nobody else
closes it. -/
def Learns (t : Ward) : (c : Act B) → Rsp c → Prop
  | .teardown _, gone | .cacheEvict _, gone | .cacheClose, gone => t.Apart gone
  | .cacheGet _, out => t.Apart out.2
  | .cachePut _, round => t.Apart round.gone
  | .lock s, closed => (∃ b, t.mine = some (s, b)) → closed = false
  | _, _ => True

end Ward

/-- The protocol of the goroutines. -/
def ward : Protocol (Act B) Rsp Ward where
  allow := Ward.Allows
  next t c r t' := t' = t.step c r ∧ t.Learns c r

instance : (@ward B).Steps Ward.step := ⟨And.left⟩

/-- The steps that are always allowed and leave the record as it is. -/
def Act.aside : Act B → Bool
  | .accessKey | .ensureWriteVFS _ | .ensureBufferRoot _ | .enableWrite _ | .forgetFile _
  | .discardBuffers _ | .writeVFSName _ | .returnDSN _ | .other _ => true
  | _ => false

theorem Ward.allows_of_aside (hc : c.aside = true) (t : Ward) : t.Allows c := by
  cases c <;> first | exact trivial | cases hc

theorem Ward.step_of_aside (hc : c.aside = true) (t : Ward) (r : Rsp c) : t.step c r = t := by
  cases c <;> first | rfl | cases hc

theorem Ward.learns_of_aside (hc : c.aside = true) (t : Ward) (r : Rsp c) : t.Learns c r := by
  cases c <;> first | exact trivial | cases hc

variable {t : Ward} {Q : Ward → α → Prop}

theorem aside_obeys {f : Rsp c → LifeM B α} (hc : c.aside = true) (hf : ∀ r, (f r).Obeys ward Q t) :
    (act c >>= f).Obeys ward Q t := by
  refine .does (Ward.allows_of_aside hc t) fun r => ?_
  rw [Ward.step_of_aside hc]
  exact hf r

/-! ### Closing sessions -/

theorem sessionClose_ward
    (h : t.closing = some (s, .flagged) ∨ t.mine = some (s, true) ∧ t.closing = none) :
    (sessionClose s : LifeM B _).Obeys ward (fun t' _ => t' = { t.drop s with closing := none })
      t := by
  refine .does h ?_
  rintro ⟨_ | _, err⟩
  · refine .does (.inl rfl) fun conn => ?_
    refine aside_obeys rfl fun buffers => .perform rfl ?_
    rintro _ t' ⟨rfl, -⟩
    rfl
  · rfl

theorem cachedClose_ward (hlock : t.lock = none) (hclosing : t.closing = none)
    (hs : s ∈ t.taken ∨ t.mine = some (s, false)) :
    (cachedClose s : LifeM B _).Obeys ward (fun t' _ => t' = t.drop s) t := by
  obtain ⟨held, mine, taken, tearing, lock, closing⟩ := t
  simp only at hlock hclosing hs
  subst hlock hclosing
  refine .perform ⟨rfl, rfl⟩ ?_
  rintro (_ | _) t' ⟨rfl, hlearn⟩
  · refine .does ⟨rfl, rfl, hs⟩ fun _ => ?_
    refine (sessionClose_ward (.inl rfl)).bind ?_
    rintro t' errs rfl
    refine .does ⟨rfl, _, rfl⟩ fun _ => ?_
    rfl
  · refine .does ⟨rfl, _, rfl⟩ fun _ => ?_
    have hmine : (mine.any fun p => p.1 = s) = false := by
      cases mine with
      | none => rfl
      | some p =>
        refine decide_eq_false fun hp => nomatch hlearn ⟨p.2, ?_⟩
        rw [← hp]
    simp [Ward.step, Ward.drop, hmine]

theorem cachedRun_ward {s : Sess} (hlock : t.lock = none) (hclosing : t.closing = none)
    (htaken : t.taken = []) : (cachedRun s : LifeM B _).Obeys ward (fun t' _ => t' = t) t := by
  obtain ⟨held, mine, taken, tearing, lock, closing⟩ := t
  simp only at hlock hclosing htaken
  subst hlock hclosing htaken
  refine .does ⟨rfl, rfl⟩ ?_
  rintro (_ | _)
  · refine aside_obeys rfl fun ran => .perform ⟨rfl, _, rfl⟩ ?_
    rintro _ t' ⟨rfl, -⟩
    rfl
  refine .does ⟨rfl, _, rfl⟩ fun _ => ?_
  rfl

theorem Ward.drop_of_apart {t : Ward} {rest : List Sess} (hs : t.Apart (s :: rest))
    (htaken : t.taken = s :: rest) : t.drop s = { t with taken := rest } := by
  have hmine : (t.mine.any fun p => p.1 = s) = false := by
    cases hm : t.mine with
    | none => rfl
    | some p =>
      refine decide_eq_false fun hp => hs p hm ?_
      rw [hp]
      exact mem_cons_self
  simp [Ward.drop, hmine, htaken]

theorem closeInstances_ward {gone : List Sess} (hlock : t.lock = none) (hclosing : t.closing = none)
    (htaken : t.taken = gone) (hapart : t.Apart gone) :
    (closeInstances gone : LifeM B _).Obeys ward (fun t' _ => t' = { t with taken := [] }) t := by
  induction gone generalizing t with
  | nil =>
    obtain ⟨held, mine, taken, tearing, lock, closing⟩ := t
    simp only at htaken
    subst htaken
    rfl
  | cons s rest ih =>
    have hmem : s ∈ t.taken := by
      rw [htaken]
      exact mem_cons_self
    refine (cachedClose_ward hlock hclosing (.inl hmem)).bind ?_
    rintro t' errs rfl
    rw [Ward.drop_of_apart hapart htaken]
    refine (ih (t := { t with taken := rest }) hlock hclosing rfl ?_).bind ?_
    · exact fun p hp hrest => hapart p hp (mem_cons_of_mem s hrest)
    · rintro t' more rfl
      rfl

/-! ### The read cache -/

variable {held : Option DatabaseEntry} {mine : Option (Sess × Bool)}
  {tearing : Option DatabaseEntry}

theorem closeTaken_ward {gone : List Sess} (hapart : (Ward.calm held mine tearing).Apart gone) :
    (closeInstances gone : LifeM B _).Obeys ward (fun t' _ => t' = .calm held mine tearing)
      ⟨held, mine, gone ++ [], tearing, none, none⟩ :=
  closeInstances_ward (t := ⟨held, mine, gone ++ [], tearing, none, none⟩) rfl rfl
    (append_nil gone) hapart

theorem readsGet_ward :
    (readsGet key : LifeM B _).Obeys ward (fun t' _ => t' = .calm held mine tearing)
      (.calm held mine tearing) := by
  refine .perform trivial ?_
  rintro ⟨hit, gone⟩ t' ⟨rfl, hlearn⟩
  refine (closeTaken_ward hlearn).bind ?_
  rintro t' errs rfl
  rfl

theorem readsEvict_ward :
    (readsEvict key : LifeM B _).Obeys ward (fun t' _ => t' = .calm held mine tearing)
      (.calm held mine tearing) := by
  refine .perform trivial ?_
  rintro gone t' ⟨rfl, hlearn⟩
  refine (closeTaken_ward hlearn).bind ?_
  rintro t' errs rfl
  rfl

theorem readsClose_ward :
    (readsClose : LifeM B _).Obeys ward (fun t' _ => t' = .calm held mine tearing)
      (.calm held mine tearing) := by
  refine .perform trivial ?_
  rintro gone t' ⟨rfl, hlearn⟩
  refine (closeTaken_ward hlearn).bind ?_
  rintro t' errs rfl
  rfl

theorem cachedClose_mine {s : Sess} :
    (cachedClose s : LifeM B _).Obeys ward (fun t' _ => t' = .calm held none tearing)
      (.calm held (some (s, false)) tearing) := by
  refine (cachedClose_ward rfl rfl (.inr rfl)).mono ?_
  rintro t' errs rfl
  simp [Ward.drop, Ward.calm]

theorem readsPut_ward {n : ℕ} {s : Sess} :
    (readsPut n s : LifeM B _).Obeys ward (fun t' _ => t' = .calm held none tearing)
      (.calm held (some (s, false)) tearing) := by
  induction n with
  | zero => exact ⟨trivial, nofun⟩
  | succ n ih =>
    refine .perform ⟨rfl, rfl⟩ ?_
    rintro (replaced | oldest | _) t' ⟨rfl, hlearn⟩
    · have hapart : (Ward.calm held none tearing).Apart replaced.toList := fun _ hp => nomatch hp
      refine (closeTaken_ward hapart).bind ?_
      rintro t' errs rfl
      rfl
    · have hne : oldest ≠ s := by
        rintro rfl
        exact hlearn _ rfl (mem_singleton_self _)
      have hdrop : Ward.drop ⟨held, some (s, false), [oldest], tearing, none, none⟩ oldest =
          .calm held (some (s, false)) tearing := by
        simp [Ward.drop, Ward.calm, hne.symm]
      refine (cachedClose_ward (t := ⟨held, some (s, false), [oldest], tearing, none, none⟩) rfl rfl
        (.inl mem_cons_self)).bind ?_
      rintro t' errs rfl
      rw [hdrop]
      exact ih
    · refine cachedClose_mine.bind ?_
      rintro t' errs rfl
      rfl

/-! ### Opening sessions -/

theorem openRead_ward :
    (openRead e : LifeM B _).Obeys ward
      (fun t' r => t' = .calm (some e) (r.toOption.map fun s => (s, false)) tearing)
      (.calm (some e) none tearing) := by
  refine Prog.obeys_perform.mpr ⟨⟨rfl, rfl⟩, ?_⟩
  rintro (err | s) t' ⟨rfl, -⟩ <;> rfl

theorem openWrite_ward :
    (openWrite e : LifeM B _).Obeys ward
      (fun t' r => t' = .calm (some e) (r.toOption.map fun s => (s, true)) tearing)
      (.calm (some e) none tearing) := by
  refine aside_obeys rfl ?_
  rintro (_ | err)
  · refine aside_obeys rfl ?_
    rintro (_ | err)
    · refine .does ⟨rfl, rfl⟩ ?_
      rintro (err | s)
      · exact aside_obeys rfl fun _ => rfl
      refine aside_obeys rfl ?_
      rintro (_ | err)
      · rfl
      refine .does (.inr ⟨rfl, rfl⟩) fun _ => ?_
      refine .does rfl fun _ => ?_
      refine aside_obeys rfl fun _ => ?_
      simp [Ward.step, Ward.drop, Ward.calm, VFS.isRead, Except.toOption]
    · rfl
  · rfl

/-! ### Databases -/

theorem databaseClose_ward :
    (databaseClose e : LifeM B _).Obeys ward (fun t' _ => t' = .calm held mine (some e))
      (.calm held mine (some e)) := by
  have hunregister {v : VFS} {β : Type} {Q : Ward → β → Prop} {f : Option Err → LifeM B β}
      (hv : v.entry = e) (hf : ∀ r, (f r).Obeys ward Q (.calm held mine (some e))) :
      (act (.unregisterVFS v) >>= f).Obeys ward Q (.calm held mine (some e)) := by
    refine .does ⟨congrArg some hv.symm, rfl⟩ fun r => ?_
    exact hf r
  refine aside_obeys rfl fun _ => aside_obeys rfl fun write => ?_
  cases write
  · exact hunregister rfl fun _ => rfl
  · exact aside_obeys rfl fun _ => hunregister rfl fun _ => hunregister rfl fun _ => rfl

theorem teardownDatabase_ward :
    (teardownDatabase e : LifeM B _).Obeys ward (fun t' _ => t' = .calm held mine (some e))
      (.calm held mine tearing) := by
  refine .perform trivial ?_
  rintro gone t' ⟨rfl, hlearn⟩
  have hapart : (Ward.calm held mine (some e)).Apart gone := hlearn
  refine (closeTaken_ward hapart).bind ?_
  rintro t' errs rfl
  exact databaseClose_ward

/-- The record is calm, whatever entry was torn down last. -/
def Ward.Calm (held : Option DatabaseEntry) (mine : Option (Sess × Bool)) (t : Ward) : Prop :=
  ∃ tearing, t = .calm held mine tearing

theorem teardownAll_ward {es : List DatabaseEntry} :
    (teardownAll es : LifeM B _).Obeys ward (fun t' _ => t'.Calm held mine)
      (.calm held mine tearing) := by
  induction es generalizing tearing with
  | nil => exact ⟨tearing, rfl⟩
  | cons e rest ih =>
    refine teardownDatabase_ward.bind ?_
    rintro t' errs rfl
    exact ih.bind fun t' more ht' => ht'

theorem database_ward :
    (database key : LifeM B _).Obeys ward
      (fun t' r => t'.Calm (r.toOption.or held) none) (.calm held none tearing) := by
  refine aside_obeys rfl ?_
  rintro (_ | err)
  · refine .does rfl ?_
    rintro (err | ⟨e, evicted⟩)
    · exact ⟨tearing, rfl⟩
    · exact teardownAll_ward.bind fun t' errs ht' => ht'
  · exact ⟨tearing, rfl⟩

theorem releaseDatabase_ward :
    (releaseDatabase e : LifeM B _).Obeys ward (fun t' _ => t'.Calm none none)
      (.calm (some e) none tearing) := by
  refine .does ⟨rfl, rfl⟩ ?_
  rintro (_ | _ | _)
  · exact ⟨trivial, nofun⟩
  · exact ⟨tearing, rfl⟩
  refine teardownDatabase_ward.bind ?_
  rintro t' errs rfl
  exact ⟨some e, rfl⟩

theorem close_ward :
    (close : LifeM B _).Obeys ward (fun t' _ => t'.Calm held mine) (.calm held mine tearing) := by
  refine .does trivial ?_
  rintro (_ | dbs)
  · exact ⟨tearing, rfl⟩
  refine readsClose_ward.bind ?_
  rintro t' errs rfl
  exact teardownAll_ward.bind fun t' more ht' => ht'

/-! ### The calls of the runtime -/

/-- The record of a goroutine whose program has used its database and session in the given way. -/
def Ward.Follows (u : Usage) (e : DatabaseEntry) (t : Ward) : Prop :=
  t.Calm (if u.entered then some e else none) u.session

theorem enact_ward (key : String) (rounds : ℕ) (u : Usage) (e : DatabaseEntry) (t : Ward) (c : Op B)
    (h : Ward.Follows u e t) (hallow : u.Allows c) :
    (enact key rounds e c).Obeys ward
      (fun t' r => ∃ u', u' = u.step c r.1 ∧ Ward.Follows u' r.2 t') t := by
  obtain ⟨tearing, rfl⟩ := h
  cases c with
  | database =>
    obtain rfl : u = .out := hallow
    refine database_ward.bind ?_
    rintro t' (err | e') ⟨x, rfl⟩ <;> exact ⟨_, rfl, x, rfl⟩
  | releaseDatabase =>
    obtain rfl : u = .entry := hallow
    refine releaseDatabase_ward.bind ?_
    rintro t' r ⟨x, rfl⟩
    exact ⟨_, rfl, x, rfl⟩
  | cacheGet =>
    refine readsGet_ward.bind ?_
    rintro t' r rfl
    exact ⟨_, rfl, tearing, rfl⟩
  | cachePut s =>
    obtain rfl : u = .using s false := hallow
    refine readsPut_ward.bind ?_
    rintro t' r rfl
    exact ⟨_, rfl, tearing, rfl⟩
  | evict =>
    refine readsEvict_ward.bind ?_
    rintro t' r rfl
    exact ⟨_, rfl, tearing, rfl⟩
  | openRead files =>
    obtain rfl : u = .entry := hallow
    refine openRead_ward.bind ?_
    rintro t' (err | s) rfl <;> exact ⟨_, rfl, tearing, rfl⟩
  | runRead s =>
    refine (cachedRun_ward rfl rfl rfl).bind ?_
    rintro t' r rfl
    exact ⟨_, rfl, tearing, rfl⟩
  | closeRead s =>
    obtain rfl : u = .using s false := hallow
    refine cachedClose_mine.bind ?_
    rintro t' r rfl
    exact ⟨_, rfl, tearing, rfl⟩
  | openWrite files =>
    obtain rfl : u = .entry := hallow
    refine openWrite_ward.bind ?_
    rintro t' (err | s) rfl <;> exact ⟨_, rfl, tearing, rfl⟩
  | closeSession s =>
    obtain rfl : u = .using s true := hallow
    refine (sessionClose_ward (.inr ⟨rfl, rfl⟩)).bind ?_
    rintro t' r rfl
    refine ⟨_, rfl, tearing, ?_⟩
    simp [Ward.drop, Ward.calm, Usage.step, Usage.using]
  | _ => exact aside_obeys rfl fun r => ⟨_, rfl, tearing, rfl⟩

/-- The references that a program holds. -/
def Usage.refs (u : Usage) (e : DatabaseEntry) : List DatabaseEntry := if u.entered then [e] else []

theorem readsGet_neutral : (readsGet key : LifeM B _).Only Act.neutral :=
  .perform ⟨rfl, fun _ => trivial⟩ fun got =>
    ((closeInstances_routine got.2).mono fun _ => Act.neutral_of_routine).bind fun _ => trivial

theorem readsEvict_routine : (readsEvict key : LifeM B _).Only fun c => c.routine = true :=
  .perform rfl fun gone =>
    (closeInstances_routine gone).bind fun _ => trivial

theorem readsPut_routine {n : ℕ} {s : Sess} :
    (readsPut n s : LifeM B _).Only fun c => c.routine = true := by
  induction n with
  | zero => exact ⟨rfl, nofun⟩
  | succ n ih =>
    refine .perform rfl ?_
    rintro (replaced | oldest | _)
    · exact (closeInstances_routine _).bind fun _ => trivial
    · exact (cachedClose_routine oldest).bind fun _ => ih
    · exact (cachedClose_routine s).bind fun _ => trivial

theorem cachedRun_routine {s : Sess} :
    (cachedRun s : LifeM B _).Only fun c => c.routine = true := by
  refine .perform rfl fun closed => ?_
  split
  · exact .perform rfl fun _ => trivial
  · exact .perform rfl fun _ =>
      .perform rfl fun _ => trivial

theorem openWrite_routine : (openWrite e : LifeM B _).Only fun c => c.routine = true := by
  refine .perform rfl ?_
  rintro (_ | err)
  · refine .perform rfl ?_
    rintro (_ | err)
    · refine .perform rfl ?_
      rintro (err | s)
      · exact .perform rfl fun _ => trivial
      refine .perform rfl ?_
      rintro (_ | err)
      · trivial
      exact .perform rfl fun _ =>
        .perform rfl fun _ =>
        .perform rfl fun _ => trivial
    · trivial
  · trivial

theorem enact_custody (key : String) (rounds : ℕ) (u : Usage) (e : DatabaseEntry) (s : Custody)
    (c : Op B) (h : s = .holding (u.refs e)) (hallow : u.Allows c) :
    (enact key rounds e c).Obeys custody
      (fun s' r => ∃ u', u' = u.step c r.1 ∧ s' = .holding (u'.refs r.2)) s := by
  subst h
  have hroutine {β : Type} {p : LifeM B β} (hp : p.Only fun c => c.routine = true) :
      p.Only Act.neutral := hp.mono fun _ => Act.neutral_of_routine
  have hneutral {β : Type} {p : LifeM B β} {f : β → Resp c} (hp : p.Only Act.neutral)
      (hstep : ∀ b, (u.step c (f b)).entered = u.entered) :
      (p >>= fun b => (pure (f b, e) : LifeM B _)).Obeys custody
        (fun s' r => ∃ u', u' = u.step c r.1 ∧ s' = .holding (u'.refs r.2))
        (.holding (u.refs e)) := by
    refine (neutral_obeys hp _).bind ?_
    rintro s' b rfl
    refine ⟨_, rfl, ?_⟩
    simp only [Usage.refs, hstep b]
  cases c with
  | database =>
    obtain rfl : u = .out := hallow
    refine (database_custody key []).bind ?_
    rintro s' (err | e') rfl <;> exact ⟨_, rfl, rfl⟩
  | releaseDatabase =>
    obtain rfl : u = .entry := hallow
    refine (releaseDatabase_custody (mem_singleton_self e)).bind ?_
    rintro s' r rfl
    refine ⟨_, rfl, ?_⟩
    rw [erase_cons_head]
    rfl
  | cacheGet => exact hneutral readsGet_neutral fun _ => rfl
  | cachePut s =>
    exact hneutral (f := fun _ => ()) (hroutine readsPut_routine) fun _ => rfl
  | evict => exact hneutral (f := fun _ => ()) (hroutine readsEvict_routine) fun _ => rfl
  | openRead files =>
    refine hneutral (p := openRead e) (f := fun b => b) ?_ ?_
    · exact Prog.only_perform ⟨rfl, fun _ => trivial⟩
    · rintro (err | s) <;> rfl
  | runRead s => exact hneutral (hroutine cachedRun_routine) fun _ => rfl
  | closeRead s => exact hneutral (f := fun _ => ()) (hroutine (cachedClose_routine s)) fun _ => rfl
  | openWrite files =>
    refine hneutral (p := openWrite e) (f := fun b => b) (hroutine openWrite_routine) ?_
    rintro (err | s) <;> rfl
  | closeSession s =>
    exact hneutral (f := fun _ => ()) (hroutine (sessionClose_routine s)) fun _ => rfl
  | _ => exact hneutral (Prog.only_perform ⟨rfl, fun _ => trivial⟩) fun _ => rfl

theorem readDSN_ward {db : DatabaseID} {identity : Option Err} :
    (readDSN db key identity : LifeM B _).Obeys ward (fun t' _ => t'.Calm none none)
      (.calm none none none) := by
  cases identity with
  | some err => exact ⟨none, rfl⟩
  | none =>
    refine database_ward.bind ?_
    rintro t' (err | e) ⟨tearing, rfl⟩
    · exact ⟨tearing, rfl⟩
    refine releaseDatabase_ward.bind ?_
    rintro t' _ ⟨x, rfl⟩
    exact aside_obeys rfl fun _ => ⟨x, rfl⟩

theorem readDSN_custody {db : DatabaseID} {identity : Option Err} :
    (readDSN db key identity : LifeM B _).Obeys custody (fun s _ => s.todo = []) .empty := by
  cases identity with
  | some err => rfl
  | none =>
    refine (database_custody key []).bind ?_
    rintro s (err | e) rfl
    · rfl
    refine (releaseDatabase_custody mem_cons_self).bind ?_
    rintro s _ rfl
    refine .does trivial fun _ => ?_
    rfl

variable (json : Litestream.ManifestJson B) (cfg : Config) (rounds : ℕ)

theorem Api.ward (api : Api) :
    (api.program json cfg rounds).Obeys Lifecycle.ward (fun t _ => t.Calm none none)
      (.calm none none none) := by
  have hhandle {β : Type} {p : RuntimeM B β} (key : String) (hp : p.Obeys usage Left .out) :
      (do
        let _ ← p.handle (enact key rounds) noEntry
        return () : LifeM B Unit).Obeys Lifecycle.ward (fun t _ => t.Calm none none)
          (.calm none none none) := by
    refine (hp.handle (enact_ward key rounds) ⟨none, rfl⟩).bind ?_
    rintro t x ⟨u, rfl, ht⟩
    exact ht
  cases api with
  | read db profile identity => exact hhandle _ withRead_usage
  | write db profile key => exact hhandle _ withWriteAttempt_usage
  | compact db profile => exact hhandle _ runCompaction_usage
  | readDSN db profile identity => exact readDSN_ward.bind fun t _ ht => ht
  | close => exact close_ward.bind fun t _ ht => ht

theorem Api.custody (api : Api) :
    (api.program json cfg rounds).Obeys Lifecycle.custody (fun s _ => s.todo = []) .empty := by
  have hhandle {β : Type} {p : RuntimeM B β} (key : String) (hp : p.Obeys usage Left .out) :
      (do
        let _ ← p.handle (enact key rounds) noEntry
        return () : LifeM B Unit).Obeys Lifecycle.custody (fun s _ => s.todo = []) .empty := by
    refine (hp.handle (enact_custody key rounds) rfl).bind ?_
    rintro s x ⟨u, rfl, rfl⟩
    rfl
  cases api with
  | read db profile identity => exact hhandle _ withRead_usage
  | write db profile key => exact hhandle _ withWriteAttempt_usage
  | compact db profile => exact hhandle _ runCompaction_usage
  | readDSN db profile identity => exact readDSN_custody.bind fun s _ hs => hs
  | close =>
    refine (close_custody []).bind ?_
    rintro s _ rfl
    rfl

end Walrusd.Lifecycle
