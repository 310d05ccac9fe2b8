import Walrusd.Lifecycle.World

/-!
# The life of a database entry

A goroutine takes a reference by `database` and gives it back by `releaseDatabase`, and it has to
tear down the entries that a critical section handed to it. `Custody` is the record of both for one
goroutine. The entries that are evicted and without references are exactly those whose teardown has
begun and those that some goroutine still has to tear down, each of them once; hence no teardown
comes early, twice or never.

## Main definitions

* `Custody`, `custody` — what a goroutine holds and has to do.
* `Kept` — the invariant of the roster.
* `RegistryCall`, `matched`, `Client` — callers that release each entry they got, once.

## Main results

* `reachable_kept` — the invariant holds in every run of programs in custody.
* `database_lifecycle` — **the life of a database entry**.
-/

namespace Walrusd.Lifecycle

open Program Walrusd.Runtime Function List

variable {ι B α : Type} [DecidableEq ι]
variable {c : Act B} {p : LifeM B α} {e : DatabaseEntry} {i : ι} {es : List DatabaseEntry}

/-! ### What a goroutine holds and has to do -/

/-- The references that a goroutine holds, the entries that it has to tear down, and whether a
release found no reference. -/
structure Custody where
  held : List DatabaseEntry
  todo : List DatabaseEntry
  panicked : Bool

/-- Nothing held, nothing to do. -/
def Custody.empty : Custody := ⟨[], [], false⟩

/-- The record after a step. -/
def Custody.step (s : Custody) : (c : Act B) → Rsp c → Custody
  | .database _, .ok (e, es) => { s with held := e :: s.held, todo := es ++ s.todo }
  | .releaseDatabase e, some b =>
    { s with held := s.held.erase e, todo := (if b then [e] else []) ++ s.todo }
  | .releaseDatabase _, none => { s with panicked := true }
  | .close, some es => { s with todo := es ++ s.todo }
  | .teardown e, _ => { s with todo := s.todo.erase e }
  | _, _ => s

/-- An entry is released by a holder only, and torn down only by a goroutine that has to. -/
def Custody.Allows (s : Custody) : Act B → Prop
  | .releaseDatabase e => e ∈ s.held
  | .teardown e => e ∈ s.todo
  | .panic => s.panicked = true
  | _ => True

/-- The protocol of the goroutines. -/
def custody : Protocol (Act B) Rsp Custody where
  allow := Custody.Allows
  next s c r s' := s' = s.step c r

instance : (@custody B).Steps Custody.step := ⟨id⟩

/-- The steps that leave the record as it is. -/
def Act.neutral (c : Act B) : Prop := c.registers = false ∧ ∀ s : Custody, s.Allows c

theorem Custody.step_of_neutral (hc : c.registers = false) (s : Custody) (r : Rsp c) :
    s.step c r = s := by
  cases c <;> first | rfl | cases hc

theorem neutral_obeys (hp : p.Only Act.neutral) (s : Custody) :
    p.Obeys custody (fun s' _ => s' = s) s :=
  hp.obeys fun _ hc => ⟨hc.2 s, fun r _ hn => hn.trans (Custody.step_of_neutral hc.1 s r)⟩

/-- The steps that neither touch the registry nor read the cache. -/
def Act.routine : Act B → Bool
  | .database _ | .releaseDatabase _ | .close | .teardown _ | .panic | .cacheGet _ => false
  | _ => true

theorem Act.neutral_of_routine (hc : c.routine = true) : c.neutral := by
  cases c <;> first | exact ⟨rfl, fun _ => trivial⟩ | cases hc

theorem routine_obeys (hp : p.Only fun c => c.routine = true) (s : Custody) :
    p.Obeys custody (fun s' _ => s' = s) s :=
  neutral_obeys (hp.mono fun _ => Act.neutral_of_routine) s

/-- What a goroutine has to tear down stays to be done until it begins with it. -/
theorem Custody.mem_todo_step {s : Custody} (he : e ∈ s.todo) (hc : c ≠ .teardown e) (r : Rsp c) :
    e ∈ (s.step c r).todo := by
  cases c with
  | database key =>
    cases r with
    | ok out => exact mem_append_right _ he
    | error err => exact he
  | releaseDatabase e' =>
    cases r with
    | some b => exact mem_append_right _ he
    | none => exact he
  | close =>
    cases r with
    | some es => exact mem_append_right _ he
    | none => exact he
  | teardown e' =>
    have hne : e ≠ e' := fun h => hc (by rw [h])
    exact (mem_erase_of_ne hne).mpr he
  | _ => exact he

/-- A program that ends with nothing left to do makes the teardowns that it has to. -/
theorem teardown_mem {s : Custody} (hp : p.Obeys custody (fun s' _ => s'.todo = []) s)
    (he : e ∈ s.todo) {tr : List (Σ c, Rsp (B := B) c)} {a : α} (h : Returns p tr a) :
    ∃ gone, ⟨.teardown e, gone⟩ ∈ tr := by
  induction h generalizing s with
  | done => rw [show s.todo = [] from hp] at he; cases he
  | @call c k r tr a _ ih =>
    by_cases hc : c = .teardown e
    · subst hc
      exact ⟨r, mem_cons_self⟩
    · obtain ⟨gone, hgone⟩ := ih (hp.2 r _ rfl) (Custody.mem_todo_step he hc r)
      exact ⟨gone, mem_cons_of_mem _ hgone⟩

/-! ### The invariant -/

/-- The roster agrees with the records of the goroutines. -/
structure Kept (t : Roster ι) (g : ι → Custody) : Prop where
  sound : t.registry.Sound
  held : ∀ i e, (g i).held.count e = t.holders.count (i, e)
  refs : ∀ e, t.registry.refs e = (t.holders.map Prod.snd).count e
  nodup : ∀ i, (g i).todo.Nodup
  apart : ∀ i j e, e ∈ (g i).todo → e ∈ (g j).todo → i = j
  begun : t.torn.Nodup
  waiting : ∀ i e, e ∈ (g i).todo → e ∉ t.torn
  dead : ∀ e, t.registry.Dead e ↔ e ∈ t.torn ∨ ∃ i, e ∈ (g i).todo
  calm : ∀ i, (g i).panicked = false

variable {t : Roster ι} {g : ι → Custody}

theorem new_kept (cfg : Config) : Kept (Roster.new cfg : Roster ι) fun _ => .empty where
  sound := Registry.new_sound _
  held _ _ := rfl
  refs _ := rfl
  nodup _ := nodup_nil
  apart _ _ _ he := nomatch he
  begun := nodup_nil
  waiting _ _ he := nomatch he
  dead e := by
    refine ⟨fun h => absurd h (Registry.not_dead_new _ e), ?_⟩
    rintro (h | ⟨_, h⟩) <;> cases h
  calm _ := rfl

section

variable (h : Kept t g)
include h

theorem Kept.update_self (i : ι) : Kept t (update g i (g i)) := by
  rwa [update_eq_self]

/-- A critical section of the goroutine `i` hands out the entries that it made dead. -/
theorem Kept.select {r : Registry} (hsound : r.Sound) (hselects : Registry.Selects t.registry r es)
    {held : List DatabaseEntry} {holders : List (ι × DatabaseEntry)}
    (hheld : ∀ e, held.count e = holders.count (i, e))
    (hothers : ∀ j e, j ≠ i → holders.count (j, e) = t.holders.count (j, e))
    (hrefs : ∀ e, r.refs e = (holders.map Prod.snd).count e) :
    Kept ⟨r, holders, t.torn⟩ (Function.update g i ⟨held, es ++ (g i).todo, false⟩) := by
  have hfree {e : DatabaseEntry} (he : e ∈ es) : e ∉ t.torn ∧ ∀ j, e ∉ (g j).todo := by
    have halive := hselects.alive e he
    rw [h.dead] at halive
    exact ⟨fun ht => halive (.inl ht), fun j hj => halive (.inr ⟨j, hj⟩)⟩
  have hmem {j : ι} {e : DatabaseEntry} :
      e ∈ (Function.update g i ⟨held, es ++ (g i).todo, false⟩ j).todo ↔
        e ∈ (g j).todo ∨ j = i ∧ e ∈ es := by
    by_cases hj : j = i
    · subst hj
      simp [or_comm]
    · simp [hj]
  constructor
  · exact hsound
  · intro j e
    by_cases hj : j = i
    · subst hj
      rw [Function.update_self]
      exact hheld e
    · rw [Function.update_of_ne hj, h.held]
      exact (hothers j e hj).symm
  · exact hrefs
  · refine (Function.forall_update_iff g fun _ s => s.todo.Nodup).mpr ⟨?_, fun j _ => h.nodup j⟩
    refine nodup_append.mpr ⟨hselects.nodup, h.nodup i, fun e he e' he' hee => ?_⟩
    exact (hfree he).2 i (hee ▸ he')
  · intro j j' e hj hj'
    rcases hmem.mp hj with hj | ⟨hji, he⟩ <;> rcases hmem.mp hj' with hj' | ⟨hji', he'⟩
    · exact h.apart j j' e hj hj'
    · exact absurd hj ((hfree he').2 j)
    · exact absurd hj' ((hfree he).2 j')
    · exact hji.trans hji'.symm
  · exact h.begun
  · intro j e hj
    rcases hmem.mp hj with hj | ⟨_, he⟩
    · exact h.waiting j e hj
    · exact (hfree he).1
  · intro e
    rw [hselects.dead, h.dead, or_assoc]
    refine or_congr_right ⟨?_, ?_⟩
    · rintro (⟨j, hj⟩ | he)
      · exact ⟨j, hmem.mpr (.inl hj)⟩
      · exact ⟨i, hmem.mpr (.inr ⟨rfl, he⟩)⟩
    rintro ⟨j, hj⟩
    rcases hmem.mp hj with hj | ⟨_, he⟩
    · exact .inl ⟨j, hj⟩
    · exact .inr he
  · exact (Function.forall_update_iff g fun _ s => s.panicked = false).mpr
      ⟨rfl, fun j _ => h.calm j⟩

theorem Kept.database {key : String} {registration : Option Err} {t' : Roster ι}
    (hdb : t.database i key registration = (.ok (e, es), t')) :
    Kept t' (update g i ⟨e :: (g i).held, es ++ (g i).todo, false⟩) := by
  unfold Roster.database at hdb
  split at hdb
  · next out r hout =>
    obtain ⟨hok, rfl⟩ := Prod.mk.inj hdb
    cases hok
    obtain ⟨hsound, hselects, hrefs⟩ := Registry.database_spec h.sound hout
    refine h.select hsound hselects (fun e' => ?_) (fun j e' hj => ?_) fun e' => ?_
    · simp only [count_cons, h.held, beq_iff_eq, Prod.mk.injEq, true_and]
    · rw [count_cons_of_ne fun heq => hj (Prod.mk.inj heq).1.symm]
    rw [hrefs, map_cons, count_cons]
    by_cases hee : e' = e
    · subst hee
      simp [h.refs]
    · rw [update_of_ne hee, h.refs, if_neg fun heq => hee (beq_iff_eq.mp heq).symm]
      rfl
  · cases hdb

theorem Kept.releaseDatabase (he : e ∈ (g i).held) :
    ∃ b, (t.releaseDatabase i e).1 = some b ∧ Kept (t.releaseDatabase i e).2
      (Function.update g i
        ⟨(g i).held.erase e, (if b then [e] else []) ++ (g i).todo, false⟩) := by
  have hmem : (i, e) ∈ t.holders := by
    rw [← count_pos_iff, ← h.held, count_pos_iff]
    exact he
  have hpos : 0 < t.registry.refs e := by
    rw [h.refs, count_pos_iff]
    exact mem_map_of_mem hmem
  unfold Roster.releaseDatabase
  split
  · next hnone =>
    unfold Registry.releaseDatabase at hnone
    rw [if_neg (Nat.not_le.mpr hpos)] at hnone
    cases hnone
  · next b r hsome =>
    obtain ⟨hsound, hselects, -, hrefs⟩ := Registry.releaseDatabase_spec h.sound hsome
    refine ⟨b, rfl, h.select hsound hselects (fun e' => ?_) (fun j e' hj => ?_) fun e' => ?_⟩
    · rw [count_erase, count_erase, h.held]
      simp
    · rw [count_erase_of_ne fun heq => hj (Prod.mk.inj heq).1]
    have hperm := (perm_cons_erase hmem).map Prod.snd
    have hcount := hperm.count_eq e'
    rw [map_cons, count_cons] at hcount
    rw [hrefs]
    by_cases hee : e' = e
    · subst hee
      simp only [BEq.rfl, if_true] at hcount
      rw [Function.update_self, h.refs, hcount, Nat.add_sub_cancel]
    · rw [if_neg fun heq => hee (beq_iff_eq.mp heq).symm] at hcount
      rw [Function.update_of_ne hee, h.refs, hcount, Nat.add_zero]

theorem Kept.close (i : ι) (hclose : t.close.1 = some es) :
    Kept t.close.2 (update g i ⟨(g i).held, es ++ (g i).todo, false⟩) := by
  have hregistry : t.registry.close = (some es, t.registry.close.2) := Prod.ext hclose rfl
  obtain ⟨hsound, hselects, hrefs⟩ := Registry.close_spec h.sound hregistry
  refine h.select hsound hselects (h.held i) (fun _ _ _ => rfl) fun e => ?_
  rw [hrefs]
  exact h.refs e

theorem Kept.teardown (he : e ∈ (g i).todo) :
    Kept (t.teardown e) (Function.update g i { g i with todo := (g i).todo.erase e }) := by
  have hmem {j : ι} {e' : DatabaseEntry} :
      e' ∈ (Function.update g i { g i with todo := (g i).todo.erase e } j).todo ↔
        e' ∈ (g j).todo ∧ e' ≠ e := by
    by_cases hj : j = i
    · subst hj
      rw [Function.update_self, (h.nodup j).mem_erase_iff, and_comm]
    rw [Function.update_of_ne hj]
    refine ⟨fun he' => ⟨he', ?_⟩, fun he' => he'.1⟩
    rintro rfl
    exact hj (h.apart j i e' he' he)
  constructor
  · exact h.sound
  · intro j e'
    refine Eq.trans ?_ (h.held j e')
    by_cases hj : j = i
    · subst hj
      rw [Function.update_self]
    · rw [Function.update_of_ne hj]
  · exact h.refs
  · exact (Function.forall_update_iff g fun _ s => s.todo.Nodup).mpr
      ⟨(h.nodup i).erase e, fun j _ => h.nodup j⟩
  · exact fun j j' e' hj hj' => h.apart j j' e' (hmem.mp hj).1 (hmem.mp hj').1
  · exact nodup_cons.mpr ⟨h.waiting i e he, h.begun⟩
  · intro j e' hj
    obtain ⟨hj, hne⟩ := hmem.mp hj
    exact fun hmem' => (mem_cons.mp hmem').elim hne (h.waiting j e' hj)
  · intro e'
    rw [show (t.teardown e).registry = t.registry from rfl, h.dead e',
      show (t.teardown e).torn = e :: t.torn from rfl, mem_cons]
    constructor
    · rintro (ht | ⟨j, hj⟩)
      · exact .inl (.inr ht)
      by_cases hee : e' = e
      · exact .inl (.inl hee)
      · exact .inr ⟨j, hmem.mpr ⟨hj, hee⟩⟩
    · rintro ((rfl | ht) | ⟨j, hj⟩)
      · exact .inr ⟨i, he⟩
      · exact .inl ht
      · exact .inr ⟨j, (hmem.mp hj).1⟩
  · exact (Function.forall_update_iff g fun _ s => s.panicked = false).mpr
      ⟨h.calm i, fun j _ => h.calm j⟩

end

theorem Kept.answer {w w' : World ι} (h : Kept w.roster g) {r : Rsp c} {ch : Choice B}
    (hallow : (g i).Allows c) (hw : w.answer i c ch = some (r, w')) :
    Kept w'.roster (update g i ((g i).step c r)) := by
  have hcalm := h.calm i
  by_cases hc : c.registers = false
  · rw [Custody.step_of_neutral hc, (World.answer_stock hc hw).1]
    exact h.update_self i
  cases c with
  | database key =>
    cases hw
    simp only
    cases hdb : w.roster.database i key ch.err with
    | mk res t' =>
      cases res with
      | ok out =>
        have hk := h.database hdb
        simpa only [Custody.step, hcalm] using hk
      | error err =>
        have hsame : t' = w.roster := by
          unfold Roster.database at hdb
          split at hdb
          · cases hdb
          · next hreg =>
            rw [← (Prod.mk.inj hdb).2, Registry.database_error hreg]
        rw [hsame]
        exact h.update_self i
  | releaseDatabase e =>
    cases hw
    obtain ⟨b, hb, hk⟩ := h.releaseDatabase hallow
    simp only
    rw [hb]
    simpa only [Custody.step, hcalm] using hk
  | close =>
    cases hw
    cases hclose : w.roster.close.1 with
    | some es =>
      have hk := h.close i hclose
      simpa only [Custody.step, hcalm] using hk
    | none =>
      have hsame : w.roster.close.2 = w.roster := by
        have hnone : w.roster.registry.close = (none, w.roster.registry.close.2) :=
          Prod.ext hclose rfl
        simp only [Roster.close, Registry.close_none hnone]
      simp only [hsame]
      exact h.update_self i
  | teardown e =>
    cases hw
    exact h.teardown hallow
  | _ => exact absurd rfl hc

/-- In every run of programs that start with nothing and end with nothing left to do, the roster
agrees with the records of the goroutines. -/
theorem reachable_kept {starts : LifeM B α → Prop} {cfg : Config}
    (hstarts : ∀ p, starts p → p.Obeys custody (fun s _ => s.todo = []) .empty)
    {a : Pool (World ι) ι (Act B) Rsp α} (h : (system starts).Reachable (.new cfg) a) :
    ∃ g, Kept a.world.roster g ∧
      (∀ i p, a.procs i = some p → p.Obeys custody (fun s _ => s.todo = []) (g i)) ∧
      ∀ i, a.procs i = none → g i = .empty := by
  have hstart (w : World ι) (g : ι → Custody) (i : ι) (p : LifeM B α) (w' : World ι) (_ : True)
      (hkept : Kept w.roster g) (hg : g i = .empty) (hs : starts p ∧ w' = w) :
      ∃ s, p.Obeys custody (fun s _ => s.todo = []) s ∧ Kept w'.roster (update g i s) := by
    obtain ⟨hp, rfl⟩ := hs
    refine ⟨.empty, hstarts p hp, ?_⟩
    rw [← hg]
    exact hkept.update_self i
  have hcall (w : World ι) (g : ι → Custody) (i : ι) (c : Act B) (r : Rsp c) (w' : World ι)
      (_ : True) (hkept : Kept w.roster g) (hallow : (g i).Allows c)
      (hc : ∃ ch, w.answer i c ch = some (r, w')) :
      ∃ s, s = (g i).step c r ∧ Kept w'.roster (update g i s) := by
    obtain ⟨ch, hw⟩ := hc
    exact ⟨_, rfl, hkept.answer hallow hw⟩
  have henv (w : World ι) (g : ι → Custody) (w' : World ι) (_ : True) (hkept : Kept w.roster g)
      (he : ∃ m, w.move m = some w') : Kept w'.roster g := by
    obtain ⟨m, hm⟩ := he
    rw [(World.move_stock hm).1]
    exact hkept
  exact h.invariant_knowing custody (fun _ s _ => s.todo = []) (fun w g => Kept w.roster g)
    (K := fun _ => True) (fun _ => .empty) (fun _ _ => trivial) (new_kept cfg) hstart hcall henv

/-! ### The programs -/

theorem sessionClose_routine (s : Sess) :
    (sessionClose s : LifeM B _).Only fun c => c.routine = true := by
  refine .perform rfl fun marked => ?_
  split
  · trivial
  exact .perform rfl fun _ =>
    .perform rfl fun _ =>
    .perform rfl fun _ => trivial

theorem cachedClose_routine (s : Sess) :
    (cachedClose s : LifeM B _).Only fun c => c.routine = true := by
  refine .perform rfl fun closed => ?_
  split
  · exact .perform rfl fun _ => trivial
  refine .perform rfl fun _ => ?_
  exact (sessionClose_routine s).bind fun _ =>
    .perform rfl fun _ => trivial

theorem closeInstances_routine (gone : List Sess) :
    (closeInstances gone : LifeM B _).Only fun c => c.routine = true := by
  induction gone with
  | nil => trivial
  | cons s rest ih => exact (cachedClose_routine s).bind fun _ => ih.bind fun _ => trivial

theorem readsClose_routine : (readsClose : LifeM B _).Only fun c => c.routine = true :=
  .perform rfl fun gone =>
    (closeInstances_routine gone).bind fun _ => trivial

theorem databaseClose_routine (e : DatabaseEntry) :
    (databaseClose e : LifeM B _).Only fun c => c.routine = true := by
  refine .perform rfl fun _ =>
    .perform rfl fun write => ?_
  cases write
  · exact .perform rfl fun _ => trivial
  exact .perform rfl fun _ =>
    .perform rfl fun _ =>
    .perform rfl fun _ => trivial

/-- A goroutine that holds `held` and has nothing to do. -/
def Custody.holding (held : List DatabaseEntry) : Custody := ⟨held, [], false⟩

theorem teardownDatabase_custody (e : DatabaseEntry) (held todo : List DatabaseEntry) (b : Bool) :
    (teardownDatabase e : LifeM B _).Obeys custody (fun s _ => s = ⟨held, todo, b⟩)
      ⟨held, e :: todo, b⟩ := by
  refine .does mem_cons_self fun gone => ?_
  simp only [Custody.step, erase_cons_head]
  refine (routine_obeys (closeInstances_routine gone) _).bind ?_
  rintro s _ rfl
  exact routine_obeys (databaseClose_routine e) _

theorem teardownAll_custody (es held : List DatabaseEntry) (b : Bool) :
    (teardownAll es : LifeM B _).Obeys custody (fun s _ => s = ⟨held, [], b⟩) ⟨held, es, b⟩ := by
  induction es with
  | nil => rfl
  | cons e rest ih =>
    refine (teardownDatabase_custody e held rest b).bind ?_
    rintro s _ rfl
    refine ih.bind ?_
    rintro s _ rfl
    rfl

theorem database_custody (key : String) (held : List DatabaseEntry) :
    (database key : LifeM B _).Obeys custody
      (fun s r => s = .holding (r.toOption.toList ++ held)) (.holding held) := by
  refine .does trivial ?_
  rintro (_ | err)
  · refine .does trivial ?_
    rintro (err | ⟨e, evicted⟩)
    · rfl
    simp only [Custody.step, Custody.holding, append_nil]
    refine (teardownAll_custody evicted (e :: held) false).bind ?_
    rintro s _ rfl
    rfl
  · rfl

theorem releaseDatabase_custody {held : List DatabaseEntry} (he : e ∈ held) :
    (releaseDatabase e : LifeM B _).Obeys custody (fun s _ => s = .holding (held.erase e))
      (.holding held) := by
  refine .does he ?_
  rintro (_ | _ | _)
  · exact .perform rfl fun never => nomatch never
  · rfl
  refine (teardownDatabase_custody e (held.erase e) [] false).bind ?_
  rintro s _ rfl
  rfl

theorem close_custody (held : List DatabaseEntry) :
    (close : LifeM B _).Obeys custody (fun s _ => s = .holding held) (.holding held) := by
  refine .does trivial ?_
  rintro (_ | dbs)
  · rfl
  refine (routine_obeys readsClose_routine _).bind ?_
  rintro s _ rfl
  simp only [Custody.step, Custody.holding, append_nil]
  refine (teardownAll_custody dbs held false).bind ?_
  rintro s _ rfl
  rfl

/-! ### Callers that release what they got -/

/-- The calls that manage entries. -/
inductive RegistryCall
  | database (key : String)
  | releaseDatabase (e : DatabaseEntry)
  | close

/-- Their results. -/
@[reducible] def RegistryCall.Result : RegistryCall → Type
  | .database _ => Except Err DatabaseEntry
  | .releaseDatabase _ => Unit
  | .close => List Err

/-- The functions of the runtime that carry out the calls. -/
def RegistryCall.run (_ : Unit) : (c : RegistryCall) → LifeM B (c.Result × Unit)
  | .database key => do
    let r ← Lifecycle.database key
    return (r, ())
  | .releaseDatabase e => do
    Lifecycle.releaseDatabase e
    return ((), ())
  | .close => do
    let errs ← Lifecycle.close
    return (errs, ())

/-- The entries that a caller has got and not yet released. -/
def matched : Protocol RegistryCall RegistryCall.Result (List DatabaseEntry) where
  allow
    | held, .releaseDatabase e => e ∈ held
    | _, _ => True
  next
    | held, .database _, r, held' => held' = r.toOption.toList ++ held
    | held, .releaseDatabase e, _, held' => held' = held.erase e
    | held, .close, _, held' => held' = held

/-- The programs that make the calls in any order, but release each entry as often as they got
it. -/
def Client (p : LifeM B (α × Unit)) : Prop :=
  ∃ client : Prog RegistryCall RegistryCall.Result α,
    client.Obeys matched (fun held _ => held = []) [] ∧ p = client.handle RegistryCall.run ()

theorem Client.custody {p : LifeM B (α × Unit)} (hp : Client p) :
    p.Obeys custody (fun s _ => s.todo = []) .empty := by
  obtain ⟨client, hclient, rfl⟩ := hp
  have hrun (held : List DatabaseEntry) (u : Unit) (s : Custody) (c : RegistryCall)
      (hs : s = .holding held) (hallow : matched.allow held c) :
      (RegistryCall.run u c : LifeM B _).Obeys Lifecycle.custody
        (fun s' r => ∃ held', matched.next held c r.1 held' ∧ s' = .holding held') s := by
    subst hs
    cases c with
    | database key =>
      refine (database_custody key held).bind ?_
      rintro s r rfl
      exact ⟨_, rfl, rfl⟩
    | releaseDatabase e =>
      refine (releaseDatabase_custody hallow).bind ?_
      rintro s r rfl
      exact ⟨_, rfl, rfl⟩
    | close =>
      refine (close_custody held).bind ?_
      rintro s r rfl
      exact ⟨_, rfl, rfl⟩
  refine (hclient.handle hrun rfl).mono ?_
  rintro s x ⟨held, -, rfl⟩
  rfl

/-- **The life of a database entry.** In every interleaving of `database`, `releaseDatabase` and
`Close` calls by goroutines that release each entry as often as they got it: the map and the list
hold the same entries once each, and at most `dbLimit` of them; the references of an entry are its
holders; no release panics; a teardown begins only on an entry that is evicted and without
references, and once; and an evicted entry without references is torn down, or a goroutine is
bound to tear it down. -/
theorem database_lifecycle {cfg : Config} {a : Pool (World ι) ι (Act B) Rsp (α × Unit)}
    (h : (system Client).Reachable (.new cfg) a) :
    ((∀ key e, a.world.roster.registry.dbs.lookup key = some e ↔
        e ∈ a.world.roster.registry.dbOrder ∧ e.key = key) ∧
      a.world.roster.registry.dbOrder.Nodup ∧
      a.world.roster.registry.dbs.keys.length = a.world.roster.registry.dbOrder.length ∧
      (a.world.roster.registry.dbOrder.length : ℤ) ≤ a.world.roster.registry.dbLimit) ∧
    (∀ e, a.world.roster.registry.refs e =
      (a.world.roster.holders.filter fun x => x.2 = e).length) ∧
    (∀ i k, a.procs i ≠ some (.call .panic k)) ∧
    a.world.roster.torn.Nodup ∧
    (∀ i e k, a.procs i = some (.call (.teardown e) k) → e ∉ a.world.roster.torn ∧
      a.world.roster.registry.evicted e = true ∧ a.world.roster.registry.refs e = 0) ∧
    (∀ e ∈ a.world.roster.torn,
      a.world.roster.registry.evicted e = true ∧ a.world.roster.registry.refs e = 0) ∧
    ∀ e, a.world.roster.registry.evicted e = true → a.world.roster.registry.refs e = 0 →
      e ∈ a.world.roster.torn ∨ ∃ i p, a.procs i = some p ∧
        ∀ tr x, Returns p tr x → ∃ gone, ⟨.teardown e, gone⟩ ∈ tr := by
  obtain ⟨g, hkept, hobeys, hidle⟩ := reachable_kept (fun p hp => Client.custody hp) h
  have hsound := hkept.sound
  refine ⟨⟨hsound.agree, hsound.nodup, hsound.toConsistent.size, hsound.bounded⟩, fun e => ?_,
    fun i k hi => ?_, hkept.begun, fun i e k hi => ?_, fun e he => ?_, fun e hevicted hrefs => ?_⟩
  · rw [hkept.refs e, List.count, countP_map, countP_eq_length_filter]
    congr 1
  · exact nomatch (hkept.calm i).symm.trans (hobeys i _ hi).1
  · have htodo : e ∈ (g i).todo := (hobeys i _ hi).1
    exact ⟨hkept.waiting i e htodo, (hkept.dead e).mpr (.inr ⟨i, htodo⟩)⟩
  · exact (hkept.dead e).mpr (.inl he)
  · refine ((hkept.dead e).mp ⟨hevicted, hrefs⟩).imp_right ?_
    rintro ⟨i, htodo⟩
    cases hi : a.procs i with
    | none =>
      rw [hidle i hi] at htodo
      cases htodo
    | some p => exact ⟨i, p, hi, fun tr x hret => teardown_mem (hobeys i p hi) htodo hret⟩

namespace EvictedHeld

/-- Get an entry and release it. -/
def caller (key : String) : Prog RegistryCall RegistryCall.Result Unit := do
  let entry : Except Err DatabaseEntry ← perform (RegistryCall.database key)
  match entry with
  | .error _ => return ()
  | .ok e => perform (RegistryCall.releaseDatabase e)

theorem caller_matched (key : String) :
    (caller key).Obeys matched (fun held _ => held = []) [] := by
  refine .perform trivial ?_
  rintro (err | e) held rfl
  · rfl
  refine Prog.obeys_perform.mpr ⟨mem_singleton_self e, ?_⟩
  rintro _ held rfl
  exact erase_cons_head e []

/-- The program of a caller. -/
def program (key : String) : LifeM Unit (Unit × Unit) := (caller key).handle RegistryCall.run ()

/-- Room for one database. -/
def config : Config := { defaultConfig with maxReadInstances := 1 }

/-- The database `b` is registered while a caller holds `a`, whose entry is evicted; then the
caller releases `a`. -/
def script : List (Move ℕ String (Choice Unit) HostMove) :=
  [.start 0 "a", .call 0 .ok, .call 0 .ok, .start 1 "b", .call 1 .ok, .call 1 .ok, .call 0 .ok]

/-- The pool that the script reaches. -/
def pool : Option (Pool (World ℕ) ℕ (Act Unit) Rsp (Unit × Unit)) :=
  (interpreter program fun key => ⟨caller key, caller_matched key, rfl⟩ :
    Interpreter (system Client) _ _ _).exec (.new config) script

theorem teardown_pending : ∃ a, pool = some a ∧
    a.world.roster.registry.dbOrder = [⟨"b", 2⟩] ∧ a.world.roster.torn = [] ∧
    ∃ i p, a.procs i = some p ∧
      ∀ tr x, Returns p tr x → ∃ gone, ⟨.teardown ⟨"a", 1⟩, gone⟩ ∈ tr := by
  have hrun : pool.isSome = true := by decide +kernel
  obtain ⟨a, ha⟩ := Option.isSome_iff_exists.mp hrun
  have hfacts : (pool.map fun a => (a.world.roster.registry.dbOrder, a.world.roster.torn,
      a.world.roster.registry.evicted ⟨"a", 1⟩, a.world.roster.registry.refs ⟨"a", 1⟩)) =
      some ([⟨"b", 2⟩], [], true, 0) := by decide +kernel
  rw [ha] at hfacts
  simp only [Option.map_some, Option.some.injEq, Prod.mk.injEq] at hfacts
  obtain ⟨horder, htorn, hevicted, hrefs⟩ := hfacts
  obtain ⟨-, -, -, -, -, -, hbound⟩ := database_lifecycle (Interpreter.exec_reachable _ ha)
  refine ⟨a, ha, horder, htorn, (hbound _ hevicted hrefs).resolve_left ?_⟩
  rw [htorn]
  exact not_mem_nil

end EvictedHeld

end Walrusd.Lifecycle
