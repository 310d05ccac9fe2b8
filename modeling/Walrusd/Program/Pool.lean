import Walrusd.Program.Basic

/-!
# Pools of programs that share a world

A pool is a world together with the programs that run in it, one for each process. A step starts
a process, answers the pending call of one process, or lets the world move by itself. Nothing is
scheduled fairly, so a process that is never chosen again is a crashed one, and a statement about
every reachable pool is a statement about every interleaving with crashes anywhere.

The rule `System.Reachable.invariant` reduces an invariant of the pool to one lemma for each kind
of step. The processes are watched by a protocol: the invariant speaks about the world and the
protocol states only, never about the programs, and each program has to be checked against the
protocol once.

## Main definitions

* `Program.System`, `Program.Pool`, `Program.System.Step`, `Program.System.Reachable`.
* `Program.System.restrict` — the runs whose answered calls all meet a condition.

## Main results

* `Program.System.Reachable.invariant`, `Program.System.Reachable.invariant_knowing`.
* `Program.System.Reachable.world`, `Program.System.world_of_steps` — the same rule for an invariant
  of the world alone.
-/

namespace Program

open Function

variable {W ι C : Type} {R : C → Type} {α σ : Type}

section Update

variable [DecidableEq ι] {g : ι → σ} {s : σ} {P : σ → Prop} {i j : ι}

theorem imp_update (hs : P (g i) → P s) (h : P (g j)) : P (update g i s j) := by
  rcases eq_or_ne j i with rfl | hji
  · rw [update_self]
    exact hs h
  · rwa [update_of_ne hji]

theorem of_update (hs : P s → P (g i)) (h : P (update g i s j)) : P (g j) := by
  rcases eq_or_ne j i with rfl | hji
  · rw [update_self] at h
    exact hs h
  · rwa [update_of_ne hji] at h

theorem apply_update_eq {β : Type} {f : σ → β} {t : σ} (hf : f t = f (g i)) (j : ι) :
    f (update g i t j) = f (g j) := by
  rcases eq_or_ne j i with rfl | hji
  · rw [update_self, hf]
  · rw [update_of_ne hji]

end Update

/-- How the processes of a pool act on their world. -/
structure System (W ι C : Type) (R : C → Type) (α : Type) where
  /-- A process may start running a program. -/
  start : W → ι → Prog C R α → W → Prop
  /-- The call of a process is answered. -/
  call : W → ι → (c : C) → R c → W → Prop
  /-- The world moves by itself. -/
  env : W → W → Prop

/-- A world and the programs running in it; a process that has not started has none. -/
structure Pool (W ι C : Type) (R : C → Type) (α : Type) where
  /-- The shared world. -/
  world : W
  /-- The program that each started process has left to run. -/
  procs : ι → Option (Prog C R α)

namespace System

/-- The runs of `S` in which every answered call meets the condition `good`. -/
def restrict (S : System W ι C R α) (good : W → ι → (c : C) → R c → W → Prop) :
    System W ι C R α where
  start := S.start
  call w i c r w' := S.call w i c r w' ∧ good w i c r w'
  env := S.env

variable [DecidableEq ι] {S : System W ι C R α}

/-- One step of a pool. -/
inductive Step (S : System W ι C R α) : Pool W ι C R α → Pool W ι C R α → Prop
  | start {w procs i p w'} (hi : procs i = none) (h : S.start w i p w') :
      Step S ⟨w, procs⟩ ⟨w', update procs i (some p)⟩
  | call {w procs i c k r w'} (hi : procs i = some (.call c k)) (h : S.call w i c r w') :
      Step S ⟨w, procs⟩ ⟨w', update procs i (some (k r))⟩
  | env {w procs w'} (h : S.env w w') : Step S ⟨w, procs⟩ ⟨w', procs⟩

/-- The step in which the call `c` of the process `i` is answered by `r`. -/
def Answered (S : System W ι C R α) (a : Pool W ι C R α) (i : ι) (c : C) (r : R c)
    (b : Pool W ι C R α) : Prop :=
  ∃ k, a.procs i = some (.call c k) ∧ S.call a.world i c r b.world ∧
    b.procs = update a.procs i (some (k r))

theorem Answered.step {a b : Pool W ι C R α} {i : ι} {c : C} {r : R c} (h : S.Answered a i c r b) :
    S.Step a b := by
  obtain ⟨w, procs⟩ := a
  obtain ⟨w', procs'⟩ := b
  obtain ⟨k, hi, hcall, rfl⟩ := h
  exact .call hi hcall

/-- The pools that can be reached from the world `w₀` with no process started. -/
inductive Reachable (S : System W ι C R α) (w₀ : W) : Pool W ι C R α → Prop
  | init : Reachable S w₀ ⟨w₀, fun _ => none⟩
  | step {a b} (h : Reachable S w₀ a) (hs : S.Step a b) : Reachable S w₀ b

variable {a b : Pool W ι C R α} {w₀ : W}

/-- The invariant rule, given facts `K` about the world of every reachable pool; the protocol state
of a process that has not started is the initial one. -/
theorem Reachable.invariant_knowing (P : Protocol C R σ) (Q : ι → σ → α → Prop)
    (Inv : W → (ι → σ) → Prop) {K : W → Prop} (g₀ : ι → σ) (hK : ∀ b, S.Reachable w₀ b → K b.world)
    (h₀ : Inv w₀ g₀) (hstart : ∀ w g i p w', K w → Inv w g → g i = g₀ i → S.start w i p w' →
      ∃ s, p.Obeys P (Q i) s ∧ Inv w' (update g i s))
    (hcall : ∀ w g i c r w', K w → Inv w g → P.allow (g i) c → S.call w i c r w' →
      ∃ s, P.next (g i) c r s ∧ Inv w' (update g i s))
    (henv : ∀ w g w', K w → Inv w g → S.env w w' → Inv w' g) (h : S.Reachable w₀ a) :
    ∃ g, Inv a.world g ∧ (∀ i p, a.procs i = some p → p.Obeys P (Q i) (g i)) ∧
      ∀ i, a.procs i = none → g i = g₀ i := by
  induction h with
  | init => exact ⟨g₀, h₀, fun i p hp => by simp at hp, fun _ _ => rfl⟩
  | step hr hs ih =>
    obtain ⟨g, hInv, hobey, hidle⟩ := ih
    have hknown := hK _ hr
    cases hs with
    | @start w procs i p w' hi h =>
      obtain ⟨s, hp, hInv'⟩ := hstart _ _ _ _ _ hknown hInv (hidle i hi) h
      refine ⟨_, hInv', fun j q hq => ?_, fun j hj => ?_⟩
      · by_cases hji : j = i
        · subst hji
          simp only [update_self, Option.some.injEq] at hq ⊢
          exact hq ▸ hp
        · simp only [update_of_ne hji] at hq ⊢
          exact hobey j q hq
      · by_cases hji : j = i
        · subst hji
          simp at hj
        · simp only [update_of_ne hji] at hj ⊢
          exact hidle j hj
    | @call w procs i c k r w' hi h =>
      have hk := hobey i _ hi
      obtain ⟨s, hnext, hInv'⟩ := hcall _ _ _ _ _ _ hknown hInv hk.1 h
      refine ⟨_, hInv', fun j q hq => ?_, fun j hj => ?_⟩
      · by_cases hji : j = i
        · subst hji
          simp only [update_self, Option.some.injEq] at hq ⊢
          exact hq ▸ hk.2 r s hnext
        · simp only [update_of_ne hji] at hq ⊢
          exact hobey j q hq
      · by_cases hji : j = i
        · subst hji
          simp at hj
        · simp only [update_of_ne hji] at hj ⊢
          exact hidle j hj
    | env h => exact ⟨g, henv _ _ _ hknown hInv h, hobey, hidle⟩

/-- **The invariant rule.** An invariant of the world and the protocol states holds in every
reachable pool, and every program obeys the protocol from its state, if it holds initially, a
started program obeys the protocol from a state that keeps it, every answer to an allowed call
keeps it in some state the protocol foresees, and the moves of the world keep it. -/
theorem Reachable.invariant (P : Protocol C R σ) (Q : ι → σ → α → Prop) (Inv : W → (ι → σ) → Prop)
    (g₀ : ι → σ) (h₀ : Inv w₀ g₀) (hstart : ∀ w g i p w', Inv w g → S.start w i p w' →
      ∃ s, p.Obeys P (Q i) s ∧ Inv w' (update g i s))
    (hcall : ∀ w g i c r w', Inv w g → P.allow (g i) c → S.call w i c r w' →
      ∃ s, P.next (g i) c r s ∧ Inv w' (update g i s))
    (henv : ∀ w g w', Inv w g → S.env w w' → Inv w' g) (h : S.Reachable w₀ a) :
    ∃ g, Inv a.world g ∧ ∀ i p, a.procs i = some p → p.Obeys P (Q i) (g i) := by
  obtain ⟨g, hInv, hobey, -⟩ := h.invariant_knowing P Q Inv (K := fun _ => True) g₀
    (fun _ _ => trivial) h₀
    (fun w g i p w' _ hInv _ => hstart w g i p w' hInv)
    (fun w g i c r w' _ => hcall w g i c r w') (fun w g w' _ => henv w g w')
  exact ⟨g, hInv, hobey⟩

/-- A property of the world alone that every kind of step keeps holds in every reachable pool. -/
theorem Reachable.world {I : W → Prop} (h₀ : I w₀)
    (hstart : ∀ w i p w', I w → S.start w i p w' → I w')
    (hcall : ∀ w i c r w', I w → S.call w i c r w' → I w') (henv : ∀ w w', I w → S.env w w' → I w')
    (h : S.Reachable w₀ a) : I a.world := by
  induction h with
  | init => exact h₀
  | step _ hs ih =>
    cases hs with
    | start hi h => exact hstart _ _ _ _ ih h
    | call hi h => exact hcall _ _ _ _ _ ih h
    | env h => exact henv _ _ ih h

/-- A property of the world alone that every kind of step keeps holds along every run. -/
theorem world_of_steps {I : W → Prop} (hstart : ∀ w i p w', I w → S.start w i p w' → I w')
    (hcall : ∀ w i c r w', I w → S.call w i c r w' → I w') (henv : ∀ w w', I w → S.env w w' → I w')
    (hab : Relation.ReflTransGen S.Step a b) (ha : I a.world) : I b.world := by
  induction hab with
  | refl => exact ha
  | tail _ hs ih =>
    cases hs with
    | start hi h => exact hstart _ _ _ _ ih h
    | call hi h => exact hcall _ _ _ _ _ ih h
    | env h => exact henv _ _ ih h

theorem Reachable.trans (h : S.Reachable w₀ a) (hab : Relation.ReflTransGen S.Step a b) :
    S.Reachable w₀ b := by
  induction hab with
  | refl => exact h
  | tail _ hs ih => exact ih.step hs

/-- A process that has returned takes no more steps. -/
theorem Step.procs_done (hs : S.Step a b) {i : ι} {x : α} (hi : a.procs i = some (.done x)) :
    b.procs i = some (.done x) := by
  have hne {j : ι} {p : Option (Prog C R α)} {procs : ι → Option (Prog C R α)}
      (hprocs : procs i = some (.done x)) (hj : procs j ≠ some (.done x)) :
      update procs j p i = some (.done x) := by
    have hij : i ≠ j := by
      rintro rfl
      exact hj hprocs
    rw [update_of_ne hij, hprocs]
  cases hs with
  | start hj _ | call hj _ => exact hne hi (by simp [hj])
  | env _ => exact hi

/-- A map of worlds that keeps the steps of a system maps its runs to runs of the other system. -/
theorem Reachable.map {V : Type} {T : System V ι C R α} (f : W → V)
    (hstart : ∀ {w i p w'}, S.start w i p w' → T.start (f w) i p (f w'))
    (hcall : ∀ {w i c r w'}, S.call w i c r w' → T.call (f w) i c r (f w'))
    (henv : ∀ w w', S.env w w' → T.env (f w) (f w') ∨ f w' = f w) (h : S.Reachable w₀ a) :
    T.Reachable (f w₀) ⟨f a.world, a.procs⟩ := by
  induction h with
  | init => exact .init
  | step _ hs ih =>
    cases hs with
    | start hi h => exact ih.step (.start hi (hstart h))
    | call hi h => exact ih.step (.call hi (hcall h))
    | @env w procs w' h =>
      rcases henv w w' h with h | h
      · exact ih.step (.env h)
      · rw [h]
        exact ih

end System

end Program
