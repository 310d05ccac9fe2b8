import Walrusd.Program.Pool

/-!
# Executable runs

Programs and pools are run by functions here, so that a particular run can be evaluated. A program
is run with a fixed answer to each call, or in a world that answers by choices; a pool is run by a
script that says which process moves next and how the world chooses. What the functions compute is
a run in the sense of `Program.Returns`, `Program.Exec` and `Program.System.Reachable`.

## Main definitions

* `Program.Prog.runWith`, `Program.Prog.execute`.
* `Program.Pool.outcome`, `Program.Pool.pending`, `Program.Pool.AtRest`.
* `Program.Interpreter`, `Program.Interpreter.run`.

## Main results

* `Program.Prog.runWith_returns`, `Program.Prog.execute_exec`.
* `Program.Interpreter.step_answered`, `Program.Interpreter.run_steps`,
  `Program.Interpreter.run_reachable`.
-/

namespace Program

open Option

variable {C : Type} {R : C → Type} {α : Type}

/-! ### One program -/

namespace Prog

/-- Run a program, answering every call by `o`: its trace and its value. -/
def runWith (o : (c : C) → R c) : Prog C R α → List (Σ c, R c) × α
  | done a => ([], a)
  | call c k => (⟨c, o c⟩ :: ((k (o c)).runWith o).1, ((k (o c)).runWith o).2)

theorem runWith_returns (o : (c : C) → R c) (p : Prog C R α) :
    Returns p (p.runWith o).1 (p.runWith o).2 := by
  induction p with
  | done a => exact .done a
  | call c k ih => exact .call (ih (o c))

theorem eq_of_mem_runWith {o : (c : C) → R c} {p : Prog C R α} {e : Σ c, R c}
    (h : e ∈ (p.runWith o).1) : e.2 = o e.1 := by
  induction p with
  | done a => cases h
  | call c k ih =>
    rcases List.mem_cons.mp h with rfl | h
    · rfl
    · exact ih _ h

variable {σ Ch : Type}

/-- Run a program in a world whose answers are computed from choices, until the choices run out:
the state and the program left to run. -/
def execute (reply : σ → (c : C) → Ch → Option (R c × σ)) :
    List Ch → Prog C R α → σ → Option (σ × Prog C R α)
  | [], p, s => some (s, p)
  | _ :: _, done _, _ => none
  | ch :: chs, call c k, s =>
    match reply s c ch with
    | none => none
    | some (r, s') => execute reply chs (k r) s'

theorem execute_exec {reply : σ → (c : C) → Ch → Option (R c × σ)}
    {H : σ → (c : C) → R c → σ → Prop}
    (hH : ∀ {s c ch r s'}, reply s c ch = some (r, s') → H s c r s') {chs : List Ch}
    {p p' : Prog C R α} {s s' : σ} (h : execute reply chs p s = some (s', p')) :
    Exec H s p s' p' := by
  induction chs generalizing p s with
  | nil =>
    cases h
    exact .refl _ _
  | cons ch chs ih =>
    cases p with
    | done => cases h
    | call c k =>
      simp only [execute] at h
      split at h
      · cases h
      · next r s'' hreply => exact .step (hH hreply) (ih h)

end Prog

/-! ### Pools -/

/-- The processes of a pool of two are the numerals of `Fin 2`. -/
instance (priority := 1100) neZero_two : @NeZero Nat Zero.ofOfNat0 2 := ⟨by decide⟩

variable {W ι : Type}
variable {a : Pool W ι C R α} {i : ι}

/-- The value that a process of a pool has returned. -/
def Pool.outcome (a : Pool W ι C R α) (i : ι) : Option α :=
  match a.procs i with
  | some (.done x) => some x
  | _ => none

theorem Pool.procs_of_outcome {x : α} (h : a.outcome i = some x) : a.procs i = some (.done x) := by
  unfold outcome at h
  split at h
  · next y hy => rw [hy, some.inj h]
  · cases h

/-- The call that a process of a pool is about to make. -/
def Pool.pending (a : Pool W ι C R α) (i : ι) : Option C :=
  match a.procs i with
  | some (.call c _) => some c
  | _ => none

theorem Pool.procs_of_pending {c : C} (h : a.pending i = some c) :
    ∃ k, a.procs i = some (.call c k) := by
  unfold pending at h
  split at h
  · next c' k hk =>
    cases h
    exact ⟨k, hk⟩
  · cases h

/-- No process is about to make a call: each has returned or has not started. -/
def Pool.AtRest (a : Pool W ι C R α) : Prop := ∀ i, a.pending i = none

theorem Pool.AtRest.cases (h : a.AtRest) (i : ι) :
    a.procs i = none ∨ ∃ x, a.procs i = some (.done x) := by
  have hi := h i
  unfold pending at hi
  cases hp : a.procs i with
  | none => exact .inl rfl
  | some p =>
    cases p with
    | done x => exact .inr ⟨x, rfl⟩
    | call c k =>
      rw [hp] at hi
      cases hi

theorem Pool.pending_of_outcome {x : α} (h : a.outcome i = some x) : a.pending i = none := by
  unfold pending
  rw [procs_of_outcome h]

/-- One move of a script: a process starts, the call of a process is answered, or the world
moves. -/
inductive Move (ι St Ch En : Type)
  | start (i : ι) (x : St)
  | call (i : ι) (x : Ch)
  | env (x : En)

/-- Functions that compute some of the steps of a system. -/
structure Interpreter (S : System W ι C R α) (St Ch En : Type) where
  /-- The program that a process starts. -/
  start : W → ι → St → Option (Prog C R α × W)
  /-- The answer to a call. -/
  call : W → ι → (c : C) → Ch → Option (R c × W)
  /-- A move of the world. -/
  env : W → En → Option W
  start_sound : ∀ {w i x p w'}, start w i x = some (p, w') → S.start w i p w'
  call_sound : ∀ {w i c x r w'}, call w i c x = some (r, w') → S.call w i c r w'
  env_sound : ∀ {w x w'}, env w x = some w' → S.env w w'

namespace Interpreter

variable [DecidableEq ι] {S : System W ι C R α} {St Ch En : Type} (I : Interpreter S St Ch En)
variable {a b : Pool W ι C R α} {ms : List (Move ι St Ch En)}

/-- Make one move. -/
def step (a : Pool W ι C R α) : Move ι St Ch En → Option (Pool W ι C R α)
  | .start i x =>
    match a.procs i with
    | some _ => none
    | none => (I.start a.world i x).map fun s => ⟨s.2, Function.update a.procs i (some s.1)⟩
  | .call i x =>
    match a.procs i with
    | some (.call c k) =>
      (I.call a.world i c x).map fun s => ⟨s.2, Function.update a.procs i (some (k s.1))⟩
    | _ => none
  | .env x => (I.env a.world x).map fun w => ⟨w, a.procs⟩

/-- Run a script. -/
def run : Pool W ι C R α → List (Move ι St Ch En) → Option (Pool W ι C R α)
  | a, [] => some a
  | a, m :: ms => (I.step a m).bind fun b => run b ms

theorem step_sound {m : Move ι St Ch En} (h : I.step a m = some b) : S.Step a b := by
  cases m with
  | start i x =>
    simp only [step] at h
    split at h
    · cases h
    · next hi =>
      obtain ⟨s, hs, rfl⟩ := map_eq_some_iff.mp h
      exact .start hi (I.start_sound hs)
  | call i x =>
    simp only [step] at h
    split at h
    · next c k hi =>
      obtain ⟨s, hs, rfl⟩ := map_eq_some_iff.mp h
      exact .call hi (I.call_sound hs)
    · cases h
  | env x =>
    obtain ⟨w, hw, rfl⟩ := map_eq_some_iff.mp h
    exact .env (I.env_sound hw)

theorem step_answered {i : ι} {c : C} {x : Ch} (hc : a.pending i = some c)
    (h : I.step a (.call i x) = some b) : ∃ r, S.Answered a i c r b := by
  obtain ⟨k, hk⟩ := Pool.procs_of_pending hc
  simp only [step, hk] at h
  obtain ⟨s, hs, rfl⟩ := map_eq_some_iff.mp h
  exact ⟨s.1, k, hk, I.call_sound hs, rfl⟩

theorem run_steps (h : I.run a ms = some b) : Relation.ReflTransGen S.Step a b := by
  induction ms generalizing a with
  | nil =>
    obtain rfl : a = b := some.inj h
    exact .refl
  | cons m ms ih =>
    obtain ⟨c, hc, hrun⟩ := bind_eq_some_iff.mp h
    exact .head (I.step_sound hc) (ih hrun)

theorem run_reachable {w₀ : W} (h : I.run a ms = some b) (ha : S.Reachable w₀ a) :
    S.Reachable w₀ b :=
  ha.trans (I.run_steps h)

/-- The pool that a script reaches from the world `w₀`. -/
def exec (w₀ : W) (ms : List (Move ι St Ch En)) : Option (Pool W ι C R α) :=
  I.run ⟨w₀, fun _ => none⟩ ms

/-- The steps of an interpreter that meet a condition. -/
def restrict (good : W → ι → (c : C) → R c → W → Prop)
    [∀ w i c r w', Decidable (good w i c r w')] : Interpreter (S.restrict good) St Ch En where
  start := I.start
  call w i c x := (I.call w i c x).filter fun s => good w i c s.1 s.2
  env := I.env
  start_sound := I.start_sound
  call_sound h := by
    obtain ⟨hcall, hgood⟩ := filter_eq_some_iff.mp h
    exact ⟨I.call_sound hcall, of_decide_eq_true hgood⟩
  env_sound := I.env_sound

theorem exec_reachable {w₀ : W} (h : I.exec w₀ ms = some a) :
    S.Reachable w₀ a := I.run_reachable h .init

end Interpreter

end Program
