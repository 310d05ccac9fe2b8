import Mathlib.Logic.Relation
import Mathlib.Logic.Function.Basic

/-!
# Programs that issue external calls

A program either returns a value or issues one call `c` and continues with the response, whose
type `R c` depends on the call. The tree records every response a caller has to handle, so an
error path that the code forgets cannot be written.

A *protocol* over a state type `σ` says which calls may be issued in a state and which states can
follow a response. `Prog.Obeys` is the corresponding triple: started in `s`, the program issues
only allowed calls, and whatever it returns satisfies the postcondition. The protocol may be a
ghost automaton that watches one program of a pool (`Walrusd.Program.Pool`), or the world the
program runs in, in which case `Prog.Obeys` is a Hoare triple whose `allow` is an invariant that
holds at every call and therefore at every crash.

## Main definitions

* `Program.Prog`, with its monad structure, and `Program.perform`.
* `Program.Exec` — finite executions, complete or cut off at any call.
* `Program.Returns` — complete executions, as traces of answered calls.
* `Program.Protocol`, `Program.Protocol.Runs`, `Program.Prog.Obeys` and `Program.Prog.Keeps`.
* `Program.Prog.Only`, `Program.Prog.Yields` — the calls a program issues and the values it
  returns, whatever the answers.

## Main results

* `Program.Prog.Obeys.bind`, `Program.Prog.Obeys.mono`, `Program.Prog.Obeys.perform`,
  `Program.Prog.Obeys.does` — the rules for sequencing, weakening and a single call.
* `Program.Exec.obeys` — what an execution of an obedient program keeps.
* `Program.Returns.obeys`, `Program.Returns.runs`, `Program.Returns.allows`,
  `Program.Returns.keeps` — what the trace of an obedient program shows.
* `Program.Returns.of_bind` — the trace of a sequence.
* `Program.Prog.Obeys.exists_returns` — an obedient program returns if its calls are answered.
-/

namespace Program

open List

variable {C : Type} {R : C → Type} {α β γ : Type}

/-- A program that issues calls of type `C` and returns a value of type `α`; the response to the
call `c` has type `R c`. -/
inductive Prog (C : Type) (R : C → Type) (α : Type) : Type
  | done (a : α)
  | call (c : C) (k : R c → Prog C R α)

namespace Prog

/-- Run `p`, then continue with its value. -/
protected def bind : Prog C R α → (α → Prog C R β) → Prog C R β
  | done a, f => f a
  | call c k, f => call c fun r => (k r).bind f

instance : Monad (Prog C R) where
  pure := done
  bind := Prog.bind

@[simp] theorem pure_eq_done (a : α) : (pure a : Prog C R α) = done a := rfl

@[simp] theorem done_bind (a : α) (f : α → Prog C R β) : done a >>= f = f a := rfl

@[simp] theorem call_bind (c : C) (k : R c → Prog C R α) (f : α → Prog C R β) :
    call c k >>= f = call c fun r => k r >>= f := rfl

theorem bind_assoc (p : Prog C R α) (f : α → Prog C R β) (g : β → Prog C R γ) :
    p >>= f >>= g = p >>= fun a => f a >>= g := by
  induction p with
  | done a => rfl
  | call c k ih => exact congrArg (call c) (funext ih)

end Prog

/-- The program that issues the call `c` and returns its response. -/
def perform (c : C) : Prog C R (R c) := .call c .done

theorem perform_bind (c : C) (f : R c → Prog C R α) :
    (perform c >>= f : Prog C R α) = .call c f := rfl

/-! ### Executions -/

/-- `Exec H s p s' p'` says that `p` started in `s` can reach the state `s'` with `p'` left to
run, every response being one that `H` allows. The remaining program `p'` is arbitrary: a
complete execution ends in `Prog.done`, and an execution that stops before a call is a crash. -/
inductive Exec {σ : Type} (H : σ → (c : C) → R c → σ → Prop) :
    σ → Prog C R α → σ → Prog C R α → Prop
  | refl (s p) : Exec H s p s p
  | step {s c k r s' s'' p} (h : H s c r s') (rest : Exec H s' (k r) s'' p) :
      Exec H s (.call c k) s'' p

/-- `Returns p tr a` says that `p` returns `a` when its calls are answered as in the trace `tr`,
whatever the answers mean. -/
inductive Returns : Prog C R α → List (Σ c, R c) → α → Prop
  | done (a) : Returns (.done a) [] a
  | call {c k r tr a} (h : Returns (k r) tr a) : Returns (.call c k) (⟨c, r⟩ :: tr) a

/-! ### Protocols -/

/-- A protocol: the calls allowed in a state, and the states that may follow a response. -/
structure Protocol (C : Type) (R : C → Type) (σ : Type) where
  /-- The calls that may be issued. -/
  allow : σ → C → Prop
  /-- The states that may follow the response to a call. -/
  next : σ → (c : C) → R c → σ → Prop

/-- `P.Runs s tr s'` says that the answers of the trace `tr` lead from `s` to `s'`. -/
inductive Protocol.Runs {σ : Type} (P : Protocol C R σ) : σ → List (Σ c, R c) → σ → Prop
  | nil (s) : P.Runs s [] s
  | cons {s c r s' tr s''} (h : P.next s c r s') (rest : P.Runs s' tr s'') :
      P.Runs s (⟨c, r⟩ :: tr) s''

/-- An automaton that watches the answered calls and forbids none. -/
def Protocol.ofStep {σ : Type} (step : σ → (c : C) → R c → σ) : Protocol C R σ where
  allow _ _ := True
  next s c r s' := s' = step s c r

/-- The states of the protocol follow from the answers. -/
class Protocol.Steps {σ : Type} (P : Protocol C R σ) (step : outParam (σ → (c : C) → R c → σ)) :
    Prop where
  eq_step : ∀ {s c r s'}, P.next s c r s' → s' = step s c r

instance {σ : Type} (step : σ → (c : C) → R c → σ) : (Protocol.ofStep step).Steps step := ⟨id⟩

/-- Two protocols at the same time. -/
def Protocol.prod {σ τ : Type} (P : Protocol C R σ) (P' : Protocol C R τ) :
    Protocol C R (σ × τ) where
  allow s c := P.allow s.1 c ∧ P'.allow s.2 c
  next s c r s' := P.next s.1 c r s'.1 ∧ P'.next s.2 c r s'.2

namespace Prog

variable {σ : Type} {P : Protocol C R σ} {Q Q' : σ → α → Prop} {s : σ} {c : C} {p : Prog C R α}

/-- Started in `s`, the program issues only calls that `P` allows, and returns only values that
satisfy `Q`. -/
def Obeys (P : Protocol C R σ) (Q : σ → α → Prop) : Prog C R α → σ → Prop
  | done a, s => Q s a
  | call c k, s => P.allow s c ∧ ∀ r s', P.next s c r s' → (k r).Obeys P Q s'

/-- Started in `s`, the program issues only calls that `P` allows. -/
abbrev Keeps (P : Protocol C R σ) (p : Prog C R α) (s : σ) : Prop := p.Obeys P (fun _ _ => True) s

@[simp] theorem obeys_done {a : α} : (done a : Prog C R α).Obeys P Q s ↔ Q s a := Iff.rfl

/-- The rule for one call followed by a continuation. -/
theorem Obeys.perform {f : R c → Prog C R α} (h : P.allow s c)
    (hf : ∀ r s', P.next s c r s' → (f r).Obeys P Q s') :
    (Program.perform c >>= f : Prog C R α).Obeys P Q s := ⟨h, hf⟩

/-- The rule for one call if the next state follows from the answer. -/
theorem Obeys.does {step : σ → (c : C) → R c → σ} [P.Steps step] {f : R c → Prog C R α}
    (h : P.allow s c) (hf : ∀ r, (f r).Obeys P Q (step s c r)) :
    (Program.perform c >>= f : Prog C R α).Obeys P Q s := by
  refine .perform h fun r s' hnext => ?_
  rw [Protocol.Steps.eq_step hnext]
  exact hf r

theorem obeys_perform {Q : σ → R c → Prop} :
    (perform c : Prog C R (R c)).Obeys P Q s ↔ P.allow s c ∧ ∀ r s', P.next s c r s' → Q s' r :=
  Iff.rfl

/-- The rule of consequence. -/
theorem Obeys.mono (h : p.Obeys P Q s) (hQ : ∀ s a, Q s a → Q' s a) : p.Obeys P Q' s := by
  induction p generalizing s with
  | done a => exact hQ s a h
  | call c k ih => exact ⟨h.1, fun r s' hn => ih r (h.2 r s' hn)⟩

/-- The rule of sequencing. -/
theorem Obeys.bind {f : α → Prog C R β} {Q : σ → α → Prop} {Q' : σ → β → Prop} (h : p.Obeys P Q s)
    (hf : ∀ s a, Q s a → (f a).Obeys P Q' s) : (p >>= f).Obeys P Q' s := by
  induction p generalizing s with
  | done a => exact hf s a h
  | call c k ih => exact ⟨h.1, fun r s' hn => ih r (h.2 r s' hn)⟩

/-- The rule of conjunction. -/
theorem Obeys.prod {τ : Type} {P' : Protocol C R τ} {Q' : τ → α → Prop} {t : τ} (h : p.Obeys P Q s)
    (h' : p.Obeys P' Q' t) : p.Obeys (P.prod P') (fun x a => Q x.1 a ∧ Q' x.2 a) (s, t) := by
  induction p generalizing s t with
  | done a => exact ⟨h, h'⟩
  | call c k ih =>
    exact ⟨⟨h.1, h'.1⟩, fun r x hn => ih r (h.2 r x.1 hn.1) (h'.2 r x.2 hn.2)⟩

/-- A second protocol that foresees every answer can be left out. -/
theorem Obeys.of_prod {τ : Type} {P' : Protocol C R τ} {Q : σ × τ → α → Prop} {Q' : σ → α → Prop}
    (htotal : ∀ t c r, ∃ t', P'.next t c r t') (hQ : ∀ x a, Q x a → Q' x.1 a) {x : σ × τ}
    (h : p.Obeys (P.prod P') Q x) : p.Obeys P Q' x.1 := by
  induction p generalizing x with
  | done a => exact hQ x a h
  | call c k ih =>
    refine ⟨h.1.1, fun r s' hn => ?_⟩
    obtain ⟨t', ht'⟩ := htotal x.2 c r
    exact ih r (x := (s', t')) (h.2 r (s', t') ⟨hn, ht'⟩)

/-- In states where every call is allowed, and that no answer leads out of, a program may do
anything. -/
theorem obeys_of_closed {J : σ → Prop} (hallow : ∀ s c, J s → P.allow s c)
    (hnext : ∀ s c r s', J s → P.next s c r s' → J s') (p : Prog C R α) (hs : J s) :
    p.Obeys P (fun s _ => J s) s := by
  induction p generalizing s with
  | done a => exact hs
  | call c k ih => exact ⟨hallow s c hs, fun r s' hn => ih r (hnext s c r s' hs hn)⟩

/-- The program issues only calls from `S`. -/
def Only (S : C → Prop) : Prog C R α → Prop
  | done _ => True
  | call c k => S c ∧ ∀ r, (k r).Only S

/-- The program returns only values that satisfy `T`, whatever the answers. -/
def Yields (T : α → Prop) : Prog C R α → Prop
  | done a => T a
  | call _ k => ∀ r, (k r).Yields T

section Only

variable {S : C → Prop} {T : α → Prop}

theorem only_perform (h : S c) : (perform c : Prog C R (R c)).Only S :=
  ⟨h, fun _ => trivial⟩

theorem Only.perform {f : R c → Prog C R α} (h : S c) (hf : ∀ r, (f r).Only S) :
    (Program.perform c >>= f : Prog C R α).Only S := ⟨h, hf⟩

theorem Only.bind {f : α → Prog C R β} (h : p.Only S) (hf : ∀ a, (f a).Only S) :
    (p >>= f).Only S := by
  induction p with
  | done a => exact hf a
  | call c k ih => exact ⟨h.1, fun r => ih r (h.2 r)⟩

theorem Only.mono {S' : C → Prop} (h : p.Only S) (hS : ∀ c, S c → S' c) : p.Only S' := by
  induction p with
  | done => trivial
  | call c k ih => exact ⟨hS c h.1, fun r => ih r (h.2 r)⟩

/-- A program whose calls are allowed in every state. -/
theorem Only.safe (h : p.Only S) (hS : ∀ s c, S c → P.allow s c) : p.Keeps P s := by
  induction p generalizing s with
  | done => trivial
  | call c k ih => exact ⟨hS s c h.1, fun r s' _ => ih r (h.2 r)⟩

/-- A program whose calls all leave the state `s` as it is leaves it as it is. -/
theorem Only.obeys (h : p.Only S) (hS : ∀ c, S c → P.allow s c ∧ ∀ r s', P.next s c r s' → s' = s) :
    p.Obeys P (fun s' _ => s' = s) s := by
  induction p with
  | done => rfl
  | call c k ih =>
    refine ⟨(hS c h.1).1, fun r s' hn => ?_⟩
    rw [(hS c h.1).2 r s' hn]
    exact ih r (h.2 r)

/-- Sequencing after a program whose calls all leave the state as it is. -/
theorem Only.bind_obeys {f : α → Prog C R β} {Q : σ → β → Prop} (h : p.Only S)
    (hS : ∀ c, S c → P.allow s c ∧ ∀ r s', P.next s c r s' → s' = s) (hf : ∀ a, (f a).Obeys P Q s) :
    (p >>= f).Obeys P Q s := by
  refine (h.obeys hS).bind fun s' a hs => ?_
  rw [hs]
  exact hf a

theorem yields_perform_bind {f : R c → Prog C R α} (hf : ∀ r, (f r).Yields T) :
    (perform c >>= f : Prog C R α).Yields T := hf

theorem yields_true (p : Prog C R α) : p.Yields fun _ => True := by
  induction p with
  | done => trivial
  | call c k ih => exact ih

theorem Yields.mono {T' : α → Prop} (h : p.Yields T) (hT : ∀ a, T a → T' a) : p.Yields T' := by
  induction p with
  | done a => exact hT a h
  | call c k ih => exact fun r => ih r (h r)

theorem Yields.bind {f : α → Prog C R β} {T' : β → Prop} (h : p.Yields T)
    (hf : ∀ a, T a → (f a).Yields T') : (p >>= f).Yields T' := by
  induction p with
  | done a => exact hf a h
  | call c k ih => exact fun r => ih r (h r)

/-- Under a protocol that forbids nothing, what a program yields is all there is to show. -/
theorem Yields.obeys_of_allow (h : p.Yields T) (hallow : ∀ s c, P.allow s c)
    (hQ : ∀ s a, T a → Q s a) : p.Obeys P Q s := by
  induction p generalizing s with
  | done a => exact hQ s a h
  | call c k ih => exact ⟨hallow s c, fun r s' _ => ih r (h r)⟩

theorem Yields.obeys {step : σ → (c : C) → R c → σ} (h : p.Yields T) (hQ : ∀ s a, T a → Q s a) :
    p.Obeys (.ofStep step) Q s :=
  h.obeys_of_allow (fun _ _ => trivial) hQ

/-- Under an automaton that forbids nothing a program may do anything. -/
theorem obeys_true {step : σ → (c : C) → R c → σ} (p : Prog C R α) :
    p.Keeps (.ofStep step) s := (yields_true p).obeys fun _ _ _ => trivial

end Only

end Prog

/-- An execution of an obedient program, by responses that the protocol foresees, leaves an
obedient program. -/
theorem Exec.obeys {σ : Type} {H : σ → (c : C) → R c → σ → Prop} {P : Protocol C R σ}
    {Q : σ → α → Prop} {s s' : σ} {p p' : Prog C R α} (h : Exec H s p s' p')
    (hH : ∀ s c r s', H s c r s' → P.next s c r s') (hp : p.Obeys P Q s) : p'.Obeys P Q s' := by
  induction h with
  | refl => exact hp
  | step hstep _ ih => exact ih (hp.2 _ _ (hH _ _ _ _ hstep))

/-- What a program that obeys an automaton returns agrees with the state that the automaton
reaches on the trace. -/
theorem Returns.obeys {σ : Type} {step : σ → (c : C) → R c → σ} {Q : σ → α → Prop} {s : σ}
    {p : Prog C R α} {tr : List (Σ c, R c)} {a : α} (h : Returns p tr a)
    (hp : p.Obeys (.ofStep step) Q s) : Q (tr.foldl (fun s e => step s e.1 e.2) s) a := by
  induction h generalizing s with
  | done => exact hp
  | call _ ih => exact ih (hp.2 _ _ rfl)

/-- What a program that obeys a protocol returns agrees with the state that the trace leads to. -/
theorem Returns.runs {σ : Type} {P : Protocol C R σ} {Q : σ → α → Prop} {s s' : σ} {p : Prog C R α}
    {tr : List (Σ c, R c)} {a : α} (h : Returns p tr a) (hruns : P.Runs s tr s')
    (hp : p.Obeys P Q s) : Q s' a := by
  induction h generalizing s with
  | done =>
    cases hruns
    exact hp
  | call _ ih =>
    cases hruns with
    | cons hnext hrest => exact ih hrest (hp.2 _ _ hnext)

/-- The trace of a sequence consists of the traces of its parts. -/
theorem Returns.of_bind {p : Prog C R α} {f : α → Prog C R β} {tr : List (Σ c, R c)} {b : β}
    (h : Returns (p >>= f) tr b) :
    ∃ pre a post, tr = pre ++ post ∧ Returns p pre a ∧ Returns (f a) post b := by
  induction p generalizing tr with
  | done a => exact ⟨[], a, tr, rfl, .done a, h⟩
  | call c k ih =>
    cases h with
    | call h =>
      obtain ⟨pre, a, post, rfl, hpre, hpost⟩ := ih _ h
      exact ⟨_ :: pre, a, post, rfl, .call hpre, hpost⟩

theorem Returns.of_perform_bind {c : C} {f : R c → Prog C R α} {tr : List (Σ c, R c)} {a : α}
    (h : Returns (perform c >>= f) tr a) :
    ∃ r post, tr = ⟨c, r⟩ :: post ∧ Returns (f r) post a := by
  cases h with
  | call h => exact ⟨_, _, rfl, h⟩

theorem Returns.yields {T : α → Prop} {p : Prog C R α} {tr : List (Σ c, R c)} {a : α}
    (h : Returns p tr a) (hp : p.Yields T) : T a := by
  induction h with
  | done => exact hp
  | call _ ih => exact ih (hp _)

theorem Returns.only {S : C → Prop} {p : Prog C R α} {tr : List (Σ c, R c)} {a : α}
    (h : Returns p tr a) (hp : p.Only S) {e : Σ c, R c} (he : e ∈ tr) : S e.1 := by
  induction h with
  | done => cases he
  | call _ ih =>
    rcases mem_cons.mp he with rfl | he
    · exact hp.1
    · exact ih (hp.2 _) he

/-- A program that obeys a protocol issues each call of its trace in a state that allows it. -/
theorem Returns.allows {σ : Type} {P : Protocol C R σ} {Q : σ → α → Prop} {s s' : σ}
    {p : Prog C R α} {pre post : List (Σ c, R c)} {c : C} {r : R c} {a : α}
    (h : Returns p (pre ++ ⟨c, r⟩ :: post) a) (hruns : P.Runs s pre s') (hp : p.Obeys P Q s) :
    P.allow s' c := by
  induction hruns generalizing p with
  | nil =>
    cases h
    exact hp.1
  | cons hnext _ ih =>
    cases h with
    | call h => exact ih h (hp.2 _ _ hnext)

/-- What the answered calls of a trace keep, if each of them was allowed. -/
theorem Returns.keeps {σ : Type} {P : Protocol C R σ} {Q : σ → α → Prop} {J : σ → Prop} {s s' : σ}
    {p : Prog C R α} {pre post : List (Σ c, R c)} {a : α} (h : Returns p (pre ++ post) a)
    (hruns : P.Runs s pre s') (hp : p.Obeys P Q s) (hs : J s)
    (hstep : ∀ s c r s', ⟨c, r⟩ ∈ pre → P.allow s c → P.next s c r s' → J s → J s') : J s' := by
  induction hruns generalizing p with
  | nil => exact hs
  | cons hnext _ ih =>
    cases h with
    | call h =>
      refine ih h (hp.2 _ _ hnext) (hstep _ _ _ _ mem_cons_self hp.1 hnext hs) ?_
      exact fun s c r s' hmem => hstep s c r s' (mem_cons_of_mem _ hmem)

/-- A protocol that says what follows each answer has a run on every trace. -/
theorem Protocol.runs_foldl {σ : Type} {P : Protocol C R σ} {step : σ → (c : C) → R c → σ}
    (hstep : ∀ s c r, P.next s c r (step s c r)) (tr : List (Σ c, R c)) (s : σ) :
    P.Runs s tr (tr.foldl (fun s e => step s e.1 e.2) s) := by
  induction tr generalizing s with
  | nil => exact .nil s
  | cons e tr ih => exact .cons (hstep s e.1 e.2) (ih _)

end Program
