import Walrusd.Program.Basic

/-!
# Programs whose calls are programs

A program over one signature becomes a program over another when each of its calls is carried out
by a program of the other signature. The handler may keep a state of its own.

## Main definitions

* `Program.Prog.handle` — replace every call by a program.

## Main results

* `Program.Prog.only_handle` — the calls of the result are those of the handler.
* `Program.Prog.Obeys.handle` — a program that obeys a protocol is turned into one that obeys
  another, if the handler of each allowed call does.
-/

namespace Program

variable {C C' : Type} {R : C → Type} {R' : C' → Type} {α τ : Type}

namespace Prog

/-- Carry out the calls of a program by programs of another signature; `t` is the state of the
handler. -/
def handle (h : τ → (c : C) → Prog C' R' (R c × τ)) : Prog C R α → τ → Prog C' R' (α × τ)
  | done a, t => done (a, t)
  | call c k, t => h t c >>= fun r => (k r.1).handle h r.2

variable {σ σ' : Type} {P : Protocol C R σ} {P' : Protocol C' R' σ'}

/-- `Rel` relates the states of the protocol, the handler and the protocol of the result. -/
theorem Obeys.handle {h : τ → (c : C) → Prog C' R' (R c × τ)} {Rel : σ → τ → σ' → Prop}
    (hh : ∀ s t s' c, Rel s t s' → P.allow s c →
      (h t c).Obeys P' (fun u r => ∃ v, P.next s c r.1 v ∧ Rel v r.2 u) s') {Q : σ → α → Prop}
    {p : Prog C R α} {s : σ} {t : τ} {s' : σ'} (hp : p.Obeys P Q s) (hrel : Rel s t s') :
    (p.handle h t).Obeys P' (fun u x => ∃ v, Q v x.1 ∧ Rel v x.2 u) s' := by
  induction p generalizing s t s' with
  | done a => exact ⟨s, hp, hrel⟩
  | call c k ih =>
    refine (hh s t s' c hrel hp.1).bind ?_
    rintro u r ⟨v, hnext, hv⟩
    exact ih r.1 (hp.2 r.1 v hnext) hv

theorem only_handle {h : τ → (c : C) → Prog C' R' (R c × τ)} {G : C' → Prop}
    (hh : ∀ t c, (h t c).Only G) (p : Prog C R α) (t : τ) : (p.handle h t).Only G := by
  induction p generalizing t with
  | done a => trivial
  | call c k ih => exact (hh t c).bind fun r => ih r.1 r.2

end Prog

end Program
