import Mathlib.Algebra.BigOperators.Group.Finset.Basic
import Mathlib.Algebra.BigOperators.Group.Finset.Piecewise
import Mathlib.Algebra.Group.Basic
import Mathlib.Algebra.Order.BigOperators.Group.Finset
import Mathlib.Algebra.Order.Group.Int

/-!
# Amounts held by the processes of a pool

Each process holds an amount, and all but finitely many hold nothing. What they hold together
changes with the amount of the one process that takes a step.

## Main definitions

* `Program.SumsTo`.

## Main results

* `Program.SumsTo.update` — the sum after one process has changed its amount.
* `Program.SumsTo.eq_zero` — nothing is held together if nobody holds anything.
* `Program.exists_update`, `Program.forall_update` — what some process or every process satisfies
  after a step of one process.
-/

namespace Program

open Function

variable {ι σ M : Type} [AddCancelCommMonoid M]
variable {f : ι → M}

/-- The amounts `f` add up to `n`, and all but finitely many are zero. -/
def SumsTo (f : ι → M) (n : M) : Prop :=
  ∃ F : Finset ι, (∀ i, i ∉ F → f i = 0) ∧ ∑ i ∈ F, f i = n

theorem sumsTo_zero (h : ∀ i, f i = 0) : SumsTo f 0 :=
  ⟨∅, fun i _ => h i, Finset.sum_empty⟩

theorem SumsTo.eq_zero {n : M} (h : SumsTo f n) (hf : ∀ i, f i = 0) : n = 0 := by
  obtain ⟨F, -, rfl⟩ := h
  exact Finset.sum_eq_zero fun i _ => hf i

theorem SumsTo.nonneg {f : ι → ℤ} {n : ℤ} (h : SumsTo f n) (hf : ∀ i, 0 ≤ f i) : 0 ≤ n := by
  obtain ⟨F, -, rfl⟩ := h
  exact Finset.sum_nonneg fun i _ => hf i

variable [DecidableEq ι]

theorem sum_insert_of_zero {F : Finset ι} (h : ∀ i, i ∉ F → f i = 0) (i : ι) :
    ∑ j ∈ insert i F, f j = ∑ j ∈ F, f j := by
  by_cases hi : i ∈ F
  · rw [Finset.insert_eq_self.mpr hi]
  · rw [Finset.sum_insert hi, h i hi, zero_add]

/-- The process `i` moves from the state `g i` to `s`, and the amount it holds is `f` of its
state. -/
theorem SumsTo.update {g : ι → σ} {f : σ → M} {n m : M} (h : SumsTo (fun j => f (g j)) n) (i : ι)
    (s : σ) (hm : m + f (g i) = n + f s) : SumsTo (fun j => f (Function.update g i s j)) m := by
  obtain ⟨F, hF, hsum⟩ := h
  have hupdate : (fun j => f (Function.update g i s j)) =
      Function.update (fun j => f (g j)) i (f s) := by
    funext j
    exact Function.apply_update (fun _ => f) g i s j
  rw [hupdate]
  refine ⟨insert i F, fun j hj => ?_, ?_⟩
  · rw [Finset.mem_insert, not_or] at hj
    rw [Function.update_of_ne hj.1]
    exact hF j hj.2
  have hmem := Finset.mem_insert_self i F
  rw [Finset.sum_update_of_mem hmem]
  have hsplit := Finset.sum_eq_add_sum_sdiff_singleton_of_mem hmem (fun j => f (g j))
  rw [sum_insert_of_zero hF, hsum] at hsplit
  rw [hsplit] at hm
  refine add_right_cancel (b := f (g i)) ?_
  rw [hm, add_comm (f s), add_assoc, add_comm (f (g i)), add_right_comm, add_assoc]

section Update

variable {g : ι → σ} {s : σ} {P : σ → Prop} {i : ι}

/-- What some process satisfies survives a step of the process `i` that keeps it. -/
theorem exists_update (h : ∃ j, P (g j)) (hs : P (g i) → P s) : ∃ j, P (update g i s j) := by
  obtain ⟨j, hj⟩ := h
  refine ⟨j, ?_⟩
  by_cases hji : j = i
  · subst hji
    rw [update_self]
    exact hs hj
  · rwa [update_of_ne hji]

theorem exists_update_self (h : P s) : ∃ j, P (update g i s j) :=
  ⟨i, by rwa [update_self]⟩

theorem forall_update (h : ∀ j, P (g j)) (hs : P s) (j : ι) : P (update g i s j) := by
  by_cases hji : j = i
  · subst hji
    rwa [update_self]
  · rw [update_of_ne hji]
    exact h j

end Update

end Program
