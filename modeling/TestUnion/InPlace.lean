import Mathlib.Dynamics.PeriodicPts.Lemmas
import Mathlib.Logic.Equiv.Basic
import Mathlib.Tactic.Common

/-!
# Assignments in place

An assignment `x[t] = op x[t] v` whose value `v` is computed from the other cells of `x`.

* `Assign ι α`      a target and a value that does not depend on it;
* `Assign.run`, `runAll`   one assignment, and a list of them, one after the other;
* `runAll_bijective`   if `op` with the same value twice gives the cell back, no state is lost;
* `purely_periodic` the iterates of an injective map on a finite type come back to each of them.
-/

namespace InPlace

open Function

variable {ι α : Type*} [DecidableEq ι]

structure Assign (ι α : Type*) [DecidableEq ι] where
  target : ι
  value : (ι → α) → α
  frame : ∀ x v, value (update x target v) = value x

section
variable (op : α → α → α)

def Assign.run (a : Assign ι α) (x : ι → α) : ι → α :=
  update x a.target (op (x a.target) (a.value x))

def runAll (as : List (Assign ι α)) (x : ι → α) : ι → α := as.foldl (fun x a => a.run op x) x

variable {op} (hop : ∀ x y, op (op x y) y = x)
include hop

/-- The value is the same after the assignment, so that it is undone by being made again. -/
theorem Assign.run_involutive (a : Assign ι α) : Involutive (a.run op) := by
  intro x
  have hvalue : a.value (a.run op x) = a.value x := a.frame x _
  have htarget : a.run op x a.target = op (x a.target) (a.value x) := update_self ..
  show update (a.run op x) a.target (op (a.run op x a.target) (a.value (a.run op x))) = x
  rw [hvalue, htarget, hop]
  show update (update x a.target _) a.target _ = x
  rw [update_idem, update_eq_self]

theorem runAll_bijective (as : List (Assign ι α)) : Bijective (runAll op as) := by
  induction as with
  | nil => exact bijective_id
  | cons a as ih => exact ih.comp (a.run_involutive hop).bijective

end

theorem purely_periodic {σ : Type*} [Finite σ] {f : σ → σ} (hf : Injective f) (s : σ) :
    ∃ p > 0, ∀ k, f^[k + p] s = f^[k] s := by
  obtain ⟨p, hpos, hp⟩ := mem_periodicPts.mp (hf.mem_periodicPts s)
  refine ⟨p, hpos, fun k => ?_⟩
  rw [iterate_add_apply]
  exact congrArg f^[k] hp

end InPlace
