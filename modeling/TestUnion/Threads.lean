import Mathlib.Algebra.BigOperators.Group.Finset.Basic
import Mathlib.Algebra.Order.BigOperators.Group.Finset
import Mathlib.Data.Fintype.Card
import Mathlib.Logic.Function.Basic
import Mathlib.Tactic.Common

/-!
# Families of threads: mutexes, counts and ranks

General facts about a family of program counters `w : ι → π`, one of which is replaced.

* `Owns o holds`    the mutex whose owner is `o` is held by exactly the threads `holds` says;
                    `Owns.lock`, `Owns.unlock` and `Owns.stay` are its three moves;
* `count f w`       how many threads have a program counter with `f`;
* `total r w`       the sum of the ranks of all program counters.
-/

set_option linter.unusedSectionVars false

namespace Threads

/-! ## a mutex -/

section
variable {τ : Type*} {o : Option τ} {holds holds' : τ → Bool}

/-- a mutex with owner `o`: the owner is the only thread that holds it -/
def Owns (o : Option τ) (holds : τ → Bool) : Prop := ∀ t, o = some t ↔ holds t = true

theorem Owns.free (h : Owns o holds) (ho : o = none) (t : τ) : holds t = false := by
  cases hb : holds t with
  | false => rfl
  | true =>
    have := (h t).mpr hb
    rw [ho] at this
    cases this

theorem Owns.unique (h : Owns o holds) {t u : τ} (ht : holds t = true) (hu : holds u = true) :
    t = u := by
  have h1 := (h t).mpr ht
  rw [(h u).mpr hu] at h1
  exact (Option.some.inj h1).symm

theorem Owns.stay (h : Owns o holds) (hall : ∀ t, holds' t = holds t) : Owns o holds' := by
  intro t
  rw [hall t]
  exact h t

theorem Owns.lock (h : Owns o holds) (ho : o = none) (t : τ) (ht : holds' t = true)
    (hne : ∀ u, u ≠ t → holds' u = holds u) : Owns (some t) holds' := by
  intro u
  refine ⟨?_, ?_⟩
  · intro e
    rw [← Option.some.inj e]
    exact ht
  · intro hu
    by_cases e : u = t
    · rw [e]
    · rw [hne u e, h.free ho u] at hu
      cases hu

theorem Owns.unlock (h : Owns o holds) {t : τ} (ht : holds t = true) (ht' : holds' t = false)
    (hne : ∀ u, u ≠ t → holds' u = holds u) : Owns none holds' := by
  intro u
  refine ⟨?_, ?_⟩
  · intro e
    cases e
  · intro hu
    by_cases e : u = t
    · rw [e, ht'] at hu
      cases hu
    · rw [hne u e] at hu
      exact absurd (h.unique hu ht) e

end

/-! ## counting program counters -/

section
variable {ι π : Type*} [Fintype ι] [DecidableEq ι]

def count (f : π → Bool) (w : ι → π) : ℕ := (Finset.univ.filter fun i => f (w i) = true).card

theorem count_le (f : π → Bool) (w : ι → π) : count f w ≤ Fintype.card ι := by
  unfold count
  exact Finset.card_le_univ _

theorem count_congr {f : π → Bool} {w w' : ι → π} (h : ∀ i, f (w' i) = f (w i)) :
    count f w' = count f w := by
  unfold count
  simp only [h]

theorem count_update_of_eq {f : π → Bool} {w : ι → π} {i : ι} {pc : π} (h : f pc = f (w i)) :
    count f (Function.update w i pc) = count f w := by
  apply count_congr
  intro j
  by_cases hj : j = i
  · subst hj
    rw [Function.update_self, h]
  · rw [Function.update_of_ne hj]

theorem count_update_succ {f : π → Bool} {w : ι → π} {i : ι} {pc : π} (h : f (w i) = false)
    (h' : f pc = true) : count f (Function.update w i pc) = count f w + 1 := by
  have hset : (Finset.univ.filter fun j => f (Function.update w i pc j) = true)
      = insert i (Finset.univ.filter fun j => f (w j) = true) := by
    ext j
    by_cases hj : j = i
    · subst hj
      simp [h']
    · simp [hj]
  unfold count
  rw [hset, Finset.card_insert_of_notMem (by simp [h])]

theorem all_of_count_eq {f : π → Bool} {w : ι → π} (h : count f w = Fintype.card ι) (i : ι) :
    f (w i) = true := by
  have hu := Finset.eq_univ_of_card _ h
  have hi : i ∈ Finset.univ.filter fun i => f (w i) = true := by
    rw [hu]
    exact Finset.mem_univ i
  exact (Finset.mem_filter.mp hi).2

theorem count_eq_of_all {f : π → Bool} {w : ι → π} (h : ∀ i, f (w i) = true) :
    count f w = Fintype.card ι := by
  unfold count
  rw [Finset.filter_true_of_mem (fun i _ => h i), Finset.card_univ]

/-! ## ranks -/

def total (r : π → ℕ) (w : ι → π) : ℕ := ∑ i, r (w i)

theorem total_le {r r' : π → ℕ} {w w' : ι → π} (h : ∀ i, r' (w' i) ≤ r (w i)) :
    total r' w' ≤ total r w :=
  Finset.sum_le_sum fun i _ => h i

theorem total_update_lt {r : π → ℕ} {w : ι → π} {i : ι} {pc : π} (h : r pc < r (w i)) :
    total r (Function.update w i pc) < total r w := by
  apply Finset.sum_lt_sum
  · intro j _
    by_cases hj : j = i
    · subst hj
      rw [Function.update_self]
      exact Nat.le_of_lt h
    · rw [Function.update_of_ne hj]
  · exact ⟨i, Finset.mem_univ i, by rw [Function.update_self]; exact h⟩

end

end Threads
