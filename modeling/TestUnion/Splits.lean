import Mathlib.Data.List.Basic
import Mathlib.Tactic.Common

/-!
# The places of a list

A loop over `pre ++ a :: post` comes to `a` when it has done `pre`.

* `forall_splits_nil`, `forall_splits_cons`   what holds at every place, member after member.
-/

namespace Splits

variable {α : Type*} {P : List α → α → List α → Prop} {a : α} {l : List α}

theorem forall_splits_nil : ∀ pre b post, [] = pre ++ b :: post → P pre b post := by
  intro pre b post h
  exact absurd h.symm (List.append_ne_nil_of_right_ne_nil pre (List.cons_ne_nil b post))

@[simp] theorem forall_splits_cons : (∀ pre b post, a :: l = pre ++ b :: post → P pre b post) ↔
    P [] a l ∧ ∀ pre b post, l = pre ++ b :: post → P (a :: pre) b post := by
  refine ⟨?_, ?_⟩
  · intro h
    refine ⟨h [] a l rfl, fun pre b post heq => h (a :: pre) b post ?_⟩
    rw [heq]
    rfl
  · rintro ⟨hfirst, hrest⟩ pre b post heq
    cases pre with
    | nil =>
      obtain ⟨rfl, rfl⟩ := List.cons.inj heq
      exact hfirst
    | cons c pre =>
      obtain ⟨rfl, htail⟩ := List.cons.inj heq
      exact hrest pre b post htail

end Splits
