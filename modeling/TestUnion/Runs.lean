import Mathlib.Data.List.Perm.Subperm
import Mathlib.Data.Nat.Find
import Mathlib.Tactic.Common

/-!
# Maximal runs of a sequence

* `MaxRun f a b`   `f` is constant on `[a, b)` and changes at both ends;
* `MaxRun.le_of_lt`, `MaxRun.eq_of_mem`   two maximal runs do not overlap;
* `exists_maxRun`  every index lies in a maximal run, if the sequence changes later;
* `length_le_of_ascending`   at most `n` members fit into an interval of length `n`.
-/

namespace Runs

variable {α β : Type*} {f : ℕ → α} {a b c d i : ℕ}

structure MaxRun (f : ℕ → α) (a b : ℕ) : Prop where
  lt : a < b
  same : ∀ i, a ≤ i → i < b → f i = f a
  left : ∀ i, i + 1 = a → f i ≠ f a
  right : f b ≠ f a

theorem MaxRun.le_of_lt (h : MaxRun f a b) (h' : MaxRun f c d) (hac : a < c) : b ≤ c := by
  by_contra hlt
  obtain ⟨i, rfl⟩ : ∃ i, c = i + 1 := ⟨c - 1, by omega⟩
  have h1 := h.same i (by omega) (by omega)
  have h2 := h.same (i + 1) (by omega) (by omega)
  exact h'.left i rfl (h1.trans h2.symm)

theorem MaxRun.eq_of_mem (h : MaxRun f a b) (h' : MaxRun f c d) (hi : a ≤ i) (hi' : i < b)
    (hj : c ≤ i) (hj' : i < d) : a = c ∧ b = d := by
  have hac : a = c := by
    rcases Nat.lt_trichotomy a c with hlt | heq | hlt
    · have := h.le_of_lt h' hlt
      omega
    · exact heq
    · have := h'.le_of_lt h hlt
      omega
  subst hac
  refine ⟨rfl, ?_⟩
  rcases Nat.lt_trichotomy b d with hlt | heq | hlt
  · exact absurd (h'.same b (by omega) hlt) h.right
  · exact heq
  · exact absurd (h.same d (by omega) hlt) h'.right

/-- the first index from which on `f` keeps the value it has at `i` -/
theorem exists_left (f : ℕ → α) (i : ℕ) :
    ∃ a ≤ i, (∀ j, a ≤ j → j ≤ i → f j = f a) ∧ ∀ j, j + 1 = a → f j ≠ f a := by
  induction i with
  | zero =>
    refine ⟨0, Nat.le_refl 0, ?_, by omega⟩
    intro j _ hj
    rw [Nat.le_zero.mp hj]
  | succ i ih =>
    by_cases h : f i = f (i + 1)
    · obtain ⟨a, hle, hsame, hleft⟩ := ih
      refine ⟨a, by omega, ?_, hleft⟩
      intro j hj hj'
      rcases Nat.lt_or_ge i j with hlt | hge
      · rw [show j = i + 1 by omega, ← h]
        exact hsame i hle (Nat.le_refl i)
      · exact hsame j hj hge
    · refine ⟨i + 1, Nat.le_refl _, ?_, ?_⟩
      · intro j hj hj'
        rw [Nat.le_antisymm hj' hj]
      · intro j hj
        rw [Nat.succ.inj hj]
        exact h

theorem exists_maxRun (f : ℕ → α) (i : ℕ) (h : ∃ j, i ≤ j ∧ f j ≠ f i) :
    ∃ a b, MaxRun f a b ∧ a ≤ i ∧ i < b := by
  classical
  obtain ⟨a, hai, hsame, hleft⟩ := exists_left f i
  have hfi : f i = f a := hsame i hai (Nat.le_refl i)
  have hb := Nat.find_spec h
  have hib : i < Nat.find h := by
    apply Nat.lt_of_le_of_ne hb.1
    intro heq
    rw [← heq] at hb
    exact hb.2 rfl
  refine ⟨a, Nat.find h, ⟨by omega, ?_, hleft, ?_⟩, hai, hib⟩
  · intro j hj hjb
    rcases Nat.lt_or_ge i j with hlt | hge
    · have hmin := Nat.find_min h hjb
      by_contra hne
      exact hmin ⟨Nat.le_of_lt hlt, hfi ▸ hne⟩
    · exact hsame j hj hge
  · rw [← hfi]
    exact hb.2

theorem length_le_of_ascending (l : List β) (g : β → ℕ) {s n : ℕ}
    (hasc : l.Pairwise fun x y => g x < g y) (hmem : ∀ x ∈ l, s ≤ g x ∧ g x < s + n) :
    l.length ≤ n := by
  have hnodup : (l.map g).Nodup :=
    List.pairwise_map.mpr (hasc.imp fun h => Nat.ne_of_lt h)
  have hsub : l.map g ⊆ List.range' s n := by
    intro y hy
    obtain ⟨x, hx, rfl⟩ := List.mem_map.mp hy
    exact List.mem_range'_1.mpr (hmem x hx)
  have hle := (List.subperm_of_subset hnodup hsub).length_le
  rw [List.length_map, List.length_range'] at hle
  exact hle

end Runs
