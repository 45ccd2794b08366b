import Mathlib.Data.Set.Basic
import Mathlib.Order.Defs.LinearOrder
import Mathlib.Tactic.Common

/-!
# A linear order that a relation overrides

* `overrideCmp D`   the comparison in which `D x y` puts `x` first, whatever the order says;
* `IsOrderOn f K`   opposite signs, and transitivity, on the set `K`;
* `Acyclic D K`     `D` puts no two members of `K` in front of each other, and with the order it makes
                    no cycle of three;
* `isOrderOn_iff`   this is what it takes for `overrideCmp D` to be an order on `K`.
-/

namespace OverrideOrder

variable {α : Type*}

structure IsOrderOn (f : α → α → ℤ) (K : Set α) : Prop where
  opposite : ∀ x ∈ K, ∀ y ∈ K, x ≠ y → f x y < 0 ∧ 0 < f y x ∨ 0 < f x y ∧ f y x < 0
  trans : ∀ x ∈ K, ∀ y ∈ K, ∀ z ∈ K, x ≠ y → y ≠ z → z ≠ x → f x y < 0 → f y z < 0 → f x z < 0

variable [LinearOrder α]

section
variable (D : α → α → Prop)

def overrideCmp [DecidableRel D] (x y : α) : ℤ :=
  if D x y then -1 else if D y x then 1 else if x < y then -1 else if x = y then 0 else 1

/-- `x` is first because of the order -/
def Less (x y : α) : Prop := ¬ D x y ∧ ¬ D y x ∧ x < y

structure Acyclic (K : Set α) : Prop where
  one_way : ∀ x ∈ K, ∀ y ∈ K, x ≠ y → D x y → ¬ D y x
  three : ∀ x ∈ K, ∀ y ∈ K, ∀ z ∈ K, x ≠ y → y ≠ z → z ≠ x → D x y → D y z → ¬ D z x
  two : ∀ x ∈ K, ∀ y ∈ K, ∀ z ∈ K, x ≠ y → y ≠ z → z ≠ x → D x y → D y z → ¬ Less D z x
  one : ∀ x ∈ K, ∀ y ∈ K, ∀ z ∈ K, x ≠ y → y ≠ z → z ≠ x → D x y → Less D y z → ¬ Less D z x

end

section
variable {D : α → α → Prop} {K : Set α} {x y z : α}

theorem less_total (hne : x ≠ y) (hxy : ¬ D x y) (hyx : ¬ D y x) : Less D x y ∨ Less D y x := by
  rcases lt_or_gt_of_ne hne with hlt | hgt
  · exact .inl ⟨hxy, hyx, hlt⟩
  · exact .inr ⟨hyx, hxy, hgt⟩

/-- Every cycle of three begins, at one of its members, in one of the ways that are excluded. -/
theorem Acyclic.no_cycle (h : Acyclic D K) (hx : x ∈ K) (hy : y ∈ K) (hz : z ∈ K) (hxy : x ≠ y)
    (hyz : y ≠ z) (hzx : z ≠ x) (h1 : D x y ∨ Less D x y) (h2 : D y z ∨ Less D y z)
    (h3 : D z x ∨ Less D z x) : False := by
  rcases h1 with d1 | l1
  · rcases h2 with d2 | l2
    · rcases h3 with d3 | l3
      · exact h.three x hx y hy z hz hxy hyz hzx d1 d2 d3
      · exact h.two x hx y hy z hz hxy hyz hzx d1 d2 l3
    · rcases h3 with d3 | l3
      · exact h.two z hz x hx y hy hzx hxy hyz d3 d1 l2
      · exact h.one x hx y hy z hz hxy hyz hzx d1 l2 l3
  · rcases h2 with d2 | l2
    · rcases h3 with d3 | l3
      · exact h.two y hy z hz x hx hyz hzx hxy d2 d3 l1
      · exact h.one y hy z hz x hx hyz hzx hxy d2 l3 l1
    · rcases h3 with d3 | l3
      · exact h.one z hz x hx y hy hzx hxy hyz d3 l1 l2
      · exact lt_asymm (lt_trans l1.2.2 l2.2.2) l3.2.2

variable [DecidableRel D]

theorem overrideCmp_neg : overrideCmp D x y < 0 ↔ D x y ∨ Less D x y := by
  unfold overrideCmp Less
  split
  · next h => exact iff_of_true (by decide) (.inl h)
  · next h =>
    rw [or_iff_right h, and_iff_right h]
    split
    · next h' => exact iff_of_false (by decide) fun hl => hl.1 h'
    · next h' =>
      rw [and_iff_right h']
      split
      · next hlt => exact iff_of_true (by decide) hlt
      · next hlt =>
        refine iff_of_false ?_ hlt
        split
        · decide
        · decide

theorem overrideCmp_pos (hne : x ≠ y) :
    0 < overrideCmp D x y ↔ ¬ D x y ∧ (D y x ∨ Less D y x) := by
  unfold overrideCmp Less
  split
  · next h => exact iff_of_false (by decide) fun hp => hp.1 h
  · next h =>
    rw [and_iff_right h]
    split
    · next h' => exact iff_of_true (by decide) (.inl h')
    · next h' =>
      rw [or_iff_right h', and_iff_right h', and_iff_right h]
      split
      · next hlt => exact iff_of_false (by decide) (lt_asymm hlt)
      · next hlt =>
        exact iff_of_true (by decide) (lt_of_le_of_ne (not_lt.mp hlt) hne.symm)

/-- Two members have opposite signs unless each of them is put in front of the other one. -/
theorem opposite_iff (hne : x ≠ y) :
    (overrideCmp D x y < 0 ∧ 0 < overrideCmp D y x ∨ 0 < overrideCmp D x y ∧ overrideCmp D y x < 0) ↔
      (D x y → ¬ D y x) := by
  rw [overrideCmp_neg, overrideCmp_neg, overrideCmp_pos hne, overrideCmp_pos hne.symm]
  constructor
  · rintro (⟨-, hyx, -⟩ | ⟨⟨hxy, -⟩, -⟩)
    · exact fun _ => hyx
    · exact fun h => absurd h hxy
  · intro hone
    by_cases hxy : D x y
    · exact .inl ⟨.inl hxy, hone hxy, .inl hxy⟩
    · by_cases hyx : D y x
      · exact .inr ⟨⟨hxy, .inl hyx⟩, .inl hyx⟩
      · rcases less_total hne hxy hyx with hl | hl
        · exact .inl ⟨.inr hl, hyx, .inr hl⟩
        · exact .inr ⟨⟨hxy, .inr hl⟩, .inr hl⟩

theorem IsOrderOn.no_cycle (h : IsOrderOn (overrideCmp D) K) (hx : x ∈ K) (hy : y ∈ K) (hz : z ∈ K)
    (hxy : x ≠ y) (hyz : y ≠ z) (hzx : z ≠ x) (h1 : D x y ∨ Less D x y) (h2 : D y z ∨ Less D y z) :
    ¬ (D z x ∨ Less D z x) := by
  intro h3
  have hneg := h.trans x hx y hy z hz hxy hyz hzx (overrideCmp_neg.mpr h1) (overrideCmp_neg.mpr h2)
  have hneg' := overrideCmp_neg.mpr h3
  rcases h.opposite x hx z hz hzx.symm with ⟨-, hpos⟩ | ⟨hpos, -⟩
  · omega
  · omega

theorem isOrderOn_iff : IsOrderOn (overrideCmp D) K ↔ Acyclic D K := by
  constructor
  · intro h
    refine ⟨fun x hx y hy hne => (opposite_iff hne).mp (h.opposite x hx y hy hne), ?_, ?_, ?_⟩
    · exact fun x hx y hy z hz hxy hyz hzx d1 d2 d3 =>
        h.no_cycle hx hy hz hxy hyz hzx (.inl d1) (.inl d2) (.inl d3)
    · exact fun x hx y hy z hz hxy hyz hzx d1 d2 l3 =>
        h.no_cycle hx hy hz hxy hyz hzx (.inl d1) (.inl d2) (.inr l3)
    · exact fun x hx y hy z hz hxy hyz hzx d1 l2 l3 =>
        h.no_cycle hx hy hz hxy hyz hzx (.inl d1) (.inr l2) (.inr l3)
  · intro h
    refine ⟨fun x hx y hy hne => (opposite_iff hne).mpr (h.one_way x hx y hy hne), ?_⟩
    intro x hx y hy z hz hxy hyz hzx h1 h2
    rw [overrideCmp_neg] at h1 h2 ⊢
    by_contra hnot
    have hxz : ¬ D x z := fun hd => hnot (.inl hd)
    refine h.no_cycle hx hy hz hxy hyz hzx h1 h2 ?_
    by_cases hd : D z x
    · exact .inl hd
    · rcases less_total hzx hd hxz with hl | hl
      · exact .inr hl
      · exact absurd (.inr hl) hnot

end

end OverrideOrder
