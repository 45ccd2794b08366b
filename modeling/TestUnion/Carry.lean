import Mathlib.Data.List.Chain
import Mathlib.Tactic.Common

/-!
# A value that stays when it is not set

A loop over a list sets a variable in some of its passes and reads it in all of them, like `$1` of
Perl after a match in the body of a loop.

* `carry c zs`      what the passes read;
* `some_mem_carry`  they read no other values than those that are set;
* `sublist_carry`   what is made of the values that are set is made, in this order;
* `filterMap_carry_iff`, `filterMap_carry_none_iff`   nothing else is made exactly when no pass
                    without a value comes directly after one of which something is made.
-/

namespace Carry

variable {α β : Type*}

/-- `none` in the list is a pass that sets nothing, `c` is the value before the loop. -/
def carry : Option α → List (Option α) → List (Option α)
  | _, [] => []
  | c, z :: zs => z.or c :: carry (z.or c) zs

section
variable {c : Option α} {zs : List (Option α)} {f : Option α → Option β} {a : α}

@[simp]
theorem some_mem_carry_or : some a ∈ carry c zs ∨ c = some a ↔ some a ∈ zs ∨ c = some a := by
  induction zs generalizing c with
  | nil => rfl
  | cons z zs ih =>
    cases z with
    | none =>
      show some a ∈ c :: carry c zs ∨ c = some a ↔ some a ∈ none :: zs ∨ c = some a
      have h := ih (c := c)
      simp only [List.mem_cons, reduceCtorEq, false_or, eq_comm (a := some a)]
      tauto
    | some b =>
      show some a ∈ some b :: carry (some b) zs ∨ c = some a ↔ some a ∈ some b :: zs ∨ c = some a
      have h := ih (c := some b)
      simp only [List.mem_cons, eq_comm (a := some a)]
      tauto

@[simp] theorem some_mem_carry : some a ∈ carry none zs ↔ some a ∈ zs := by
  have h : some a ∈ carry none zs ∨ none = some a ↔ _ := some_mem_carry_or
  simpa using h

/-- what is made of the values that are set, `f` makes nothing without a value -/
theorem sublist_carry (hf : f none = none) : (zs.filterMap f).Sublist ((carry c zs).filterMap f) := by
  induction zs generalizing c with
  | nil => exact .slnil
  | cons z zs ih =>
    cases z with
    | none =>
      rw [List.filterMap_cons_none hf]
      exact ih.trans ((List.sublist_cons_self c _).filterMap _)
    | some b =>
      show (([some b] ++ zs).filterMap f).Sublist (([some b] ++ carry (some b) zs).filterMap f)
      rw [List.filterMap_append, List.filterMap_append]
      exact ih.append_left _

theorem filterMap_carry_iff (hf : f none = none) :
    (carry c zs).filterMap f = zs.filterMap f ↔
      (c :: zs).IsChain fun y z => f y ≠ none → z ≠ none := by
  induction zs generalizing c with
  | nil => exact ⟨fun _ => .singleton c, fun _ => rfl⟩
  | cons z zs ih =>
    rw [List.isChain_cons_cons]
    cases z with
    | none =>
      show (c :: carry c zs).filterMap f = _ ↔ _
      rw [List.filterMap_cons_none hf]
      by_cases hc : f c = none
      · -- neither `c` nor a pass without a value restricts what comes after it
        have hfree : ((c :: zs).IsChain fun y z => f y ≠ none → z ≠ none) ↔
            (none :: zs).IsChain fun y z => f y ≠ none → z ≠ none := by
          rw [List.isChain_cons_iff, List.isChain_cons_iff]
          simp [hc, hf]
        rw [List.filterMap_cons_none hc, ih, hfree]
        simp [hc]
      · obtain ⟨b, hb⟩ := Option.ne_none_iff_exists'.mp hc
        have hlen : (zs.filterMap f).length ≤ ((carry c zs).filterMap f).length :=
          (sublist_carry hf).length_le
        refine ⟨fun h => ?_, fun h => absurd rfl (h.1 hc)⟩
        rw [List.filterMap_cons_some hb] at h
        have heq := congrArg List.length h
        rw [List.length_cons] at heq
        omega
    | some b =>
      show ([some b] ++ carry (some b) zs).filterMap f = ([some b] ++ zs).filterMap f ↔ _
      rw [List.filterMap_append, List.filterMap_append, List.append_right_inj, ih]
      exact ⟨fun h => ⟨fun _ => nofun, h⟩, fun h => h.2⟩

/-- the same of a variable that is not set before the loop -/
theorem filterMap_carry_none_iff (hf : f none = none) :
    (carry none zs).filterMap f = zs.filterMap f ↔ zs.IsChain fun y z => f y ≠ none → z ≠ none := by
  rw [filterMap_carry_iff hf, List.isChain_cons_iff]
  refine ⟨fun h => ?_, fun h => ?_⟩
  · rcases h with rfl | ⟨b, l, -, hl, rfl⟩
    · exact .nil
    · exact hl
  · cases zs with
    | nil => exact .inl rfl
    | cons z zs => exact .inr ⟨z, zs, fun hc => absurd hf hc, h, rfl⟩

end

end Carry
