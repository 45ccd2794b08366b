import Mathlib.Data.Finset.Card
import Mathlib.Data.Set.Finite.Basic
import Mathlib.Order.Nat

/-!
# The lowest free number

A table gives out the lowest number that is not in use, like the descriptors of a process.

* `lowest used`     that number;
* `card_insert_lowest`, `erase_insert_lowest`   taking it, and giving it back at once;
* `lowest_le_card`  it is not above the count of the numbers in use.
-/

namespace LowestFree

def lowest (used : Finset ℕ) : ℕ := Nat.find (Infinite.exists_notMem_finset used)

variable (used : Finset ℕ)

theorem lowest_notMem : lowest used ∉ used := Nat.find_spec (Infinite.exists_notMem_finset used)

@[simp] theorem card_insert_lowest : (insert (lowest used) used).card = used.card + 1 :=
  Finset.card_insert_of_notMem (lowest_notMem used)

@[simp] theorem erase_insert_lowest : (insert (lowest used) used).erase (lowest used) = used :=
  Finset.erase_insert (lowest_notMem used)

theorem lowest_le_card : lowest used ≤ used.card := by
  have hbelow : Finset.range (lowest used) ⊆ used := by
    intro k hk
    exact not_not.mp (Nat.find_min (Infinite.exists_notMem_finset used) (Finset.mem_range.mp hk))
  have hcard := Finset.card_le_card hbelow
  rwa [Finset.card_range] at hcard

end LowestFree
