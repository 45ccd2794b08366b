import TestUnion.Compilebench.Trees
import TestUnion.OverrideOrder
import Mathlib.Data.Char
import Mathlib.Data.List.Lex

/-!
# compilebench: the order of the paths

* `DirIn x y`       the directory of `x` is a part of `y`, as a text;
* `pathcomp_eq`     `pathcomp` is the order of the strings, overridden by this;
* `pathcomp_order_iff`  when it is an order;
* `not_order_siblings`  it never is one for two files of one directory.
-/

namespace Compilebench

open PosixPath OverrideOrder

def DirIn (x y : Str) : Prop := dirname x <:+: y

instance : DecidableRel DirIn := fun x y => by
  unfold DirIn
  infer_instance

section
variable {K : Set Str} {x y : Str}

theorem pathcomp_eq : pathcomp = overrideCmp DirIn := by
  funext x y
  unfold pathcomp overrideCmp DirIn cmp
  dsimp only
  congr

/-- `pathcomp` is an order on the paths of `K`. -/
theorem pathcomp_order_iff (K : Set Str) : IsOrderOn pathcomp K ↔ Acyclic DirIn K := by
  rw [pathcomp_eq, isOrderOn_iff]

theorem dirIn_self : DirIn x x := by
  have hprefix := dirname_prefix x
  exact hprefix.isInfix

theorem not_order_siblings (hx : x ∈ K) (hy : y ∈ K) (hne : x ≠ y) (hdir : dirname x = dirname y) :
    ¬ IsOrderOn pathcomp K := by
  intro h
  have hxy : DirIn x y := by
    unfold DirIn
    rw [hdir]
    exact dirIn_self
  have hyx : DirIn y x := by
    unfold DirIn
    rw [← hdir]
    exact dirIn_self
  rw [pathcomp_eq, isOrderOn_iff] at h
  exact h.one_way x hx y hy hne hxy hyx

/-- Each of two files at the top comes before the other one. -/
theorem not_order : ¬ IsOrderOn pathcomp Set.univ :=
  not_order_siblings (x := "a".toList) (y := "b".toList) trivial trivial (by decide) (by decide)

end

end Compilebench
