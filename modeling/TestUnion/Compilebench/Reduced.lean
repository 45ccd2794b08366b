import TestUnion.Compilebench.OpsSpec

/-!
# compilebench: what the reduced datasets lose

* `Datasets`, `strip`   four dicts with any names, and the four deletion loops of
                    `dataset.__init__` one after the other;
* `strip_quadruple` these are the reduced datasets of a `Quadruple`;
* `reconstruct`     the full datasets can be read off the reduced ones.
-/

namespace Compilebench

open PosixPath

structure Datasets where
  unpatched : Dataset
  patched : Dataset
  unpatchedCompiled : Dataset
  compiled : Dataset

/-- `keys` is the order in which a dict is iterated over. -/
def strip (env : Env) (d : Datasets) : Datasets :=
  let d := { d with
    unpatchedCompiled := stripNamed (env.keys d.unpatched) d.unpatchedCompiled }
  let d := { d with compiled := stripNamed (env.keys d.patched) d.compiled }
  let d := { d with patched := stripSame (env.keys d.unpatched) d.unpatched d.patched }
  { d with
    compiled := stripSame (env.keys d.unpatchedCompiled) d.unpatchedCompiled d.compiled }

def Quadruple.datasets (q : Quadruple) : Datasets :=
  ⟨q.unpatched, q.patched, q.unpatchedCompiled, q.compiled⟩

theorem strip_quadruple (env : Env) (q : Quadruple) :
    strip env q.datasets = ⟨q.unpatched, reducedPatched env q, reducedUnpatchedCompiled env q,
      reducedCompiled env q⟩ := rfl

section
variable {env : Env} {d e : Dataset} {x : Str}

theorem lookup_stripNamed_keys :
    (stripNamed (env.keys e) d).lookup x = if x ∈ e then none else d.lookup x := by
  rw [lookup_stripNamed]
  exact if_congr (env.mem_keys e x) rfl rfl

theorem lookup_stripSame_keys :
    (stripSame (env.keys e) e d).lookup x
      = if x ∈ e ∧ d.lookup x = e.lookup x then none else d.lookup x := by
  rw [lookup_stripSame]
  exact if_congr (and_congr_left fun _ => env.mem_keys e x) rfl rfl

/-- What was stripped has the size that the reference has. -/
theorem stripSame_reconstruct {sz : Size} (h : d.lookup x = some sz) :
    if x ∈ stripSame (env.keys e) e d then (stripSame (env.keys e) e d).lookup x = some sz
    else e.lookup x = some sz := by
  split
  · next hmem =>
    rw [lookup_stripSame_keys]
    split
    · next hc =>
      rw [← Finmap.lookup_isSome, lookup_stripSame_keys, if_pos hc] at hmem
      cases hmem
    · exact h
  · next hmem =>
    have hnone := Finmap.lookup_eq_none.mpr hmem
    rw [lookup_stripSame_keys] at hnone
    split at hnone
    · next hc => rw [← hc.2, h]
    · rw [h] at hnone
      cases hnone

/-- What is left differs from the reference. -/
theorem stripSame_ne {sz : Size} (h : (stripSame (env.keys e) e d).lookup x = some sz) :
    e.lookup x ≠ some sz := by
  rw [lookup_stripSame_keys] at h
  split at h
  · cases h
  · next hc =>
    intro he
    exact hc ⟨Finmap.mem_of_lookup_eq_some he, h.trans he.symm⟩

end

/-- **The reduced datasets reconstruct the full ones.** -/
theorem reconstruct (env : Env) (d : Datasets) :
    (∀ x sz, d.patched.lookup x = some sz →
      if x ∈ (strip env d).patched then (strip env d).patched.lookup x = some sz
      else d.unpatched.lookup x = some sz) ∧
    (∀ x sz, d.unpatchedCompiled.lookup x = some sz →
      x ∈ d.unpatched ∨ (strip env d).unpatchedCompiled.lookup x = some sz) ∧
    (∀ x sz, d.compiled.lookup x = some sz → x ∉ d.patched →
      if x ∈ (strip env d).compiled then (strip env d).compiled.lookup x = some sz
      else (strip env d).unpatchedCompiled.lookup x = some sz) ∧
    (∀ x sz, (strip env d).patched.lookup x = some sz → d.unpatched.lookup x ≠ some sz) ∧
    (∀ x sz, (strip env d).compiled.lookup x = some sz →
      (strip env d).unpatchedCompiled.lookup x ≠ some sz) ∧
    (strip env d).unpatched = d.unpatched := by
  refine ⟨fun x sz h => stripSame_reconstruct h, ?_, ?_, fun x sz h => stripSame_ne h,
    fun x sz h => stripSame_ne h, rfl⟩
  · intro x sz h
    by_cases hx : x ∈ d.unpatched
    · exact .inl hx
    · right
      show (stripNamed (env.keys d.unpatched) d.unpatchedCompiled).lookup x = some sz
      rw [lookup_stripNamed_keys, if_neg hx]
      exact h
  · intro x sz h hx
    apply stripSame_reconstruct
    show (stripNamed (env.keys d.patched) d.compiled).lookup x = some sz
    rw [lookup_stripNamed_keys, if_neg hx]
    exact h

end Compilebench
