import TestUnion.Lts
import Mathlib.Data.List.Infix
import Mathlib.Data.Set.Basic
import Mathlib.Logic.Function.Basic

/-!
# Workers with footprints

Workers run in turn over one memory, and each of them writes to places of its own.  Nothing here
names a particular program.

* `Shared`          where each worker is, and the memory;
* `Interleave work`   one step of one worker;
* `Footprint own work`   the places of different workers are different, and no worker writes to a
                    place that is not its own;
* `Blind own i J`   the fact `J` says nothing about the places of workers other than `i`;
* `Interleave.keeps`   facts that each worker keeps on its own are kept by every step, also when the
                    footprint depends on these facts;
* `Footprint.inv`   they hold in every run of all the workers;
* `Footprint.outside`   a place that is no worker's is never changed;
* `Alone`, `Alone.reach`   what one worker can do, it can do while the others wait;
* `Apart p q`       neither path leads through the other one;
* `sub m p`, `graft p t m`   what a store has below the path `p`, and the store with a new tree there.
-/

namespace Interleaved

open Lts

/-! ## workers -/

section
variable {ι π loc val : Type*}

structure Shared (ι π loc val : Type*) where
  pc : ι → π
  mem : loc → val

def Interleave (work : ι → π → (loc → val) → π → (loc → val) → Prop)
    (s : Shared ι π loc val) (i : ι) (s' : Shared ι π loc val) : Prop :=
  work i (s.pc i) s.mem (s'.pc i) s'.mem ∧ ∀ j, j ≠ i → s'.pc j = s.pc j

structure Footprint (own : ι → Set loc)
    (work : ι → π → (loc → val) → π → (loc → val) → Prop) : Prop where
  apart : ∀ i j l, i ≠ j → l ∈ own i → l ∉ own j
  frame : ∀ i c m c' m', work i c m c' m' → ∀ l, l ∉ own i → m' l = m l

def Blind (own : ι → Set loc) (i : ι) (J : (loc → val) → Prop) : Prop :=
  ∀ m m', (∀ l, (∀ j, j ≠ i → l ∉ own j) → m' l = m l) → J m → J m'

variable {own : ι → Set loc} {work : ι → π → (loc → val) → π → (loc → val) → Prop}
  {s s' : Shared ι π loc val} {tr : List (Shared ι π loc val × ι × Shared ι π loc val)}

/-- One step keeps what is true of each worker and of its places, if a worker of which it is true
writes to places of its own only. -/
theorem Interleave.keeps {J : ι → π → (loc → val) → Prop} (hblind : ∀ i c, Blind own i (J i c))
    (hframe : ∀ i c m c' m', J i c m → work i c m c' m' → ∀ l, l ∉ own i → m' l = m l)
    (hstep : ∀ i c m c' m', J i c m → work i c m c' m' → J i c' m') {i : ι}
    (hst : Interleave work s i s') (hs : ∀ i, J i (s.pc i) s.mem) : ∀ i, J i (s'.pc i) s'.mem := by
  intro j
  obtain ⟨hwork, hrest⟩ := hst
  by_cases hji : j = i
  · rw [hji]
    exact hstep i _ _ _ _ (hs i) hwork
  · rw [hrest j hji]
    apply hblind j _ s.mem s'.mem _ (hs j)
    intro l hl
    exact hframe i _ _ _ _ (hs i) hwork l (hl i fun h => hji h.symm)

/-- What is true of one worker and of its places is not made false by the others. -/
theorem Footprint.inv (hf : Footprint own work) {J : ι → π → (loc → val) → Prop}
    (hblind : ∀ i c, Blind own i (J i c))
    (hstep : ∀ i c m c' m', J i c m → work i c m c' m' → J i c' m')
    (hr : Run (Interleave work) s tr s') (hs : ∀ i, J i (s.pc i) s.mem) :
    ∀ i, J i (s'.pc i) s'.mem :=
  hr.inv (I := fun s => ∀ i, J i (s.pc i) s.mem) (fun _ _ _ hu hst =>
    Interleave.keeps hblind (fun i c m c' m' _ => hf.frame i c m c' m') hstep hst hu) hs

theorem Footprint.outside (hf : Footprint own work) (hr : Run (Interleave work) s tr s') {l : loc}
    (hl : ∀ i, l ∉ own i) : s'.mem l = s.mem l := by
  apply hr.inv (I := fun u => u.mem l = s.mem l) _ rfl
  intro u i v hu hst
  rw [hf.frame i _ _ _ _ hst.1 l (hl i), hu]

/-- steps of one worker -/
inductive Alone (work : ι → π → (loc → val) → π → (loc → val) → Prop) (i : ι) (c : π)
    (m : loc → val) : π → (loc → val) → Prop
  | refl : Alone work i c m c m
  | tail {c' m' c'' m''} : Alone work i c m c' m' → work i c' m' c'' m'' → Alone work i c m c'' m''

theorem Alone.reach [DecidableEq ι] {i : ι} {c c' : π} {m m' : loc → val}
    (h : Alone work i c m c' m') (pc : ι → π) (hc : pc i = c) :
    Reach (Interleave work) ⟨pc, m⟩ ⟨Function.update pc i c', m'⟩ := by
  induction h with
  | refl =>
    rw [← hc, Function.update_eq_self]
    exact .refl _
  | @tail c₁ m₁ c₂ m₂ _ hstep ih =>
    refine ih.tail (a := i) ⟨?_, ?_⟩
    · show work i (Function.update pc i c₁ i) m₁ (Function.update pc i c₂ i) m₂
      rw [Function.update_self, Function.update_self]
      exact hstep
    · intro j hj
      show Function.update pc i c₂ j = Function.update pc i c₁ j
      rw [Function.update_of_ne hj, Function.update_of_ne hj]

end

/-! ## stores -/

section
variable {α ν : Type*} {p q r : List α} {a b : α}

/-- Paths list their names from the top. -/
def Apart (p q : List α) : Prop := ¬ p <+: q ∧ ¬ q <+: p

theorem Apart.symm (h : Apart p q) : Apart q p := ⟨h.2, h.1⟩

theorem Apart.not_under (h : Apart p q) (r : List α) : ¬ p <+: q ++ r := by
  intro hp
  rcases List.prefix_or_prefix_of_prefix hp (List.prefix_append q r) with hpq | hqp
  · exact h.1 hpq
  · exact h.2 hqp

theorem apart_concat (h : a ≠ b) (p : List α) : Apart (p ++ [a]) (p ++ [b]) := by
  have key {a b : α} (h : a ≠ b) : ¬ p ++ [a] <+: p ++ [b] := by
    intro hp
    have heq := hp.eq_of_length (by simp)
    exact h (List.singleton_inj.mp (List.append_cancel_left heq))
  exact ⟨key h, key h.symm⟩

def sub (m : List α → Option ν) (p r : List α) : Option ν := m (p ++ r)

def graft [DecidableEq α] (p : List α) (t m : List α → Option ν) (q : List α) : Option ν :=
  if p <+: q then t (q.drop p.length) else m q

@[simp]
theorem sub_sub (m : List α → Option ν) (p q : List α) : sub (sub m p) q = sub m (p ++ q) := by
  funext r
  show m (p ++ (q ++ r)) = m (p ++ q ++ r)
  rw [List.append_assoc]

@[simp]
theorem sub_nil (m : List α → Option ν) (p : List α) : sub m p [] = m p := by
  unfold sub
  rw [List.append_nil]

@[simp]
theorem graft_append [DecidableEq α] (p r : List α) (t m : List α → Option ν) :
    graft p t m (p ++ r) = t r := by
  unfold graft
  rw [if_pos (List.prefix_append p r), List.drop_left]

@[simp]
theorem sub_graft [DecidableEq α] (p : List α) (t m : List α → Option ν) :
    sub (graft p t m) p = t :=
  funext fun r => graft_append p r t m

theorem graft_of_not [DecidableEq α] {t m : List α → Option ν} (h : ¬ p <+: q) :
    graft p t m q = m q := if_neg h

end

end Interleaved
