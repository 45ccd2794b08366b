import TestUnion.Synctest.Doit
import Mathlib.Algebra.Order.Group.Nat
import Mathlib.Tactic.Linarith

/-!
# synctest: the completion protocol is sound

`Inv` ties the parent's program counter, the children and the slots together:

* `slot`      what a slot holds in each state of its child: `1` or `2` only after all iterations;
* `pending`   a reaped child that finished has its slot at `2`, or the running scan has not passed
              the slot yet;
* `left`      `children_left` counts the slots that are not `2`.

`inv_step` keeps it, `Reachable.inv` has it in every joint state; the rest are consequences.
-/

namespace Synctest

variable {cfg : Cfg}

/-- the parent is in the code where `children_left` has a value -/
def ParentPc.counting : ParentPc → Bool
  | .whileLoop | .wait3 | .scan _ | .removeLoop => true
  | .forkLoop | .exit0 | .exit1 | .killed => false

/-- the parent has not come to its first `wait3` (or died before it) -/
def ParentPc.forking : ParentPc → Bool
  | .forkLoop | .killed => true
  | _ => false

/-- the parent has come to the `remove_dir` loop -/
def ParentPc.removing : ParentPc → Bool
  | .removeLoop | .exit0 => true
  | _ => false

def ChildPc.failed : ChildPc → Bool
  | .exited 1 | .reaped 1 => true
  | _ => false

/-- slots that the parent has not counted yet -/
def uncounted (s : St cfg) : Finset (Fin cfg.nThreads) :=
  Finset.univ.filter fun i => s.childStatus i ≠ 2

/-- what a child's loop variable and slot hold -/
def SlotOk (nIters : ℕ) : ChildPc → ℕ → ℕ → Prop
  | .unborn, k, v => v = 0 ∧ k = 0
  | .looping, k, v => v = 0 ∧ k ≤ nIters
  | .exiting, k, v => (v = 1 ∨ v = 2) ∧ k = nIters
  | .exited c, k, v => (c = 0 ∧ (v = 1 ∨ v = 2) ∧ k = nIters) ∨ (c = 1 ∧ v = 0)
  | .reaped c, k, v => (c = 0 ∧ (v = 1 ∨ v = 2) ∧ k = nIters) ∨ (c = 1 ∧ v = 0)

/-- the parent turns a 1 into a 2 -/
theorem SlotOk.two {n k : ℕ} {pc : ChildPc} (h : SlotOk n pc k 1) : SlotOk n pc k 2 := by
  cases pc with
  | unborn => exact absurd h.1 one_ne_zero
  | looping => exact absurd h.1 one_ne_zero
  | exiting => exact ⟨.inr rfl, h.2⟩
  | exited c =>
    rcases h with h | h
    · exact .inl ⟨h.1, .inr rfl, h.2.2⟩
    · exact absurd h.2 one_ne_zero
  | reaped c =>
    rcases h with h | h
    · exact .inl ⟨h.1, .inr rfl, h.2.2⟩
    · exact absurd h.2 one_ne_zero

structure Inv (s : St cfg) : Prop where
  idx_le : s.thisChildIndex ≤ cfg.nThreads
  unborn : ∀ i, s.child i = .unborn ↔ s.thisChildIndex ≤ i
  slot : ∀ i, SlotOk cfg.nIters (s.child i) (s.iter i) (s.childStatus i)
  forked : s.parent.counting = true → s.thisChildIndex = cfg.nThreads
  forking : s.parent.forking = true → ∀ i c, s.childStatus i ≠ 2 ∧ s.child i ≠ .reaped c
  pending : ∀ i, s.child i = .reaped 0 → s.childStatus i = 2 ∨ ∃ c ≤ (i : ℕ), s.parent = .scan c
  left : s.parent.counting = true → s.childrenLeft = (uncounted s).card
  removing : s.parent.removing = true → ∀ i, s.childStatus i = 2

theorem inv_init (left : ℤ) : Inv (init cfg left) where
  idx_le := Nat.zero_le _
  unborn i := by simp [init]
  slot i := ⟨rfl, rfl⟩
  forked h := by cases h
  forking _ i c := by simp [init]
  pending i h := by cases h
  left h := by cases h
  removing h := by cases h

theorem Inv.looping {s : St cfg} (h : Inv s) {i : Fin cfg.nThreads} (hi : s.child i = .looping) :
    s.childStatus i = 0 ∧ s.iter i ≤ cfg.nIters := by
  have := h.slot i
  rwa [hi] at this

/-! ## the steps of a child -/

/-- A child's own step leaves the parent alone.  It keeps the invariant if the child was alive and
comes to a living state or a zombie with a matching slot. -/
theorem Inv.child_step {s : St cfg} (h : Inv s) (i : Fin cfg.nThreads) (pc : ChildPc) (k v : ℕ)
    (halive : s.child i = .looping ∨ s.child i = .exiting)
    (hpc : pc ≠ .unborn ∧ ∀ c, pc ≠ .reaped c) (hok : SlotOk cfg.nIters pc k v)
    (hv : v = s.childStatus i ∨ (s.childStatus i = 0 ∧ v = 1)) :
    Inv { s with
      child := Function.update s.child i pc
      iter := Function.update s.iter i k
      childStatus := Function.update s.childStatus i v } := by
  have hnum : ∀ j, Function.update s.childStatus i v j = 2 ↔ s.childStatus j = 2 := by
    intro j
    by_cases hj : j = i
    · subst hj
      rw [Function.update_self]
      omega
    · rw [Function.update_of_ne hj]
  have hunc : uncounted { s with
      child := Function.update s.child i pc
      iter := Function.update s.iter i k
      childStatus := Function.update s.childStatus i v } = uncounted s := by
    ext j
    simp only [uncounted, Finset.mem_filter, Finset.mem_univ, true_and, ne_eq, hnum]
  refine ⟨h.idx_le, ?_, ?_, h.forked, ?_, ?_, ?_, ?_⟩
  · intro j
    by_cases hj : j = i
    · subst hj
      have hborn : ¬ s.thisChildIndex ≤ j := by
        rw [← h.unborn j]
        rcases halive with e | e <;> simp [e]
      simp [hpc.1, hborn]
    · simpa [Function.update_of_ne hj] using h.unborn j
  · intro j
    by_cases hj : j = i
    · subst hj
      simpa using hok
    · simpa [Function.update_of_ne hj] using h.slot j
  · intro hp j c
    refine ⟨fun e => (h.forking hp j c).1 ((hnum j).mp e), ?_⟩
    by_cases hj : j = i
    · subst hj
      simpa using hpc.2 c
    · simpa [Function.update_of_ne hj] using (h.forking hp j c).2
  · intro j hr
    by_cases hj : j = i
    · subst hj
      exact absurd (by simpa using hr) (hpc.2 0)
    · have hr' : s.child j = .reaped 0 := by simpa [Function.update_of_ne hj] using hr
      rcases h.pending j hr' with e | e
      · exact .inl ((hnum j).mpr e)
      · exact .inr e
  · intro hp
    rw [hunc]
    exact h.left hp
  · intro hp j
    exact (hnum j).mpr (h.removing hp j)

/-! ## the steps of the parent -/

/-- the thread group and the record of the directories do not matter -/
theorem Inv.dirs {s : St cfg} (h : Inv s) (g : ℤ) (made removed : List ℤ) :
    Inv { s with threadGroup := g, madeDirs := made, removedDirs := removed } :=
  ⟨h.idx_le, h.unborn, h.slot, h.forked, h.forking, h.pending, h.left, h.removing⟩

theorem Inv.fork_child {s : St cfg} (h : Inv s) (hp : s.parent = .forkLoop)
    (hlt : s.thisChildIndex < cfg.nThreads) :
    Inv { s with
      child := Function.update s.child ⟨s.thisChildIndex, hlt⟩ .looping
      thisChildIndex := s.thisChildIndex + 1 } := by
  have hnc : s.parent.counting = false := by rw [hp]; rfl
  have hnr : s.parent.removing = false := by rw [hp]; rfl
  refine ⟨hlt, ?_, ?_, by simp [hnc], ?_, ?_, by simp [hnc], by simp [hnr]⟩
  · intro j
    by_cases hj : j = ⟨s.thisChildIndex, hlt⟩
    · subst hj
      simp
    · have hne : (j : ℕ) ≠ s.thisChildIndex := fun e => hj (Fin.ext e)
      simp only [Function.update_of_ne hj]
      rw [h.unborn j]
      omega
  · intro j
    by_cases hj : j = ⟨s.thisChildIndex, hlt⟩
    · -- the slot of the new child still holds the 0 of `memset`
      subst hj
      have hslot := h.slot ⟨s.thisChildIndex, hlt⟩
      rw [(h.unborn ⟨s.thisChildIndex, hlt⟩).mpr (Nat.le_refl _)] at hslot
      have hle : s.iter ⟨s.thisChildIndex, hlt⟩ ≤ cfg.nIters := by
        rw [hslot.2]
        exact Nat.zero_le _
      have hok : SlotOk cfg.nIters .looping (s.iter ⟨s.thisChildIndex, hlt⟩)
          (s.childStatus ⟨s.thisChildIndex, hlt⟩) := ⟨hslot.1, hle⟩
      simp only [Function.update_self]
      exact hok
    · simpa [Function.update_of_ne hj] using h.slot j
  · intro _ j c
    have hj' := h.forking (by rw [hp]; rfl) j c
    refine ⟨hj'.1, ?_⟩
    by_cases hj : j = ⟨s.thisChildIndex, hlt⟩
    · subst hj
      simp
    · simpa [Function.update_of_ne hj] using hj'.2
  · intro j hr
    by_cases hj : j = ⟨s.thisChildIndex, hlt⟩
    · subst hj
      simp at hr
    · exact h.pending j (by simpa [Function.update_of_ne hj] using hr)

/-- a new program counter of the parent that needs nothing new of the rest -/
theorem Inv.goto {s : St cfg} (h : Inv s) (pc : ParentPc)
    (hfork : pc.forking = true → s.parent.forking = true)
    (hcount : pc.counting = true → s.parent.counting = true)
    (hremove : pc.removing = true → ∀ i, s.childStatus i = 2)
    (hscan : ∀ c, s.parent = .scan c → ∀ i, s.child i = .reaped 0 → c ≤ (i : ℕ) →
      s.childStatus i = 2 ∨ ∃ c' ≤ (i : ℕ), pc = .scan c') :
    Inv { s with parent := pc } := by
  refine ⟨h.idx_le, h.unborn, h.slot, fun hc => h.forked (hcount hc), fun e => h.forking (hfork e), ?_,
    fun hc => h.left (hcount hc), hremove⟩
  intro i hi
  rcases h.pending i hi with e | ⟨c, hc, e⟩
  · exact .inl e
  · exact hscan c e i hi hc

theorem Inv.forksDone {s : St cfg} (h : Inv s) (hp : s.parent = .forkLoop)
    (hlt : ¬ s.thisChildIndex < cfg.nThreads) :
    Inv { s with childrenLeft := cfg.nThreads, parent := .whileLoop } := by
  have hidx : s.thisChildIndex = cfg.nThreads := Nat.le_antisymm h.idx_le (not_lt.mp hlt)
  refine ⟨h.idx_le, h.unborn, h.slot, fun _ => hidx, nofun, ?_, ?_, nofun⟩
  · exact fun i hi => absurd hi (h.forking (by rw [hp]; rfl) i 0).2
  · intro _
    have hall : uncounted s = Finset.univ := by
      ext i
      simp [uncounted, (h.forking (by rw [hp]; rfl) i 0).1]
    have : (uncounted s).card = cfg.nThreads := by rw [hall, Finset.card_univ, Fintype.card_fin]
    exact congrArg Nat.cast this.symm

theorem Inv.reap {s : St cfg} (h : Inv s) (hp : s.parent = .wait3) (i : Fin cfg.nThreads)
    (code : ℕ) (hi : s.child i = .exited code) :
    Inv { s with child := Function.update s.child i (.reaped code), parent := .scan 0 } := by
  have hidx : s.thisChildIndex = cfg.nThreads := h.forked (by rw [hp]; rfl)
  refine ⟨h.idx_le, ?_, ?_, fun _ => hidx, nofun, ?_, ?_, nofun⟩
  · intro j
    by_cases hj : j = i
    · subst hj
      have := h.unborn j
      simp only [hi, reduceCtorEq, false_iff] at this
      simpa using this
    · simpa [Function.update_of_ne hj] using h.unborn j
  · intro j
    by_cases hj : j = i
    · subst hj
      have hok : SlotOk cfg.nIters (.reaped code) (s.iter j) (s.childStatus j) := by
        have := h.slot j
        rwa [hi] at this
      simpa using hok
    · simpa [Function.update_of_ne hj] using h.slot j
  · exact fun j _ => .inr ⟨0, Nat.zero_le _, rfl⟩
  · exact fun _ => h.left (by rw [hp]; rfl)

theorem Inv.scanRound {s : St cfg} (h : Inv s) (c : ℕ) (hp : s.parent = .scan c) :
    Inv (scanRound s c) := by
  have hcount : s.parent.counting = true := by rw [hp]; rfl
  -- a slot that the scan moves past and that it does not turn to 2 is not 1
  have hpass : ∀ i, s.child i = .reaped 0 → s.childStatus i = 1 ∨ s.childStatus i = 2 := by
    intro i hi
    have := h.slot i
    rw [hi] at this
    simp only [SlotOk] at this
    omega
  unfold Synctest.scanRound
  by_cases hlt : c < cfg.nThreads
  · rw [dif_pos hlt]
    by_cases h1 : s.childStatus ⟨c, hlt⟩ = 1
    · rw [if_pos h1]
      refine ⟨h.idx_le, h.unborn, ?_, fun _ => h.forked hcount, nofun, ?_, ?_, nofun⟩
      · intro j
        by_cases hj : j = ⟨c, hlt⟩
        · subst hj
          have := h.slot ⟨c, hlt⟩
          rw [h1] at this
          simpa using this.two
        · simpa [Function.update_of_ne hj] using h.slot j
      · intro j hj
        by_cases hjc : j = ⟨c, hlt⟩
        · subst hjc
          exact .inl (by simp)
        · rcases h.pending j hj with e | ⟨c', hc', e⟩
          · exact .inl (by simpa [Function.update_of_ne hjc] using e)
          · rw [hp] at e
            cases e
            have hne : (j : ℕ) ≠ c := fun e => hjc (Fin.ext e)
            exact .inr ⟨c + 1, by omega, rfl⟩
      · intro _
        have herase : uncounted { s with
            childStatus := Function.update s.childStatus ⟨c, hlt⟩ 2
            childrenLeft := s.childrenLeft - 1
            parent := .scan (c + 1) } = (uncounted s).erase ⟨c, hlt⟩ := by
          ext j
          by_cases hj : j = ⟨c, hlt⟩
          · subst hj
            simp [uncounted]
          · simp [uncounted, hj]
        have hmem : (⟨c, hlt⟩ : Fin cfg.nThreads) ∈ uncounted s := by simp [uncounted, h1]
        have hcard := Finset.card_erase_add_one hmem
        have hl := h.left hcount
        rw [herase]
        show s.childrenLeft - 1 = _
        omega
    · rw [if_neg h1]
      refine h.goto _ nofun (fun _ => hcount) nofun ?_
      intro c' e i hi hc'
      rw [hp] at e
      cases e
      rcases hpass i hi with e1 | e2
      · have hne : (i : ℕ) ≠ c := fun e => h1 (by rw [← e1]; congr 1; exact Fin.ext e.symm)
        exact .inr ⟨c + 1, by omega, rfl⟩
      · exact .inl e2
  · rw [dif_neg hlt]
    refine h.goto _ nofun (fun _ => hcount) nofun ?_
    intro c' e i hi hc'
    rw [hp] at e
    cases e
    have := i.isLt
    omega

theorem Inv.testLeft_zero {s : St cfg} (h : Inv s) (hp : s.parent = .whileLoop)
    (h0 : s.childrenLeft = 0) : ∀ i, s.childStatus i = 2 := by
  have hl := h.left (by rw [hp]; rfl)
  rw [h0] at hl
  have hc : (uncounted s).card = 0 := by exact_mod_cast hl.symm
  intro i
  by_contra hne
  have hmem : i ∈ uncounted s := by simp [uncounted, hne]
  rw [Finset.card_eq_zero.mp hc] at hmem
  exact absurd hmem (Finset.notMem_empty i)

/-! ## every step, every run -/

theorem Inv.forkRound {s : St cfg} (h : Inv s) (hp : s.parent = .forkLoop) : Inv (forkRound s) := by
  unfold Synctest.forkRound
  by_cases h0 : cfg.threadsPerDir = 0
  · rw [if_pos h0]
    exact h.goto _ (fun _ => by rw [hp]; rfl) nofun nofun fun c e => by rw [hp] at e; cases e
  rw [if_neg h0]
  by_cases hlt : s.thisChildIndex < cfg.nThreads
  · rw [dif_pos hlt]
    by_cases hd : newDir s
    · rw [if_pos hd]
      exact (h.dirs (s.threadGroup + 1) (s.madeDirs ++ [s.threadGroup + 1]) s.removedDirs).fork_child
        hp hlt
    · rw [if_neg hd]
      exact h.fork_child hp hlt
  · rw [dif_neg hlt]
    exact h

theorem Inv.removeRound {s : St cfg} (h : Inv s) (hp : s.parent = .removeLoop) :
    Inv (removeRound s) := by
  unfold Synctest.removeRound
  split
  · exact h.dirs _ _ _
  · exact h.goto _ nofun nofun (fun _ => h.removing (by rw [hp]; rfl))
      fun c e => by rw [hp] at e; cases e

theorem inv_step (s : St cfg) (a : Act cfg) (t : St cfg) (h : Inv s) (hst : Step s a t) :
    Inv t := by
  obtain ⟨he, rfl⟩ := hst
  cases a with
  | fork => exact h.forkRound he.1
  | mkdirFails => exact h.goto _ nofun nofun nofun fun c e => by rw [he.1] at e; cases e
  | forksDone => exact h.forksDone he.1 he.2
  | testLeft =>
    have hp : s.parent = .whileLoop := he
    have hno : ∀ c, s.parent ≠ .scan c := fun c e => by rw [hp] at e; cases e
    simp only [next]
    split
    · next h0 =>
      exact (h.dirs 0 _ _).goto .removeLoop nofun (fun _ => by rw [hp]; rfl)
        (fun _ => h.testLeft_zero hp h0) fun c e => absurd e (hno c)
    · exact h.goto _ nofun (fun _ => by rw [hp]; rfl) nofun fun c e => absurd e (hno c)
  | reap i =>
    obtain ⟨hp, hi⟩ := he
    cases hc : s.child i with
    | exited code =>
      simp only [next, hc]
      exact h.reap hp i code hc
    | unborn => rw [hc] at hi; cases hi
    | looping => rw [hc] at hi; cases hi
    | exiting => rw [hc] at hi; cases hi
    | reaped code => rw [hc] at hi; cases hi
  | eintr =>
    have hp : s.parent = .wait3 := he.1
    exact h.goto _ nofun (fun _ => by rw [hp]; rfl) nofun fun c e => by rw [hp] at e; cases e
  | echild =>
    have hp : s.parent = .wait3 := he.1
    exact h.goto _ nofun nofun nofun fun c e => by rw [hp] at e; cases e
  | scanSlot =>
    cases hp : s.parent with
    | scan c =>
      simp only [next, hp]
      exact h.scanRound c hp
    | _ =>
      simp only [next, hp]
      exact h
  | removeDir => exact h.removeRound he
  | doChild i =>
    obtain ⟨hi, hlt⟩ := he
    have hs := h.looping hi
    have hn := h.child_step i .looping (s.iter i + 1) (s.childStatus i) (.inl hi)
      ⟨nofun, nofun⟩ ⟨hs.1, hlt⟩ (.inl rfl)
    rw [← hi] at hn
    simpa [next] using hn
  | childError i =>
    obtain ⟨hi, hlt⟩ := he
    have hs := h.looping hi
    simpa [next] using h.child_step i (.exited 1) (s.iter i) (s.childStatus i) (.inl hi)
      ⟨nofun, nofun⟩ (.inr ⟨rfl, hs.1⟩) (.inl rfl)
  | writeSlot i =>
    obtain ⟨hi, hlt⟩ := he
    have hs := h.looping hi
    simpa [next] using h.child_step i .exiting (s.iter i) 1 (.inl hi)
      ⟨nofun, nofun⟩ ⟨.inl rfl, Nat.le_antisymm hs.2 (not_lt.mp hlt)⟩ (.inr ⟨hs.1, rfl⟩)
  | childExit i =>
    have hi : s.child i = .exiting := he
    have hs := h.slot i
    rw [hi] at hs
    simpa [next] using h.child_step i (.exited 0) (s.iter i) (s.childStatus i) (.inr hi)
      ⟨nofun, nofun⟩ (.inl ⟨rfl, hs.1, hs.2⟩) (.inl rfl)

theorem Reachable.inv {s : St cfg} (h : Reachable s) : Inv s := by
  obtain ⟨left, hr⟩ := h
  exact hr.inv inv_step (inv_init left)

/-! ## what the invariant says -/

theorem Inv.finished {s : St cfg} (h : Inv s) (i : Fin cfg.nThreads) (hi : s.childStatus i = 2) :
    s.iter i = cfg.nIters ∧ (s.child i).failed = false := by
  have hs := h.slot i
  rw [hi] at hs
  cases hc : s.child i with
  | unborn => rw [hc] at hs; exact absurd hs.1 two_ne_zero
  | looping => rw [hc] at hs; exact absurd hs.1 two_ne_zero
  | exiting => rw [hc] at hs; exact ⟨hs.2, rfl⟩
  | exited c =>
    rw [hc] at hs
    rcases hs with hs | hs
    · rw [hs.1]; exact ⟨hs.2.2, rfl⟩
    · exact absurd hs.2 two_ne_zero
  | reaped c =>
    rw [hc] at hs
    rcases hs with hs | hs
    · rw [hs.1]; exact ⟨hs.2.2, rfl⟩
    · exact absurd hs.2 two_ne_zero

theorem Inv.not_removing {s : St cfg} (h : Inv s) (i : Fin cfg.nThreads)
    (hi : (s.child i).failed = true) : s.parent.removing = false := by
  cases hr : s.parent.removing with
  | false => rfl
  | true =>
    have := (h.finished i (h.removing hr i)).2
    rw [hi] at this
    cases this

/-- no child is left to wait for -/
def noneLeft (s : St cfg) : Prop := ∀ i, ∃ code, s.child i = .reaped code

/-- steps that the parent still has to make when no child is left -/
def parentSteps (s : St cfg) : ℕ :=
  match s.parent with
  | .scan c => cfg.nThreads - c + 3
  | .whileLoop => 2
  | .wait3 => 1
  | _ => 0

/-- With no child left only the parent moves, and it has one step at most. -/
theorem noneLeft_enabled {s : St cfg} (hn : noneLeft s) (hfork : s.parent.forking = false)
    (hrem : s.parent.removing = false) {a : Act cfg} (he : enabled s a) :
    (s.parent = .whileLoop ∧ a = .testLeft) ∨ (s.parent = .wait3 ∧ a = .echild) ∨
      ∃ c, s.parent = .scan c ∧ a = .scanSlot := by
  have hnot : ∀ i, s.child i ≠ .looping ∧ s.child i ≠ .exiting ∧ (s.child i).isExited = false ∧
      (s.child i).waitable = false := by
    intro i
    obtain ⟨code, hi⟩ := hn i
    rw [hi]
    exact ⟨nofun, nofun, rfl, rfl⟩
  cases a with
  | fork =>
    have hp : s.parent = .forkLoop := he.1
    rw [hp] at hfork
    cases hfork
  | mkdirFails =>
    have hp : s.parent = .forkLoop := he.1
    rw [hp] at hfork
    cases hfork
  | forksDone =>
    have hp : s.parent = .forkLoop := he.1
    rw [hp] at hfork
    cases hfork
  | testLeft => exact .inl ⟨he, rfl⟩
  | reap i =>
    have hx : (s.child i).isExited = true := he.2
    rw [(hnot i).2.2.1] at hx
    cases hx
  | eintr =>
    obtain ⟨i, hi⟩ : ∃ i, (s.child i).waitable = true := he.2
    rw [(hnot i).2.2.2] at hi
    cases hi
  | echild => exact .inr (.inl ⟨he.1, rfl⟩)
  | scanSlot =>
    have hs : s.parent.isScan = true := he
    cases hp : s.parent with
    | scan c => exact .inr (.inr ⟨c, rfl, rfl⟩)
    | _ => rw [hp] at hs; cases hs
  | removeDir =>
    have hp : s.parent = .removeLoop := he
    rw [hp] at hrem
    cases hrem
  | doChild i => exact absurd he.1 (hnot i).1
  | childError i => exact absurd he.1 (hnot i).1
  | writeSlot i => exact absurd he.1 (hnot i).1
  | childExit i => exact absurd he (hnot i).2.1

theorem Inv.left_ne_zero {s : St cfg} (h : Inv s) (hc : s.parent.counting = true)
    {i : Fin cfg.nThreads} (hf : (s.child i).failed = true) : s.childrenLeft ≠ 0 := by
  intro h0
  have h2 : s.childStatus i ≠ 2 := by
    intro e
    have := (h.finished i e).2
    rw [hf] at this
    cases this
  have hl := h.left hc
  rw [h0] at hl
  have hz : (uncounted s).card = 0 := by exact_mod_cast hl.symm
  have hmem : i ∈ uncounted s := by simp [uncounted, h2]
  rw [Finset.card_eq_zero.mp hz] at hmem
  exact Finset.notMem_empty i hmem

/-- With no child left and a failed one, the parent is on its way to `exit(1)`. -/
theorem parent_step {s : St cfg} (h : Inv s) (hn : noneLeft s) {i : Fin cfg.nThreads}
    (hf : (s.child i).failed = true) (hp : s.parent ≠ .exit1) :
    (∃ a t, Step s a t) ∧
      ∀ a t, Step s a t → noneLeft t ∧ (t.child i).failed = true ∧ parentSteps t < parentSteps s := by
  have hrem : s.parent.removing = false := h.not_removing i hf
  have hfork : s.parent.forking = false := by
    obtain ⟨code, hc⟩ := hn i
    cases hk : s.parent.forking with
    | false => rfl
    | true => exact absurd hc (h.forking hk i code).2
  refine ⟨?_, ?_⟩
  · cases hpc : s.parent with
    | forkLoop => rw [hpc] at hfork; cases hfork
    | killed => rw [hpc] at hfork; cases hfork
    | removeLoop => rw [hpc] at hrem; cases hrem
    | exit0 => rw [hpc] at hrem; cases hrem
    | exit1 => exact absurd hpc hp
    | whileLoop => exact ⟨.testLeft, _, hpc, rfl⟩
    | wait3 =>
      refine ⟨.echild, _, ⟨hpc, fun j => ?_⟩, rfl⟩
      obtain ⟨code, hj⟩ := hn j
      rw [hj]
      rfl
    | scan c => exact ⟨.scanSlot, _, by rw [enabled, hpc]; rfl, rfl⟩
  · intro a t hex
    obtain ⟨he, rfl⟩ := hex
    rcases noneLeft_enabled hn hfork hrem he with ⟨hpc, rfl⟩ | ⟨hpc, rfl⟩ | ⟨c, hpc, rfl⟩
    · have hne := h.left_ne_zero (by rw [hpc]; rfl) hf
      simp only [next, if_neg hne]
      exact ⟨hn, hf, by simp [parentSteps, hpc]⟩
    · exact ⟨hn, hf, by simp [parentSteps, next, hpc]⟩
    · simp only [next, hpc, scanRound]
      split
      · split <;> exact ⟨hn, hf, by simp only [parentSteps, hpc]; omega⟩
      · exact ⟨hn, hf, by simp only [parentSteps, hpc]; omega⟩

theorem Inv.exit_one {s : St cfg} (h : Inv s) (hn : noneLeft s) {i : Fin cfg.nThreads}
    (hf : (s.child i).failed = true) : Lts.Inev Step (fun t => t.parent = .exit1) s := by
  refine Lts.Inev.of_measure (I := fun t => Inv t ∧ noneLeft t ∧ (t.child i).failed = true)
    parentSteps ?_ s ⟨h, hn, hf⟩
  rintro t ⟨ht, hnt, hft⟩ hp
  obtain ⟨hex, hall⟩ := parent_step ht hnt hft hp
  refine ⟨hex, fun a u hst => ?_⟩
  obtain ⟨h1, h2, h3⟩ := hall a u hst
  exact ⟨⟨inv_step t a u ht hst, h1, h2⟩, h3⟩

/-- **The completion protocol of `doit`.**  `children_left` counts the slots that are not `2`; the
`remove_dir` loop is reached only when every child has finished all its iterations; a failed child
keeps the parent from it, and the parent then ends with `exit(1)` when no child is left. -/
theorem doit_protocol {s : St cfg} (h : Reachable s) :
    (s.parent.counting = true →
      s.childrenLeft = (Finset.univ.filter fun i => s.childStatus i ≠ 2).card ∧
        0 ≤ s.childrenLeft) ∧
    (s.parent.removing = true →
      ∀ i, s.iter i = cfg.nIters ∧ (s.child i).failed = false) ∧
    ((∃ i, (s.child i).failed = true) →
      s.parent.removing = false ∧
        (noneLeft s → Lts.Inev Step (fun t => t.parent = .exit1) s)) := by
  have hi := h.inv
  refine ⟨fun hc => ?_, fun hr i => hi.finished i (hi.removing hr i), ?_⟩
  · have hl : s.childrenLeft = (uncounted s).card := hi.left hc
    exact ⟨hl, by rw [hl]; exact Int.natCast_nonneg _⟩
  · intro hex
    obtain ⟨i, hf⟩ := hex
    exact ⟨hi.not_removing i hf, fun hn => hi.exit_one hn hf⟩

/-- two children, one of which fails in its only iteration while the other one finishes -/
def oneFails : List (Act ⟨2, 1, 1⟩) :=
  [.fork, .fork, .forksDone, .doChild 1, .childError 0, .testLeft, .writeSlot 1, .reap 0, .scanSlot,
    .childExit 1, .scanSlot, .scanSlot, .testLeft, .reap 1]

theorem doit_protocol_oneFails :
    Lts.Inev Step (fun t => t.parent = .exit1) (oneFails.foldl next (init ⟨2, 1, 1⟩ 7)) :=
  ((doit_protocol ⟨7, Lts.Reach.of_labels oneFails (by decide)⟩).2.2 ⟨0, by decide⟩).2
    (Fin.forall_fin_two.mpr ⟨⟨1, by decide⟩, ⟨0, by decide⟩⟩)

end Synctest
