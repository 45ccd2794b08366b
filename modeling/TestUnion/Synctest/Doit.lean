import TestUnion.Lts
import Mathlib.Data.Fintype.Card
import Mathlib.Data.Fintype.Fin
import Mathlib.Logic.Function.Basic
import Mathlib.Tactic.Common

/-!
# synctest: `doit`, its children and the slots of `child_status`

The parent forks `nThreads` children, then reaps them with `wait3` and scans the shared array
`child_status` after every reaped child.  A child runs `do_child` `nIters` times, writes `1` to its
own slot and exits; an error inside `do_child` ends it with `exit(1)`.

* `Cfg`, `St`      the options and the joint state of the parent and of the children;
* `Act`            the steps: those of the parent, and those of child `i`;
* `enabled`, `next`   when a step is possible and what it does;
* `Step`           the interleaved system.

Forks succeed.  One `scan` step is one round of the `for (child = 0; ...)` loop, so the children
run between any two slots of a scan.
-/

namespace Synctest

/-- the options `-t`, `-n` and `-p` -/
structure Cfg where
  nThreads : ℕ
  nIters : ℕ
  threadsPerDir : ℤ

inductive ChildPc where
  | unborn
  | looping
  | exiting
  | exited (code : ℕ)
  | reaped (code : ℕ)
  deriving DecidableEq, Repr

inductive ParentPc where
  | forkLoop
  | whileLoop
  | wait3
  | scan (child : ℕ)
  | removeLoop
  | exit0
  | exit1
  | killed
  deriving DecidableEq, Repr

/-- `iter i` is the loop variable of child `i`; `madeDirs` and `removedDirs` are the thread groups
that were passed to `make_dir` and to `remove_dir`, oldest first. -/
structure St (cfg : Cfg) where
  thisChildIndex : ℕ
  threadGroup : ℤ
  childStatus : Fin cfg.nThreads → ℕ
  childrenLeft : ℤ
  child : Fin cfg.nThreads → ChildPc
  iter : Fin cfg.nThreads → ℕ
  parent : ParentPc
  madeDirs : List ℤ
  removedDirs : List ℤ

inductive Act (cfg : Cfg) where
  | fork
  | mkdirFails
  | forksDone
  | testLeft
  | reap (i : Fin cfg.nThreads)
  | eintr
  | echild
  | scanSlot
  | removeDir
  | doChild (i : Fin cfg.nThreads)
  | childError (i : Fin cfg.nThreads)
  | writeSlot (i : Fin cfg.nThreads)
  | childExit (i : Fin cfg.nThreads)
  deriving DecidableEq

variable {cfg : Cfg}

/-- the state after `memset`; `children_left` has no value yet, whatever `left` is -/
def init (cfg : Cfg) (left : ℤ) : St cfg where
  thisChildIndex := 0
  threadGroup := -1
  childStatus := fun _ => 0
  childrenLeft := left
  child := fun _ => .unborn
  iter := fun _ => 0
  parent := .forkLoop
  madeDirs := []
  removedDirs := []

/-- `this_child_index % threads_per_dir == 0`, with the remainder of C -/
def newDir (s : St cfg) : Prop := (s.thisChildIndex : ℤ).tmod cfg.threadsPerDir = 0

instance (s : St cfg) : Decidable (newDir s) := by unfold newDir; infer_instance

/-- the process still has to be waited for -/
def ChildPc.waitable : ChildPc → Bool
  | .looping | .exiting | .exited _ => true
  | .unborn | .reaped _ => false

def ChildPc.isExited : ChildPc → Bool
  | .exited _ => true
  | _ => false

def ParentPc.isScan : ParentPc → Bool
  | .scan _ => true
  | _ => false

def enabled (s : St cfg) : Act cfg → Prop
  | .fork => s.parent = .forkLoop ∧ s.thisChildIndex < cfg.nThreads
  | .mkdirFails => s.parent = .forkLoop ∧ s.thisChildIndex < cfg.nThreads ∧
      cfg.threadsPerDir ≠ 0 ∧ newDir s
  | .forksDone => s.parent = .forkLoop ∧ ¬ s.thisChildIndex < cfg.nThreads
  | .testLeft => s.parent = .whileLoop
  | .reap i => s.parent = .wait3 ∧ (s.child i).isExited = true
  | .eintr => s.parent = .wait3 ∧ ∃ i, (s.child i).waitable = true
  | .echild => s.parent = .wait3 ∧ ∀ i, (s.child i).waitable = false
  | .scanSlot => s.parent.isScan = true
  | .removeDir => s.parent = .removeLoop
  | .doChild i => s.child i = .looping ∧ s.iter i < cfg.nIters
  | .childError i => s.child i = .looping ∧ s.iter i < cfg.nIters
  | .writeSlot i => s.child i = .looping ∧ ¬ s.iter i < cfg.nIters
  | .childExit i => s.child i = .exiting

instance (s : St cfg) (a : Act cfg) : Decidable (enabled s a) := by
  cases a <;> unfold enabled <;> infer_instance

/-- one round of the fork loop: `make_dir` for a new thread group, then `fork`.  A zero
`threads_per_dir` makes the remainder trap. -/
def forkRound (s : St cfg) : St cfg :=
  if cfg.threadsPerDir = 0 then { s with parent := .killed }
  else if h : s.thisChildIndex < cfg.nThreads then
    let s' := if newDir s then
      { s with threadGroup := s.threadGroup + 1, madeDirs := s.madeDirs ++ [s.threadGroup + 1] }
    else s
    { s' with
      child := Function.update s.child ⟨s.thisChildIndex, h⟩ .looping
      thisChildIndex := s.thisChildIndex + 1 }
  else s

/-- one round of the scan: slot `c` turns from `1` to `2` and `children_left` goes down -/
def scanRound (s : St cfg) (c : ℕ) : St cfg :=
  if h : c < cfg.nThreads then
    if s.childStatus ⟨c, h⟩ = 1 then
      { s with
        childStatus := Function.update s.childStatus ⟨c, h⟩ 2
        childrenLeft := s.childrenLeft - 1
        parent := .scan (c + 1) }
    else { s with parent := .scan (c + 1) }
  else { s with parent := .whileLoop }

/-- one round of the `remove_dir` loop; at its end `doit` returns and `main` exits -/
def removeRound (s : St cfg) : St cfg :=
  if s.threadGroup < (cfg.nThreads : ℤ).tdiv cfg.threadsPerDir then
    { s with
      removedDirs := s.removedDirs ++ [s.threadGroup]
      threadGroup := s.threadGroup + 1 }
  else { s with parent := .exit0 }

def next (s : St cfg) : Act cfg → St cfg
  | .fork => forkRound s
  | .mkdirFails => { s with parent := .exit1 }
  | .forksDone => { s with childrenLeft := cfg.nThreads, parent := .whileLoop }
  | .testLeft =>
    if s.childrenLeft = 0 then { s with threadGroup := 0, parent := .removeLoop }
    else { s with parent := .wait3 }
  | .reap i =>
    match s.child i with
    | .exited code => { s with child := Function.update s.child i (.reaped code), parent := .scan 0 }
    | _ => s
  | .eintr => { s with parent := .whileLoop }
  | .echild => { s with parent := .exit1 }
  | .scanSlot =>
    match s.parent with
    | .scan c => scanRound s c
    | _ => s
  | .removeDir => removeRound s
  | .doChild i => { s with iter := Function.update s.iter i (s.iter i + 1) }
  | .childError i => { s with child := Function.update s.child i (.exited 1) }
  | .writeSlot i =>
    { s with
      child := Function.update s.child i .exiting
      childStatus := Function.update s.childStatus i 1 }
  | .childExit i => { s with child := Function.update s.child i (.exited 0) }

def Step : St cfg → Act cfg → St cfg → Prop := Lts.Guarded enabled next

/-- some joint state of the program started with these options -/
def Reachable (s : St cfg) : Prop := ∃ left, Lts.Reach Step (init cfg left) s

end Synctest
