import TestUnion.Lts
import Mathlib.Data.Fin.Basic
import Mathlib.Logic.Function.Basic
import Mathlib.Tactic.Common

/-!
# snapstorm: the start barrier and the finish count

`main` creates `n` workers, polls `nr_ready` under `m_start`, sets `can_start` and broadcasts
`c_start`, then polls `nr_finished` under `m_end` and returns with `m_end` locked.  A worker counts
itself in `nr_ready`, waits for `can_start`, calls `do_snap` and counts itself in `nr_finished`.

* `MainPc`, `WorkerPc`, `St`   the program counters and the shared state of `n` workers;
* `Act`                        one step of a thread, a spurious wake-up, or a fault;
* `enabled`, `next`, `Step`    the interleaved system.

Every thread creation succeeds.  The zero-initialised `m_end` is an unlocked mutex.  The calls of
`sleep(1)` are a stay at the following lock.  The `snprintf` of `t_worker` passes the number `i` for
a `%s`: it is undefined, so it either returns or kills the process (`fault`).
-/

namespace Snapstorm

inductive Tid (n : ℕ) where
  | main
  | worker (i : Fin n)
  deriving DecidableEq, Repr

inductive MainPc where
  | create (i : ℕ)
  | lockReady
  | testReady
  | unlockPoll
  | unlockReady
  | lockGo
  | setStart
  | broadcast
  | unlockGo
  | lockEnd
  | testFinished
  | unlockEnd
  | returned
  deriving DecidableEq, Repr

/-- `asleep` is inside `pthread_cond_wait` without a pending wake-up, `woken` is inside it and takes
`m_start` again. -/
inductive WorkerPc where
  | unborn
  | lockStart
  | incReady
  | testStart
  | asleep
  | woken
  | unlockStart
  | snprintf
  | doSnap
  | lockEnd
  | incFinished
  | unlockEnd
  | returned
  deriving DecidableEq, Repr

structure St (n : ℕ) where
  main : MainPc
  worker : Fin n → WorkerPc
  mStart : Option (Tid n)
  mEnd : Option (Tid n)
  canStart : Bool
  nrReady : ℕ
  nrFinished : ℕ
  killed : Bool

inductive Act (n : ℕ) where
  | main
  | worker (i : Fin n)
  | spurious (i : Fin n)
  | fault (i : Fin n)
  deriving DecidableEq, Repr

variable {n : ℕ}

def init (n : ℕ) : St n where
  main := .create 0
  worker := fun _ => .unborn
  mStart := none
  mEnd := none
  canStart := false
  nrReady := 0
  nrFinished := 0
  killed := false

/-- the process runs: it was not killed and `main` has not returned -/
def alive (s : St n) : Prop := s.killed = false ∧ s.main ≠ .returned

instance (s : St n) : Decidable (alive s) := by unfold alive; infer_instance

def mainEnabled (s : St n) : Prop :=
  match s.main with
  | .lockReady | .lockGo => s.mStart = none
  | .lockEnd => s.mEnd = none
  | _ => True

def workerEnabled (s : St n) (i : Fin n) : Prop :=
  match s.worker i with
  | .unborn | .asleep | .returned => False
  | .lockStart | .woken => s.mStart = none
  | .lockEnd => s.mEnd = none
  | _ => True

instance (s : St n) : Decidable (mainEnabled s) := by
  unfold mainEnabled
  split <;> infer_instance

instance (s : St n) (i : Fin n) : Decidable (workerEnabled s i) := by
  unfold workerEnabled
  split <;> infer_instance

def enabled (s : St n) : Act n → Prop
  | .main => alive s ∧ mainEnabled s
  | .worker i => alive s ∧ workerEnabled s i
  | .spurious i => alive s ∧ s.worker i = .asleep
  | .fault i => alive s ∧ s.worker i = .snprintf

instance (s : St n) (a : Act n) : Decidable (enabled s a) := by
  cases a <;> unfold enabled <;> infer_instance

def St.setWorker (s : St n) (i : Fin n) (pc : WorkerPc) : St n :=
  { s with worker := Function.update s.worker i pc }

/-- `pthread_cond_broadcast(&c_start)` -/
def wake : WorkerPc → WorkerPc
  | .asleep => .woken
  | pc => pc

def nextMain (s : St n) : St n :=
  match s.main with
  | .create i =>
    if h : i < n then { s.setWorker ⟨i, h⟩ .lockStart with main := .create (i + 1) }
    else { s with main := .lockReady }
  | .lockReady => { s with mStart := some .main, main := .testReady }
  | .testReady => if s.nrReady < n then { s with main := .unlockPoll } else { s with main := .unlockReady }
  | .unlockPoll => { s with mStart := none, main := .lockReady }
  | .unlockReady => { s with mStart := none, main := .lockGo }
  | .lockGo => { s with mStart := some .main, main := .setStart }
  | .setStart => { s with canStart := true, main := .broadcast }
  | .broadcast => { s with worker := fun i => wake (s.worker i), main := .unlockGo }
  | .unlockGo => { s with mStart := none, main := .lockEnd }
  | .lockEnd => { s with mEnd := some .main, main := .testFinished }
  | .testFinished => if s.nrFinished < n then { s with main := .unlockEnd } else { s with main := .returned }
  | .unlockEnd => { s with mEnd := none, main := .lockEnd }
  | .returned => s

def nextWorker (s : St n) (i : Fin n) : St n :=
  match s.worker i with
  | .unborn => s
  | .lockStart => { s.setWorker i .incReady with mStart := some (.worker i) }
  | .incReady => { s.setWorker i .testStart with nrReady := s.nrReady + 1 }
  | .testStart =>
    if s.canStart then s.setWorker i .unlockStart else { s.setWorker i .asleep with mStart := none }
  | .asleep => s
  | .woken => { s.setWorker i .testStart with mStart := some (.worker i) }
  | .unlockStart => { s.setWorker i .snprintf with mStart := none }
  | .snprintf => s.setWorker i .doSnap
  | .doSnap => s.setWorker i .lockEnd
  | .lockEnd => { s.setWorker i .incFinished with mEnd := some (.worker i) }
  | .incFinished => { s.setWorker i .unlockEnd with nrFinished := s.nrFinished + 1 }
  | .unlockEnd => { s.setWorker i .returned with mEnd := none }
  | .returned => s

def next (s : St n) : Act n → St n
  | .main => nextMain s
  | .worker i => nextWorker s i
  | .spurious i => s.setWorker i .woken
  | .fault _ => { s with killed := true }

def Step : St n → Act n → St n → Prop := Lts.Guarded enabled next

def Reachable (s : St n) : Prop := Lts.Reach Step (init n) s

/-- a step of a thread's own code, neither a spurious wake-up nor a fault -/
def Act.proper : Act n → Prop
  | .main | .worker _ => True
  | .spurious _ | .fault _ => False

/-- `main` and all workers have returned -/
def finished (s : St n) : Prop := s.main = .returned ∧ ∀ i, s.worker i = .returned

end Snapstorm
