import TestUnion.Decimal
import TestUnion.Lts
import Mathlib.Logic.Function.Basic

/-!
# stress-subvol-git-aging: the workers

The script starts one worker in the background for each `p` from 1 to `nconcurrent`.  Worker `p` polls
for `stress/$prev/init-done`, where `prev` is `p - 1`, makes `stress/$p` a snapshot of `stress/$prev`,
changes to it and checks out one commit after the other; `touch init-done` follows each checkout.

* `testWord`        the command `[` with one argument;
* `Cfg`, `Sub`, `St`   the options, what counts of a directory `stress/$k`, and the joint state;
* `Act`, `enabled`, `next`   the steps: a `fork` by the main loop, and those of worker `p`;
* `Step`            the interleaved system.

The mount point is one word for the shell.  `git checkout -f` leaves files alone that git does not know
of, as `init-done`; a worker can be killed at any time.
-/

namespace GitAging

/-- `[ word ]` is true if the word is not empty. -/
def testWord (word : List Char) : Bool := !word.isEmpty

/-- `home` is the number of the directory that the script runs in, if it is one of `stress`, and
`homeHeads` the length of `rev-list` there if it is not. -/
structure Cfg where
  mountpoint : List Char
  nconcurrent : ℤ
  stagger : Bool
  home : Option ℕ
  homeHeads : ℕ

/-- a directory below `stress`: whether it has the file `init-done`, and the lines of its `rev-list`,
none if there is no such file -/
structure Sub where
  initDone : Bool
  heads : ℕ
  deriving DecidableEq

inductive Pc where
  | unborn
  | test
  | sleep
  | snap
  | cd
  | readList
  | loop (left : ℕ)
  | checkout (left : ℕ)
  | touch (left : ℕ)
  | exited
  deriving DecidableEq

/-- `p` is the variable of the main loop; `created k` says that worker `k` has made `stress/$k`. -/
structure St where
  p : ℕ
  sub : ℕ → Option Sub
  created : ℕ → Bool
  pc : ℕ → Pc
  cwd : ℕ → Option ℕ

/-- `ok` says whether the command succeeds when it can. -/
inductive Act where
  | fork
  | test (p : ℕ)
  | wake (p : ℕ)
  | snap (p : ℕ) (ok : Bool)
  | cd (p : ℕ)
  | readList (p : ℕ)
  | readHead (p : ℕ)
  | checkout (p : ℕ)
  | touch (p : ℕ)
  | kill (p : ℕ)
  deriving DecidableEq

variable (cfg : Cfg)

def init (sub : ℕ → Option Sub) : St where
  p := 1
  sub := sub
  created := fun _ => false
  pc := fun _ => .unborn
  cwd := fun _ => cfg.home

/-- `$mountpoint/stress/$prev/init-done` -/
def initDonePath (prev : ℕ) : List Char :=
  cfg.mountpoint ++ "/stress/".toList ++ decimal prev ++ "/init-done".toList

/-- `[ $prev -gt 0 -a "$stagger" = "yes" ]` -/
def firstPc (p : ℕ) : Pc := if 0 < p - 1 ∧ cfg.stagger = true then .test else .snap

def Pc.inLoop : Pc → Bool
  | .loop _ => true
  | _ => false

def Pc.inCheckout : Pc → Bool
  | .checkout _ => true
  | _ => false

def Pc.inTouch : Pc → Bool
  | .touch _ => true
  | _ => false

def enabled (s : St) : Act → Prop
  | .fork => (s.p : ℤ) ≤ cfg.nconcurrent
  | .test p => s.pc p = .test
  | .wake p => s.pc p = .sleep
  | .snap p _ => s.pc p = .snap
  | .cd p => s.pc p = .cd
  | .readList p => s.pc p = .readList
  | .readHead p => (s.pc p).inLoop = true
  | .checkout p => (s.pc p).inCheckout = true
  | .touch p => (s.pc p).inTouch = true
  | .kill p => s.pc p ≠ .unborn

instance (s : St) (a : Act) : Decidable (enabled cfg s a) := by
  cases a <;> unfold enabled <;> infer_instance

def St.goto (s : St) (p : ℕ) (pc : Pc) : St := { s with pc := Function.update s.pc p pc }

/-- `btrfs subvol snap stress/$prev stress/$p` makes `stress/$p`; in a directory `stress/$p` that is
there it makes `stress/$p/$prev` instead. -/
def snapshot (s : St) (p : ℕ) : St :=
  match s.sub (p - 1), s.sub p with
  | some b, none =>
    { s with sub := Function.update s.sub p (some b), created := Function.update s.created p true }
  | _, _ => s

/-- A `cd` that fails leaves the worker where it is. -/
def changeDir (s : St) (p : ℕ) : St :=
  if s.sub p = none then s else { s with cwd := Function.update s.cwd p (some p) }

/-- the heads that `shuf` prints -/
def headsAt (s : St) (p : ℕ) : ℕ :=
  match s.cwd p with
  | none => cfg.homeHeads
  | some k =>
    match s.sub k with
    | none => 0
    | some b => b.heads

def touchInitDone (s : St) (p : ℕ) : St :=
  match s.cwd p with
  | none => s
  | some k =>
    match s.sub k with
    | none => s
    | some b => { s with sub := Function.update s.sub k (some { b with initDone := true }) }

def next (s : St) : Act → St
  | .fork => { s with p := s.p + 1, pc := Function.update s.pc s.p (firstPc cfg s.p) }
  | .test p => s.goto p (if testWord (initDonePath cfg (p - 1)) = true then .snap else .sleep)
  | .wake p => s.goto p .test
  | .snap p ok => (if ok = true then snapshot s p else s).goto p .cd
  | .cd p => (changeDir s p).goto p .readList
  | .readList p => s.goto p (.loop (headsAt cfg s p))
  | .readHead p =>
    match s.pc p with
    | .loop 0 => s.goto p .exited
    | .loop (left + 1) => s.goto p (.checkout left)
    | _ => s
  | .checkout p =>
    match s.pc p with
    | .checkout left => s.goto p (.touch left)
    | _ => s
  | .touch p =>
    match s.pc p with
    | .touch left => (touchInitDone s p).goto p (.loop left)
    | _ => s
  | .kill p => s.goto p .exited

def Step : St → Act → St → Prop := Lts.Guarded (enabled cfg) (next cfg)

end GitAging
