import TestUnion.Synctest.Doit
import TestUnion.Decimal
import Mathlib.Data.Finset.Image
import Mathlib.Order.Interval.Finset.Nat

/-!
# synctest: the directories and the files

* `mkDirname`, `mkFilename`, `mkNewFilename`   the names, below `dirname` and below the directory of
                    a thread group;
* `Target`          what is in `dirname`: its directories and the files of each of them;
* `Call`            the calls of a child that change a name;
* `doOneFile`, `unlinkOneFile`, `doChild`   the calls that the functions of these names make;
* `FileSt`, `FileAct`, `FileStep`   the system of `Doit` with the target directory, in which a child
                    makes the calls of `do_child` one by one.

The writes, the `fsync`s and the `close` of a child change no name; a child that fails in one of
them, or in a call below, takes the step `childError`.
-/

namespace Synctest

abbrev Name := List Char

def nFiles : ℕ := 100
def unlinkLag : ℕ := 30
def renamePasses : ℕ := 3

/-- `"%05d"`, `thread_group` -/
def mkDirname (threadGroup : ℤ) : Name := zeroPadInt 5 threadGroup

/-- `"%05d-%05d"`, `getpid()`, `fileno` -/
def mkFilename (pid fileno : ℕ) : Name := zeroPad 5 pid ++ '-' :: zeroPad 5 fileno

/-- `"%02d-%05d-%05d"`, `pass`, `getpid()`, `fileno` -/
def mkNewFilename (pid fileno pass : ℕ) : Name :=
  zeroPad 2 pass ++ '-' :: (zeroPad 5 pid ++ '-' :: zeroPad 5 fileno)

/-- Files are only in directories that exist. -/
structure Target where
  dirs : Finset Name
  files : Name → Finset Name
  closed : ∀ d, d ∉ dirs → files d = ∅

def Target.mkdir (t : Target) (d : Name) : Target where
  dirs := insert d t.dirs
  files := t.files
  closed d' h := t.closed d' fun hd => h (Finset.mem_insert_of_mem hd)

/-- A directory that is not empty stays. -/
def Target.rmdir (t : Target) (d : Name) : Target :=
  if h : t.files d = ∅ then
    { dirs := t.dirs.erase d
      files := t.files
      closed := by
        intro d' hd'
        by_cases hdd : d' = d
        · rw [hdd, h]
        · exact t.closed d' fun hmem => hd' (Finset.mem_erase.mpr ⟨hdd, hmem⟩) }
  else t

inductive Call where
  | openDir
  | create (name : Name)
  | rename (name newname : Name)
  | unlink (name : Name)
  deriving DecidableEq

/-- what a call makes of the names of the directory -/
def Call.apply : Call → Finset Name → Finset Name
  | .openDir, names => names
  | .create name, names => insert name names
  | .rename name newname, names => insert newname (names.erase name)
  | .unlink name, names => names.erase name

/-- the call does not end with `ENOENT` -/
def Call.possible (t : Target) (d : Name) : Call → Prop
  | .openDir => d ∈ t.dirs
  | .create _ => d ∈ t.dirs
  | .rename name _ => name ∈ t.files d
  | .unlink name => name ∈ t.files d

instance (t : Target) (d : Name) (c : Call) : Decidable (c.possible t d) := by
  cases c <;> unfold Call.possible <;> infer_instance

def Target.call (t : Target) (d : Name) (c : Call) : Target :=
  if h : d ∈ t.dirs then
    { dirs := t.dirs
      files := Function.update t.files d (c.apply (t.files d))
      closed := by
        intro d' hd'
        have hne : d' ≠ d := fun e => hd' (e ▸ h)
        rw [Function.update_of_ne hne]
        exact t.closed d' hd' }
  else t

/-! ## the calls of a child -/

/-- the rename loop; the file has the name `name` before it -/
def renameLoop (pid fileno : ℕ) : Name → List ℕ → List Call
  | _, [] => []
  | name, pass :: passes =>
    .rename name (mkNewFilename pid fileno pass) ::
      renameLoop pid fileno (mkNewFilename pid fileno pass) passes

def doOneFile (pid fileno : ℕ) : List Call :=
  .create (mkFilename pid fileno) ::
    renameLoop pid fileno (mkFilename pid fileno) (List.range renamePasses)

def unlinkOneFile (doUnlink : Bool) (pid fileno pass : ℕ) : List Call :=
  if doUnlink = true then [.unlink (mkNewFilename pid fileno pass)] else []

/-- one round of the first loop of `do_child` -/
def fileRound (doUnlink : Bool) (pid fileno : ℕ) : List Call :=
  doOneFile pid fileno ++
    if unlinkLag ≤ fileno then unlinkOneFile doUnlink pid (fileno - unlinkLag) (renamePasses - 1)
    else []

def doChild (doUnlink : Bool) (pid : ℕ) : List Call :=
  .openDir :: ((List.range nFiles).flatMap (fileRound doUnlink pid) ++
    (List.range' (nFiles - unlinkLag) unlinkLag).flatMap fun fileno =>
      unlinkOneFile doUnlink pid fileno (renamePasses - 1))

/-! ## the system -/

/-- `group i` is the `thread_group` of child `i`, the value that the parent had at the fork;
`done i` counts the calls of its running `do_child` that are done. -/
structure FileSt (cfg : Cfg) where
  st : St cfg
  target : Target
  group : Fin cfg.nThreads → ℤ
  done : Fin cfg.nThreads → ℕ

inductive FileAct (cfg : Cfg) where
  | proto (a : Act cfg)
  | call (i : Fin cfg.nThreads)
  deriving DecidableEq

variable {cfg : Cfg}

def fileInit (cfg : Cfg) (left : ℤ) (target : Target) : FileSt cfg where
  st := init cfg left
  target := target
  group := fun _ => 0
  done := fun _ => 0

/-- the round of the fork loop calls `make_dir` -/
def makesDir (s : St cfg) : Prop := cfg.threadsPerDir ≠ 0 ∧ newDir s

instance (s : St cfg) : Decidable (makesDir s) := by unfold makesDir; infer_instance

/-- A child inherits the thread group of its parent. -/
def fileFork (s : FileSt cfg) : FileSt cfg where
  st := forkRound s.st
  target :=
    if makesDir s.st then s.target.mkdir (mkDirname (forkRound s.st).threadGroup) else s.target
  group :=
    if h : s.st.thisChildIndex < cfg.nThreads then
      Function.update s.group ⟨s.st.thisChildIndex, h⟩ (forkRound s.st).threadGroup
    else s.group
  done := s.done

def fileRemove (s : FileSt cfg) : FileSt cfg :=
  { s with
    st := removeRound s.st
    target :=
      if s.st.threadGroup < (cfg.nThreads : ℤ).tdiv cfg.threadsPerDir then
        s.target.rmdir (mkDirname s.st.threadGroup)
      else s.target }

section
variable (doUnlink : Bool) (pid : Fin cfg.nThreads → ℕ)

/-- the next call of child `i` -/
def nextCall (s : FileSt cfg) (i : Fin cfg.nThreads) : Option Call :=
  (doChild doUnlink (pid i))[s.done i]?

/-- With the last call of its `do_child` the child goes on to the next iteration. -/
def fileCall (s : FileSt cfg) (i : Fin cfg.nThreads) (c : Call) : FileSt cfg :=
  let target := s.target.call (mkDirname (s.group i)) c
  if s.done i + 1 < (doChild doUnlink (pid i)).length then
    { s with target := target, done := Function.update s.done i (s.done i + 1) }
  else
    { s with
      st := next s.st (.doChild i)
      target := target
      done := Function.update s.done i 0 }

/-- `mkdir` fails when the directory is there already. -/
def fileEnabled (s : FileSt cfg) : FileAct cfg → Prop
  | .proto a =>
    enabled s.st a ∧ (∀ i, a ≠ .doChild i) ∧
      (a = .fork → makesDir s.st → mkDirname (s.st.threadGroup + 1) ∉ s.target.dirs)
  | .call i =>
    enabled s.st (.doChild i) ∧
      ∃ c ∈ nextCall doUnlink pid s i, c.possible s.target (mkDirname (s.group i))

instance (s : FileSt cfg) (a : FileAct cfg) : Decidable (fileEnabled doUnlink pid s a) := by
  cases a <;> unfold fileEnabled <;> infer_instance

def fileNext (s : FileSt cfg) : FileAct cfg → FileSt cfg
  | .proto .fork => fileFork s
  | .proto .removeDir => fileRemove s
  | .proto a => { s with st := next s.st a }
  | .call i =>
    match nextCall doUnlink pid s i with
    | some c => fileCall doUnlink pid s i c
    | none => s

def FileStep : FileSt cfg → FileAct cfg → FileSt cfg → Prop :=
  Lts.Guarded (fileEnabled doUnlink pid) (fileNext doUnlink pid)

end

end Synctest
