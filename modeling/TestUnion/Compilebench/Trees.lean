import TestUnion.PosixCalls

/-!
# compilebench: the functions that work on one directory tree

* `Size`, `Dataset`, `Entries`   the size of a file as the dataset gives it, a dataset as a dict, and
                   as the list of pairs that the program makes of the dict;
* `Env`            what stays the same over a run: the buffer size, the working directory, which is
                   given without `".."`, and the orders in which directories and dicts are listed,
                   sorted and shuffled;
* `Clock`          the differences of the two `os.times` readings of a function, in clock ticks;
* `rmrf`, `cleanDirectory`, `runDirectory`, `nativeOrder`, `randomOrder`, `readDirtree`,
  `statDirtree`    the functions of these names.

A loop of the source that may not end is bounded here, and `Exn.endless` is what it comes to.
-/

namespace Compilebench

open FileTree PosixPath PosixCalls

structure Size where
  digits : Str
  isNat : digits ≠ [] ∧ ∀ c ∈ digits, c.isDigit = true
  deriving DecidableEq

/-- `int(sz)` -/
def Size.int (sz : Size) : ℕ := Nat.ofDigitChars 10 sz.digits 0

abbrev Dataset := Finmap fun _ : Str => Size

abbrev Entries := List (Str × Size)

inductive Exn where
  | os (e : Errno)
  | keyError
  | zeroDivision
  | endless
  | noDraw
  deriving DecidableEq, Repr

def call {α : Type} : Except Errno α → Except Exn α
  | .ok a => .ok a
  | .error e => .error (.os e)

structure Clock where
  user : ℤ
  system : ℤ
  real : ℤ
  deriving DecidableEq, Repr

structure Env where
  bufsize : ℤ
  benchdir : Str
  plain : Plain benchdir
  ls : Listing Name
  keys : Dataset → List Str
  keys_nodup : ∀ d, (keys d).Nodup
  mem_keys : ∀ d x, x ∈ keys d ↔ x ∈ d
  sort : (Str → Str → ℤ) → List Str → List Str
  sort_perm : ∀ f l, (sort f l).Perm l
  shuffle : List Str → List Str
  shuffle_perm : ∀ l, (shuffle l).Perm l

/-- a walk is no deeper than the number of nodes -/
def depth (t : Disk) : ℕ := t.nodes.keys.card + 1

/-- the comparison of two strings -/
def cmp (x y : Str) : ℤ := if x < y then -1 else if x = y then 0 else 1

def pathcomp (x y : Str) : ℤ :=
  let dirx := dirname x
  let diry := dirname y
  if dirx <:+: y then -1 else if diry <:+: x then 1 else cmp x y

/-- `dhash[x]` -/
def getItem (dhash : Dataset) (x : Str) : Except Exn Size :=
  match dhash.lookup x with
  | some sz => .ok sz
  | none => .error .keyError

/-- the pairs of a dict for a list of its keys -/
def withSizes (dhash : Dataset) (keys : List Str) : Except Exn Entries :=
  keys.foldlM (fun ret x => do
    let sz ← getItem dhash x
    return ret ++ [(x, sz)]) []

/-! ## loops on an open file -/

/-- Reads of `bufsize` bytes until nothing is read, with `left` bytes to go. -/
def readLoop (bufsize : ℤ) : ℕ → ℕ → ℕ → Except Exn ℕ
  | 0, _, _ => .error .endless
  | fuel + 1, left, totalread =>
    let readbuf := if bufsize < 0 then left else min bufsize.toNat left
    if readbuf = 0 then .ok totalread
    else readLoop bufsize fuel (left - readbuf) (totalread + readbuf)

def readAll (bufsize : ℤ) (size : ℕ) : Except Exn ℕ := readLoop bufsize (size + 1) size 0

/-- `while sz > 0`: a write appends `buf[:cur]`, or `buf`, to a file of size `size`; `buf` has
`bufsize` bytes, and none when `bufsize` is negative. -/
def writeLoop (bufsize : ℤ) : ℕ → ℤ → ℕ → Except Exn ℕ
  | 0, sz, size => if sz > 0 then .error .endless else .ok size
  | fuel + 1, sz, size =>
    if sz > 0 then
      let cur := min sz bufsize
      let written := if cur ≠ bufsize then min cur.toNat bufsize.toNat else bufsize.toNat
      writeLoop bufsize fuel (sz - cur) (size + written)
    else .ok size

section
variable (env : Env)

/-! ## removing and reading -/

def rmrf (dirname : Str) (t : Disk) : Except Exn Disk :=
  walk env.ls id .endless false (fun root dirs files t => do
    let t ← files.foldlM (fun t name => call (unlink (join root name.1) t)) t
    dirs.foldlM (fun t name => call (rmdir (join root name.1) t)) t)
    (depth t) (join env.benchdir dirname) t

/-- The result is the number of bytes read. -/
def readDirtree (dirname : Str) (clock : Clock) (t : Disk) : Except Exn ℕ := do
  let totalread ← walk env.ls (fun _ => t) .endless true (fun root _ files totalread =>
    files.foldlM (fun totalread name => do
      let size ← call (openRead (join root name.1) t)
      let n ← readAll env.bufsize size
      return totalread + n) totalread) (depth t) (join env.benchdir dirname) 0
  if clock.real = 0 then .error .zeroDivision else return totalread

def statDirtree (dirname : Str) (t : Disk) : Except Exn Unit :=
  walk env.ls (fun _ => t) .endless false (fun root dirs files _ => do
    files.foldlM (fun _ name => call (stat (join root name.1) t)) ()
    dirs.foldlM (fun _ name => call (stat (join root name.1) t)) ())
    (depth t) (join env.benchdir dirname) ()

def cleanDirectory (dataset : Entries) (dirname : Str) (clock : Clock) (t : Disk) :
    Except Exn Disk := do
  let curdir := join env.benchdir dirname
  let t ← dataset.foldlM (fun t (x, _) => call (unlink (join curdir x) t)) t
  if clock.real = 0 then .error .zeroDivision else return t

/-! ## run_directory -/

/-- `while dname`: `dname` and the directories above it are seen -/
def noteDirs : ℕ → Str → Finset Str → Except Exn (Finset Str)
  | 0, _, _ => .error .endless
  | fuel + 1, dname, seendirs =>
    if dname = [] then .ok seendirs else noteDirs fuel (dirname dname) (insert dname seendirs)

/-- An exception of `makedirs` is dropped, what it has made before stays. -/
def ensureDir (curdir dname : Str) (seendirs : Finset Str) (t : Disk) :
    Except Exn (Finset Str × Disk) :=
  if dname ≠ [] ∧ dname ∉ seendirs then do
    let t := (makedirs (join curdir dname) t).2
    let seendirs ← noteDirs (dname.length + 1) dname seendirs
    return (seendirs, t)
  else return (seendirs, t)

def unlinkQuiet (fname : Str) (t : Disk) : Disk :=
  match unlink fname t with
  | .ok t => t
  | .error _ => t

/-- What is done with the file after it was opened with `'a+'`: `seek` does not change where writes
go. -/
def rewrite (readfirst : Bool) (n : Name) (p : Path) (sz : Size) (t : Disk) : Except Exn Disk := do
  let size := (t.size (n :: p)).getD 0
  let t ← if readfirst then do
      let _ ← readAll env.bufsize size
      pure (setSize n p 0 t)
    else pure t
  let size ← writeLoop env.bufsize sz.int sz.int ((t.size (n :: p)).getD 0)
  return setSize n p size t

/-- one round of the loop over the dataset -/
def runFile (curdir : Str) (unlinkFirst readfirst : Bool) (state : Finset Str × Disk)
    (entry : Str × Size) : Except Exn (Finset Str × Disk) := do
  let (x, sz) := entry
  let (seendirs, t) ← ensureDir curdir (dirname x) state.1 state.2
  let fname := join curdir x
  let t := if unlinkFirst then unlinkQuiet fname t else t
  let ((n, p), t) ← call (openAppend fname t)
  let t ← rewrite env readfirst n p sz t
  return (seendirs, t)

def runDirectory (dataset : Entries) (dirname : Str) (unlinkFirst readfirst : Bool) (clock : Clock)
    (t : Disk) : Except Exn Disk := do
  let curdir := join env.benchdir dirname
  let t := (mkdirKeep curdir t).2
  let (_, t) ← dataset.foldlM (runFile env curdir unlinkFirst readfirst) (∅, t)
  if clock.real = 0 then .error .zeroDivision else return t

/-! ## the orders of the datasets -/

def randomOrder (dhash : Dataset) : Except Exn Entries :=
  withSizes dhash (env.shuffle (env.keys dhash))

def nativeName (i : ℕ) : Str := "native-".toList ++ Nat.toDigits 10 i

/-- the first `native-%d` from `i` on that does not exist -/
def freeNative (t : Disk) : ℕ → ℕ → Except Exn Str
  | 0, _ => .error .endless
  | fuel + 1, i =>
    if «exists» t (join env.benchdir (nativeName i)) then freeNative t fuel (i + 1)
    else .ok (nativeName i)

def nativeOrder (dhash : Dataset) (clock : Clock) (t : Disk) : Except Exn (Entries × Disk) := do
  let dirname ← freeNative env t (t.nodes.keys.card + 1) 0
  let fullpath := join env.benchdir dirname
  let sorted := env.sort pathcomp (env.keys dhash)
  let tmplist ← withSizes dhash sorted
  let t ← runDirectory env tmplist dirname false false clock t
  let baselen := fullpath.length + 1
  let native ← walk env.ls (fun _ => t) .endless true (fun root _ files native =>
    files.foldlM (fun native name => do
      let str := (join root name.1).drop baselen
      let sz ← getItem dhash str
      return native ++ [(str, sz)]) native) (depth t) fullpath []
  let t ← rmrf env dirname t
  let t ← call (rmdir fullpath t)
  return (native, t)

end

end Compilebench
