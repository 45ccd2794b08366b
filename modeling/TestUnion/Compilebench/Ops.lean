import TestUnion.Compilebench.Trees
import TestUnion.Lts

/-!
# compilebench: the datasets, the directory hashes and the operations

* `Quadruple`, `init`   the four datasets as they are read, and `dataset.__init__`;
* `Hash`, `Stat`, `State`   the four directory hashes, the statistics, and a state of the run;
* `patchOneDir` ... `createOneDir`   the operations, `createInitial` the loop before them;
* `Step`           the transition system: the rounds of the initial loop, then any operation.

An operation gets the random choices it makes; a choice it cannot make is `Exn.noDraw`.  A hash is
the set of its keys, since its values are always 1.  A statistic is the list of the times that were
added to it.
-/

namespace Compilebench

open FileTree PosixPath PosixCalls

/-- The four datasets.  Their names are the names of files inside a source tree. -/
structure Quadruple where
  unpatched : Dataset
  patched : Dataset
  unpatchedCompiled : Dataset
  compiled : Dataset
  inside : ∀ x, x ∈ unpatched ∨ x ∈ patched ∨ x ∈ unpatchedCompiled ∨ x ∈ compiled → Local x

/-- the datasets after `dataset.__init__` -/
structure Data where
  unpatched : Entries
  patched : Entries
  unpatchedCompiled : Entries
  compiled : Entries

/-! ## dataset.__init__ -/

/-- `for x in xs: try: del d[x]` -/
def stripNamed (xs : List Str) (d : Dataset) : Dataset := xs.foldl (fun d x => d.erase x) d

/-- `for x in xs: if x in d and d[x] == ref[x]: del d[x]` -/
def stripSame (xs : List Str) (ref d : Dataset) : Dataset :=
  xs.foldl (fun d x => if x ∈ d ∧ d.lookup x = ref.lookup x then d.erase x else d) d

section
variable (env : Env) (q : Quadruple)

def reducedUnpatchedCompiled : Dataset :=
  stripNamed (env.keys q.unpatched) q.unpatchedCompiled

def reducedPatched : Dataset := stripSame (env.keys q.unpatched) q.unpatched q.patched

def reducedCompiled : Dataset :=
  stripSame (env.keys (reducedUnpatchedCompiled env q)) (reducedUnpatchedCompiled env q)
    (stripNamed (env.keys q.patched) q.compiled)

def init (clocks : Clock × Clock × Clock) (t : Disk) : Except Exn (Data × Disk) := do
  let (unpatched, t) ← nativeOrder env q.unpatched clocks.1 t
  let (patched, t) ← nativeOrder env (reducedPatched env q) clocks.2.1 t
  let unpatchedCompiled ← randomOrder env (reducedUnpatchedCompiled env q)
  let (compiled, t) ← nativeOrder env (reducedCompiled env q) clocks.2.2 t
  return (⟨unpatched, patched, unpatchedCompiled, compiled⟩, t)

end

/-! ## states -/

inductive Hash where
  | patched
  | unpatched
  | unpatchedCompiled
  | patchedCompiled
  deriving DecidableEq, Repr

inductive Stat where
  | initialCreate
  | create
  | patch
  | compile
  | clean
  | delete
  | deleteCompiled
  | read
  | readCompiled
  | stat
  | statCompiled
  deriving DecidableEq, Repr

structure State where
  disk : Disk
  data : Data
  dirs : Hash → Finset Str
  stats : Stat → List Clock
  /-- rounds of the initial loop -/
  initial : ℕ

/-- `add_times` -/
def State.addTimes (s : State) (counter : Stat) (clock : Clock) : State :=
  { s with stats := Function.update s.stats counter (s.stats counter ++ [clock]) }

/-- `del hash[dir]` -/
def State.del (s : State) (hash : Hash) (dir : Str) : State :=
  { s with dirs := Function.update s.dirs hash ((s.dirs hash).erase dir) }

/-- `hash[dir] = 1` -/
def State.set (s : State) (hash : Hash) (dir : Str) : State :=
  { s with dirs := Function.update s.dirs hash (insert dir (s.dirs hash)) }

/-- `rnd.choice(xrange(0, len(good)))` and `rnd.choice` of the keys -/
structure Pick where
  index : ℕ
  dir : Str

def pick {α : Type} (good : List α) (dirs : α → Finset Str) (p : Pick) : Except Exn (α × Str) :=
  match good[p.index]? with
  | none => .error .noDraw
  | some ch => if p.dir ∈ dirs ch then .ok (ch, p.dir) else .error .noDraw

/-! ## patch, compile, clean -/

/-- a dataset, the hash a directory is taken from and the hash it goes to -/
structure Move where
  dataset : Entries
  source : Hash
  dest : Hash

def patchOp (data : Data) : List Move :=
  [⟨data.patched, .unpatched, .patched⟩, ⟨data.compiled, .unpatchedCompiled, .patchedCompiled⟩]

def compileOp (data : Data) : List Move :=
  [⟨data.unpatchedCompiled, .unpatched, .unpatchedCompiled⟩,
    ⟨data.compiled, .patched, .patchedCompiled⟩]

def cleanOp (data : Data) : List Move :=
  [⟨data.compiled, .patchedCompiled, .patched⟩,
    ⟨data.unpatchedCompiled, .unpatchedCompiled, .unpatched⟩]

def goodMoves (s : State) (op : List Move) : List Move :=
  op.filter fun x => 0 < (s.dirs x.source).card

/-- What `patch_one_dir`, `compile_one_dir` and `clean_one_dir` share; `work` is the function that
changes the tree. -/
def moveOneDir (op : List Move) (work : Entries → Str → Disk → Except Exn Disk) (counter : Stat)
    (p : Pick) (clock : Clock) (s : State) : Except Exn (ℕ × State) :=
  let good := goodMoves s op
  if good.length = 0 then .ok (0, s)
  else do
    let (ch, dir) ← pick good (fun x => s.dirs x.source) p
    if dir = [] then return (0, s)
    let t ← work ch.dataset dir s.disk
    return (1, (({ s with disk := t }.del ch.source dir).set ch.dest dir).addTimes counter clock)

section
variable (env : Env)

/-- `draw` is the result of `rnd.randint(0, 3)` -/
def patchOneDir (p : Pick) (draw : ℕ) (clock : Clock) (s : State) : Except Exn (ℕ × State) :=
  moveOneDir (patchOp s.data) (fun dataset dir t =>
    if draw ≤ 3 then runDirectory env dataset dir (draw = 1) true clock t else .error .noDraw)
    .patch p clock s

def compileOneDir (p : Pick) (clock : Clock) (s : State) : Except Exn (ℕ × State) :=
  moveOneDir (compileOp s.data) (fun dataset dir t =>
    runDirectory env dataset dir false false clock t) .compile p clock s

/-- The source tests the chosen hash once more. -/
def cleanOneDir (p : Pick) (clock : Clock) (s : State) : Except Exn (ℕ × State) :=
  let good := goodMoves s (cleanOp s.data)
  if good.length = 0 then .ok (0, s)
  else
    match good[p.index]? with
    | none => .error .noDraw
    | some ch =>
      if (s.dirs ch.source).card = 0 then .ok (0, s)
      else if p.dir ∉ s.dirs ch.source then .error .noDraw
      else if p.dir = [] then .ok (0, s)
      else do
        let t ← cleanDirectory env ch.dataset p.dir clock s.disk
        return (1, (({ s with disk := t }.del ch.source p.dir).set ch.dest p.dir).addTimes .clean
          clock)

/-! ## delete, read, stat -/

def allHashes : List Hash := [.patched, .unpatched, .unpatchedCompiled, .patchedCompiled]

def goodHashes (s : State) : List Hash := allHashes.filter fun x => 0 < (s.dirs x).card

/-- `ch == dset.unpatched_compiled_dirs or ch == dset.patched_compiled_dirs`: dicts are compared by
their contents -/
def looksCompiled (s : State) (ch : Hash) : Prop :=
  s.dirs ch = s.dirs .unpatchedCompiled ∨ s.dirs ch = s.dirs .patchedCompiled

instance (s : State) (ch : Hash) : Decidable (looksCompiled s ch) := by
  unfold looksCompiled
  infer_instance

def deleteOneDir (p : Pick) (clock : Clock) (s : State) : Except Exn (ℕ × State) :=
  let good := goodHashes s
  if good.length = 0 then .ok (0, s)
  else do
    let (ch, dir) ← pick good s.dirs p
    let t ← rmrf env dir s.disk
    let s := { s with disk := t }.del ch dir
    return (1, if looksCompiled s ch then s.addTimes .deleteCompiled clock
      else s.addTimes .delete clock)

/-- What `read_one_dir` and `stat_one_dir` share; `work` is the function that goes through the
tree. -/
def visitOneDir (work : Str → Disk → Except Exn Unit) (plain compiled : Stat) (p : Pick)
    (clock : Clock) (s : State) : Except Exn (ℕ × State) :=
  let good := goodHashes s
  if good.length = 0 then .ok (0, s)
  else do
    let (ch, dir) ← pick good s.dirs p
    work dir s.disk
    return (1, if looksCompiled s ch then s.addTimes compiled clock else s.addTimes plain clock)

def readOneDir (p : Pick) (clock : Clock) (s : State) : Except Exn (ℕ × State) :=
  visitOneDir (fun dir t => do
    let _ ← readDirtree env dir clock t
    return ()) .read .readCompiled p clock s

def statOneDir (p : Pick) (clock : Clock) (s : State) : Except Exn (ℕ × State) :=
  visitOneDir (statDirtree env) .stat .statCompiled p clock s

/-! ## create -/

def kernelName (n : ℕ) : Str := "kernel-".toList ++ Nat.toDigits 10 n

/-- The draws of `rnd.randint(100, 100000)`: all but the last one name something that exists. -/
def freeKernel (t : Disk) : List ℕ → Except Exn Str
  | [] => .error .noDraw
  | draw :: draws =>
    if draw < 100 ∨ 100000 < draw then .error .noDraw
    else if «exists» t (join env.benchdir (kernelName draw)) then freeKernel t draws
    else if draws = [] then .ok (kernelName draw)
    else .error .noDraw

def createOneDir (draws : List ℕ) (clock : Clock) (s : State) : Except Exn (ℕ × State) := do
  let dirname ← freeKernel env s.disk draws
  let t ← runDirectory env s.data.unpatched dirname false false clock s.disk
  return (1, ({ s with disk := t }.set .unpatched dirname).addTimes .create clock)

/-- one round of the loop over `xrange(0, options.initial_dirs)` -/
def createInitial (clock : Clock) (s : State) : Except Exn State := do
  let dirname := kernelName s.initial
  let t ← runDirectory env s.data.unpatched dirname false false clock s.disk
  let s := ({ s with disk := t }.set .unpatched dirname).addTimes .initialCreate clock
  return { s with initial := s.initial + 1 }

/-! ## runs -/

inductive Op where
  | patch (p : Pick) (draw : ℕ) (clock : Clock)
  | compile (p : Pick) (clock : Clock)
  | clean (p : Pick) (clock : Clock)
  | delete (p : Pick) (clock : Clock)
  | create (draws : List ℕ) (clock : Clock)
  | read (p : Pick) (clock : Clock)
  | stat (p : Pick) (clock : Clock)

def Op.run : Op → State → Except Exn (ℕ × State)
  | .patch p draw clock => patchOneDir env p draw clock
  | .compile p clock => compileOneDir env p clock
  | .clean p clock => cleanOneDir env p clock
  | .delete p clock => deleteOneDir env p clock
  | .create draws clock => createOneDir env draws clock
  | .read p clock => readOneDir env p clock
  | .stat p clock => statOneDir env p clock

/-- an operation comes with the value it returns -/
inductive Act where
  | initial (clock : Clock)
  | op (o : Op) (ret : ℕ)

inductive Step (initialDirs : ℕ) : State → Act → State → Prop
  | initial {s s' clock} (lt : s.initial < initialDirs) (run : createInitial env clock s = .ok s') :
    Step initialDirs s (.initial clock) s'
  | op {s s' o ret} (eq : s.initial = initialDirs) (run : o.run env s = .ok (ret, s')) :
    Step initialDirs s (.op o ret) s'

/-- the state before the initial loop, for a tree in which the benchmark was started -/
structure Start (q : Quadruple) (t : Disk) (s : State) : Prop where
  init : ∃ clocks, init env q clocks t = .ok (s.data, s.disk)
  dirs : ∀ hash, s.dirs hash = ∅
  stats : ∀ counter, s.stats counter = []
  initial : s.initial = 0

end

end Compilebench
