import TestUnion.FileTree
import TestUnion.PosixPath

/-!
# System calls on a file tree

The process runs in the root directory of the tree; a call that fails changes nothing.

* `resolve`, `target`   the node a string leads to; the name and the directory of a node to be made
                        or removed;
* `mkdir`, `openAppend`, `openRead`, `unlink`, `rmdir`, `listdir`, `stat`, `exists`, `isdir`   the
                        calls;
* `setSize`             what writing and truncating an open file does;
* `makedirs`, `walk`    `os.makedirs` and `os.walk`, with what `walk` is used for as its `body`.

For strings without `".."` the lemmas say what a call does at the path of the string.
-/

namespace PosixCalls

open FileTree PosixPath

abbrev Disk := FileTree.Tree Name

inductive Errno where
  | enoent
  | eexist
  | enotdir
  | eisdir
  | enotempty
  deriving DecidableEq, Repr

/-! ## resolution -/

def resolveFrom (t : Disk) : Path → List Comp → Except Errno Path
  | p, [] => .ok p
  | p, c :: cs =>
    if t.get p ≠ some .dir then .error .enotdir
    else
      match c with
      | .stay => resolveFrom t p cs
      | .up => resolveFrom t p.tail cs
      | .down n => if t.get (n :: p) = none then .error .enoent else resolveFrom t (n :: p) cs

def resolve (t : Disk) (s : Str) : Except Errno Path :=
  if s = [] then .error .enoent else resolveFrom t [] (components s)

/-- The last component has to be a name; `e` is the error when it is not. -/
def target (e : Errno) (t : Disk) (s : Str) : Except Errno (Name × Path) :=
  if s = [] then .error .enoent
  else
    match resolveFrom t [] (components s).dropLast with
    | .error e' => .error e'
    | .ok p =>
      if t.get p ≠ some .dir then .error .enotdir
      else
        match (components s).getLast? with
        | some (.down n) => .ok (n, p)
        | _ => .error e

/-! ## calls -/

def «exists» (t : Disk) (s : Str) : Bool :=
  match resolve t s with
  | .ok p => t.get p ≠ none
  | .error _ => false

def isdir (t : Disk) (s : Str) : Bool :=
  match resolve t s with
  | .ok p => t.get p = some .dir
  | .error _ => false

/-- The file at `n :: p` gets a size; it is made if it is not there. -/
def setSize (n : Name) (p : Path) (k : ℕ) (t : Disk) : Disk :=
  if h : t.get p = some .dir ∧ t.get (n :: p) ≠ some .dir then t.put n p (.file k) h.1 h.2 else t

def mkdir (s : Str) (t : Disk) : Except Errno Disk :=
  match target .eexist t s with
  | .error e => .error e
  | .ok (n, p) =>
    if h : t.get p = some .dir ∧ t.get (n :: p) = none then
      .ok (t.put n p .dir h.1 (by rw [h.2]; exact (Option.some_ne_none _).symm))
    else .error .eexist

/-- `file(s, 'a+')`: the open file is known by its name and directory -/
def openAppend (s : Str) (t : Disk) : Except Errno ((Name × Path) × Disk) :=
  match target .eisdir t s with
  | .error e => .error e
  | .ok (n, p) =>
    match t.get (n :: p) with
    | some .dir => .error .eisdir
    | some (.file _) => .ok ((n, p), t)
    | none => .ok ((n, p), setSize n p 0 t)

def unlink (s : Str) (t : Disk) : Except Errno Disk :=
  match target .eisdir t s with
  | .error e => .error e
  | .ok (n, p) =>
    if t.get (n :: p) = none then .error .enoent
    else if hd : t.get (n :: p) = some .dir then .error .eisdir
    else .ok (t.erase n p (Tree.no_children_of_ne_dir hd))

def rmdir (s : Str) (t : Disk) : Except Errno Disk :=
  match target .enotempty t s with
  | .error e => .error e
  | .ok (n, p) =>
    if t.get (n :: p) = none then .error .enoent
    else if t.get (n :: p) ≠ some .dir then .error .enotdir
    else if h : t.Childless (n :: p) then .ok (t.erase n p (Tree.childless_iff.mp h))
    else .error .enotempty

def listdir (L : Listing Name) (t : Disk) (s : Str) : Except Errno (List Name) :=
  match resolve t s with
  | .error e => .error e
  | .ok p => if t.get p = some .dir then .ok (L.list t p) else .error .enotdir

/-- `file(s)`: the size of the file that is opened for reading -/
def openRead (s : Str) (t : Disk) : Except Errno ℕ :=
  match resolve t s with
  | .error e => .error e
  | .ok p =>
    match t.get p with
    | some (.file k) => .ok k
    | some .dir => .error .eisdir
    | none => .error .enoent

def stat (s : Str) (t : Disk) : Except Errno Unit := (resolve t s).map fun _ => ()

/-! ## os.makedirs -/

def mkdirKeep (s : Str) (t : Disk) : Except Errno Unit × Disk :=
  match mkdir s t with
  | .error e => (.error e, t)
  | .ok t' => (.ok (), t')

/-- The recursion goes to a shorter string; it stops in a state that may have changed before an
error. -/
def makedirsFrom : ℕ → Str → Disk → Except Errno Unit × Disk
  | 0, _, t => (.error .enoent, t)
  | fuel + 1, name, t =>
    let (head, tail) := (dirname name, basename name)
    let (head, tail) := if tail = [] then (dirname head, basename head) else (head, tail)
    if head ≠ [] ∧ tail ≠ [] ∧ «exists» t head = false then
      match makedirsFrom fuel head t with
      | (.error e, t) =>
        if e ≠ .eexist then (.error e, t)
        else if tail = ['.'] then (.ok (), t)
        else mkdirKeep name t
      | (.ok (), t) => if tail = ['.'] then (.ok (), t) else mkdirKeep name t
    else mkdirKeep name t

def makedirs (name : Str) (t : Disk) : Except Errno Unit × Disk :=
  makedirsFrom (name.length + 1) name t

/-! ## os.walk -/

/-- The loop `for root, dirs, files in os.walk(top, topdown)` with its body.  The walk is as deep as
`fuel` at most; an error of `listdir` ends the walk of that directory. -/
def walk {σ ε : Type} (L : Listing Name) (tree : σ → Disk) (tooDeep : ε) (topdown : Bool)
    (body : Str → List Name → List Name → σ → Except ε σ) : ℕ → Str → σ → Except ε σ
  | 0, _, _ => .error tooDeep
  | fuel + 1, top, s =>
    match listdir L (tree s) top with
    | .error _ => .ok s
    | .ok names => do
      let dirs := names.filter fun n => isdir (tree s) (join top n.1)
      let files := names.filter fun n => !isdir (tree s) (join top n.1)
      let s ← if topdown then body top dirs files s else .ok s
      let s ← dirs.foldlM (fun s n => walk L tree tooDeep topdown body fuel (join top n.1) s) s
      if topdown then .ok s else body top dirs files s

end PosixCalls
