import TestUnion.Decimal
import TestUnion.Words
import Mathlib.Data.Finset.Basic

/-!
# clean-dead-qgroups: the scripts

* `Qgroup`          a quota group, `level/id`;
* `Btrfs`           the commands `btrfs qgroup remove` and `btrfs qgroup destroy`, with what they do to the
                    groups and to the relations of children and parents;
* `readIds`, `readRows`, `deadRow`   the loops of `list-dead-qgroups`, with `$1` as `cap`;
* `listDeadQgroups`, `removeGroup`, `cleanDeadQgroups`   the scripts.

The scripts get the lines that `btrfs subvol list -a`, `btrfs qgroup show` and `btrfs qgroup show -p`
print.  The directory is one word for the shell.
-/

namespace Qgroups

abbrev Word := List Char

structure Qgroup where
  level : ℕ
  id : ℕ
  deriving DecidableEq

def Qgroup.text (q : Qgroup) : Word := Nat.toDigits 10 q.level ++ '/' :: Nat.toDigits 10 q.id

/-- A relation is a child with a parent.  The commands for the file system of `$dir`: `remove` deletes
one relation, `destroy` a group that has no relation; apart from that nothing changes. -/
structure Btrfs (σ : Type*) where
  groups : σ → Finset Qgroup
  relations : σ → Finset (Qgroup × Qgroup)
  remove : Word → Word → σ → σ
  destroy : Word → σ → σ
  groups_remove : ∀ g p s, groups (remove g p s) = groups s
  relations_remove : ∀ (g p : Qgroup) s,
    relations (remove g.text p.text s) = (relations s).erase (g, p)
  groups_destroy : ∀ (g : Qgroup) s, groups (destroy g.text s) =
    if ∃ r ∈ relations s, r.1 = g ∨ r.2 = g then groups s else (groups s).erase g
  relations_destroy : ∀ g s, relations (destroy g s) = relations s

/-! ## list-dead-qgroups -/

/-- `/^ID (\d+)/` at the start of the text -/
def matchId : List Char → Option Word
  | 'I' :: 'D' :: ' ' :: s =>
    if s.takeWhile Char.isDigit = [] then none else some (s.takeWhile Char.isDigit)
  | _ => none

/-- `/ID (\d+)/`, the leftmost match -/
def findId : List Char → Option Word
  | [] => none
  | c :: s => (matchId (c :: s)).or (findId s)

/-- `/^0\/(\d+)/` -/
def matchRow : List Char → Option Word
  | '0' :: '/' :: s =>
    if s.takeWhile Char.isDigit = [] then none else some (s.takeWhile Char.isDigit)
  | _ => none

/-- The keys of `%id`.  After a match that fails `$1` is what it was; the key for its undefined value
is the empty text. -/
def readIds : Option Word → List (List Char) → List Word
  | _, [] => []
  | cap, line :: lines =>
    let cap := (findId line).or cap
    cap.getD [] :: readIds cap lines

/-- what the rows are replaced by -/
def readRows : Option Word → List (List Char) → List (Option Word)
  | _, [] => []
  | cap, line :: lines =>
    let cap := (matchRow line).or cap
    cap :: readRows cap lines

/-- the number that a text starts with -/
def numeric (w : Word) : ℕ := Nat.ofDigitChars 10 (w.takeWhile Char.isDigit) 0

/-- `/^\d+$/`; the end of the text may be before a newline. -/
def matchNumber (w : Word) : Bool :=
  let w := if w.getLast? = some '\n' then w.dropLast else w
  !w.isEmpty && w.all Char.isDigit

/-- what the second loop prints for a row -/
def deadRow (ids : List Word) (row : Option Word) : Option Word :=
  let w := row.getD []
  if numeric w = 5 then none
  else if matchNumber w = false then none
  else if w ∈ ids then none
  else some ('0' :: '/' :: w)

/-- the groups that the second loop prints -/
def deadRows (subvolList qgroupShow : List (List Char)) : List Word :=
  (readRows none qgroupShow).filterMap (deadRow (readIds none subvolList))

def listDeadQgroups (subvolList qgroupShow : List (List Char)) : List Char :=
  (deadRows subvolList qgroupShow).flatMap fun w => w ++ ['\n']

/-! ## remove-group -/

/-- `\s` -/
def isSpace (c : Char) : Bool :=
  c = ' ' || c = '\t' || c = '\n' || c = '\r' || c = '\x0b' || c = '\x0c'

section
variable {σ : Type*} (B : Btrfs σ)

/-- the body of the inner loop; a missing field is the empty text -/
def removeRow (g : Word) (s : σ) (line : List Char) : σ :=
  let l := words isSpace line
  if l.getD 0 [] ≠ g then s
  else
    let parents := l.getD 3 []
    let s :=
      if parents ≠ ['-', '-', '-'] then (fields ',' parents).foldl (fun s p => B.remove g p s) s
      else s
    B.destroy g s

def removeGroup (isDir : Bool) (argv : List Word) (qgroupShowP : List (List Char)) (s : σ) : σ :=
  if isDir = false then s
  else argv.foldl (fun s g => qgroupShowP.foldl (removeRow B g) s) s

/-! ## clean-dead-qgroups -/

/-- the separators of the shell; the newlines that it strips at the end separate nothing -/
def isIfs (c : Char) : Bool := c = ' ' || c = '\t' || c = '\n'

def cleanDeadQgroups (dir : Word) (isDir : Bool)
    (subvolList qgroupShow qgroupShowP : List (List Char)) (s : σ) : σ :=
  if dir = [] then s
  else removeGroup B isDir (words isIfs (listDeadQgroups subvolList qgroupShow)) qgroupShowP s

end

end Qgroups
