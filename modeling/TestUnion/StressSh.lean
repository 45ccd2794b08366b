import Mathlib.Data.Char
import Mathlib.Data.List.Lex
import Mathlib.Data.List.Nodup
import Mathlib.Data.List.Sort
import TestUnion.Decimal
import TestUnion.Interleaved

/-!
# stress.sh: the workers

* `Node`, `Store`   what a path names, and the files of the machine;
* `Env`             the options of the script, its process id, and what `md5sum` and `sort` print;
* `sumsText`        the sorted `md5sum` lines of some files;
* `Pc`, `Work`      where worker `p` is in its loop, and its next step: a command goes node by node, so
                    the other workers come in between;
* `Started`         the state after the checksums of the content directory were written;
* `no_miscompare`   no worker ever reports that files miscompare, and what is compared is the
                    whole content.
-/

namespace StressSh

open Interleaved Lts

abbrev Word := List Char

abbrev Path := List Word

inductive Node where
  | dir
  | file (data : Word)
  | link (target : Word)
  deriving DecidableEq, Repr

abbrev Store := Path → Option Node

/-- What `sort` prints does not depend on the order of the lines that it gets. -/
structure Env where
  mountpoint : Path
  content : Path
  nconcurrent : ℕ
  /-- `$$` -/
  pid : ℕ
  /-- the file system that a path is on -/
  device : Path → ℕ
  /-- the line for a file below the current directory -/
  md5sum : Path → Word → Word
  sort : List Word → List Word
  sort_perm : ∀ l l' : List Word, l.Perm l' → sort l = sort l'

section
variable (e : Env)

/-- `$mountpoint/stress` -/
def Env.stress : Path := e.mountpoint ++ ["stress".toList]

def Env.sums : Path := e.stress ++ ["content.sums".toList]

/-- `$mountpoint/stress/$p` -/
def Env.dir (p : ℕ) : Path := e.stress ++ [Nat.toDigits 10 p]

/-- `basename $content` -/
def Env.base : Word := e.content.getLast?.getD ['/']

/-- `$mountpoint/stress/$p/$base` -/
def Env.copy (p : ℕ) : Path := e.dir p ++ [e.base]

/-- `/tmp/stress.$$.$p` -/
def Env.tmp (p : ℕ) : Path :=
  ["tmp".toList, "stress.".toList ++ Nat.toDigits 10 e.pid ++ '.' :: Nat.toDigits 10 p]

def sumsText (files : List (Path × Word)) : Word :=
  (e.sort (files.map fun f => e.md5sum f.1 f.2)).flatMap fun line => line ++ ['\n']

/-- `files` lists the regular files of a tree, each of them once, in some order -/
structure Lists (tree : Store) (files : List (Path × Word)) : Prop where
  nodup : (files.map Prod.fst).Nodup
  mem : ∀ r d, (r, d) ∈ files ↔ tree r = some (.file d)

/-! ## the loop -/

inductive Pc where
  | sleep
  | rm
  | mkdir
  | cp
  /-- the files that were read so far -/
  | find (files : List (Path × Word))
  | diff
  | rmTmp
  /-- `file miscompares` -/
  | failed

def put (m : Store) (q : Path) (x : Node) : Store := Function.update m q (some x)

def remove (m : Store) (q : Path) : Store := Function.update m q none

/-- A step of worker `p`.  `rm -rf` removes nodes without children, `cp -dRx` copies the nodes of the
content directory that are on its file system, `find` comes to the regular files in any order. -/
inductive Work (p : ℕ) : Pc → Store → Pc → Store → Prop
  | wake {m} (low : 1 ≤ p) (high : p ≤ e.nconcurrent) : Work p .sleep m .rm m
  | rmNode {m r} (leaf : ∀ a, m (e.dir p ++ r ++ [a]) = none) :
    Work p .rm m .rm (remove m (e.dir p ++ r))
  | rmDone {m} (gone : ∀ r, m (e.dir p ++ r) = none) : Work p .rm m .mkdir m
  | mkdir {m} (new : m (e.dir p) = none) : Work p .mkdir m .cp (put m (e.dir p) .dir)
  | mkdirExists {m} (old : m (e.dir p) ≠ none) : Work p .mkdir m .cp m
  | cpNode {m r x} (source : m (e.content ++ r) = some x)
      (same : e.device (e.content ++ r) = e.device e.content)
      (parent : m ((e.copy p ++ r).dropLast) = some .dir) :
    Work p .cp m .cp (put m (e.copy p ++ r) x)
  | cpDone {m} (all : ∀ r x, m (e.content ++ r) = some x →
      e.device (e.content ++ r) = e.device e.content → m (e.copy p ++ r) = some x) :
    Work p .cp m (.find []) m
  | cdFails {m} (no : m (e.copy p) ≠ some .dir) : Work p (.find []) m .diff m
  | findFile {m files r d} (cd : m (e.copy p) = some .dir)
      (file : m (e.copy p ++ r) = some (.file d)) (new : r ∉ files.map Prod.fst) :
    Work p (.find files) m (.find (files ++ [(r, d)])) m
  | findDone {m files} (cd : m (e.copy p) = some .dir)
      (all : ∀ r d, m (e.copy p ++ r) = some (.file d) → r ∈ files.map Prod.fst) :
    Work p (.find files) m .diff (put m (e.tmp p) (.file (sumsText e files)))
  | diffSame {m d} (sums : m e.sums = some (.file d)) (tmp : m (e.tmp p) = some (.file d)) :
    Work p .diff m .rmTmp m
  | diffDiffers {m} (differ : ∀ d, m e.sums = some (.file d) → m (e.tmp p) ≠ some (.file d)) :
    Work p .diff m .failed m
  | rmTmp {m} : Work p .rmTmp m .rm (remove m (e.tmp p))

/-- The content directory is read whole: it is a directory, on one file system, that lies apart
from the directory of the test and from what the workers write. -/
structure Env.Apart (tree : Store) : Prop where
  isDir : tree [] = some .dir
  device : ∀ r, tree r ≠ none → e.device (e.content ++ r) = e.device e.content
  dir : ∀ p, Interleaved.Apart e.content (e.dir p)
  tmp : ∀ p, ¬ e.content <+: e.tmp p

/-- What an earlier run left does not matter. -/
structure Started (tree : Store) (s : Shared ℕ Pc Path (Option Node)) : Prop where
  content : sub s.mem e.content = tree
  sums : ∃ files, Lists tree files ∧ s.mem e.sums = some (.file (sumsText e files))
  sleep : ∀ p, s.pc p = .sleep

end

/-! ## footprints -/

section
variable {e : Env} {p p' : ℕ} {tree : Store} {q r : Path}

/-- what worker `p` may write to -/
def own (e : Env) (p : ℕ) : Set Path := {q | e.dir p <+: q ∨ q = e.tmp p}

theorem own_dir (r : Path) : e.dir p ++ r ∈ own e p := .inl (List.prefix_append _ _)

theorem own_copy (r : Path) : e.copy p ++ r ∈ own e p := by
  unfold Env.copy
  rw [List.append_assoc]
  exact own_dir _

theorem own_tmp : e.tmp p ∈ own e p := .inr rfl

theorem dir_apart (h : p ≠ p') : Interleaved.Apart (e.dir p) (e.dir p') :=
  apart_concat (fun hd => h (toDigits_inj hd)) _

/-- The directory of the test is not the one for temporary files. -/
theorem dir_not_prefix_tmp (w : Word) : ¬ e.dir p <+: ["tmp".toList, w] := by
  intro h
  have hlen := h.length_le
  unfold Env.dir Env.stress at h hlen
  cases hm : e.mountpoint with
  | nil =>
    rw [hm] at h
    obtain ⟨t, ht⟩ := h
    have hhead : "stress".toList = "tmp".toList := (List.cons.inj ht).1
    exact absurd hhead (by decide)
  | cons a as =>
    rw [hm] at hlen
    simp at hlen

theorem tmp_inj (h : e.tmp p = e.tmp p') : p = p' := by
  unfold Env.tmp at h
  simp only [List.cons.injEq, and_true, true_and] at h
  have hdigits := List.append_cancel_left h
  exact toDigits_inj (List.cons.inj hdigits).2

theorem footprint (e : Env) : Footprint (own e) (Work e) := by
  refine ⟨?_, ?_⟩
  · intro p p' q hne hq hq'
    rcases hq with hq | rfl
    · rcases hq' with hq' | rfl
      · obtain ⟨t, rfl⟩ := hq
        exact (dir_apart hne.symm).not_under t hq'
      · exact dir_not_prefix_tmp _ hq
    · rcases hq' with hq' | hq'
      · exact dir_not_prefix_tmp _ hq'
      · exact hne (tmp_inj hq')
  · intro p c m c' m' hw q hq
    have hput {l : Path} (hl : l ∈ own e p) (x : Option Node) : Function.update m l x q = m q := by
      apply Function.update_of_ne
      rintro rfl
      exact hq hl
    cases hw with
    | rmNode leaf => exact hput (own_dir _) _
    | mkdir new => exact hput (by simpa using own_dir (e := e) (p := p) []) _
    | cpNode source same parent => exact hput (own_copy _) _
    | findDone cd all => exact hput own_tmp _
    | rmTmp => exact hput own_tmp _
    | _ => rfl

theorem content_not_own (ha : e.Apart tree) (r : Path) : e.content ++ r ∉ own e p := by
  rintro (h | h)
  · exact (ha.dir p).symm.not_under r h
  · exact ha.tmp p (h ▸ List.prefix_append _ _)

theorem sums_not_own (p : ℕ) : e.sums ∉ own e p := by
  rintro (h | h)
  · have heq := h.eq_of_length (by simp [Env.dir, Env.sums])
    have hname := List.singleton_inj.mp (List.append_cancel_left heq)
    have hmem : '.' ∈ Nat.toDigits 10 p := by
      rw [hname]
      decide
    exact notMem_toDigits (by decide) p hmem
  · unfold Env.sums Env.stress Env.tmp at h
    cases hm : e.mountpoint with
    | nil =>
      rw [hm] at h
      have hhead : "stress".toList = "tmp".toList := (List.cons.inj h).1
      exact absurd hhead (by decide)
    | cons a as =>
      rw [hm] at h
      have hlen := congrArg List.length h
      simp at hlen

/-! ## what a worker relies on, and what it has done -/

/-- where the worker is, and what its directory holds -/
def Holds (e : Env) (tree : Store) (p : ℕ) (m : Store) : Pc → Prop
  | .sleep => True
  | .rm => True
  | .mkdir => ∀ r, m (e.dir p ++ r) = none
  | .cp => m (e.dir p) = some .dir ∧ ∀ r x, m (e.dir p ++ r) = some x →
      r = [] ∨ ∃ r', r = e.base :: r' ∧ tree r' = some x
  | .find files => sub m (e.copy p) = tree ∧ (files.map Prod.fst).Nodup ∧
      ∀ r d, (r, d) ∈ files → tree r = some (.file d)
  | .diff => sub m (e.copy p) = tree ∧ ∃ d, m e.sums = some (.file d) ∧ m (e.tmp p) = some (.file d)
  | .rmTmp => sub m (e.copy p) = tree
  | .failed => False

structure Inv (e : Env) (tree : Store) (p : ℕ) (c : Pc) (m : Store) : Prop where
  content : sub m e.content = tree
  sums : ∃ files, Lists tree files ∧ m e.sums = some (.file (sumsText e files))
  holds : Holds e tree p m c

theorem copy_eq (p : ℕ) (r : Path) : e.copy p ++ r = e.dir p ++ e.base :: r := by
  unfold Env.copy
  rw [List.append_assoc, List.singleton_append]

theorem Holds.congr {m m' : Store} (hm : ∀ q, q ∈ own e p ∨ q = e.sums → m' q = m q) {c : Pc}
    (h : Holds e tree p m c) : Holds e tree p m' c := by
  have hdir (r : Path) : m' (e.dir p ++ r) = m (e.dir p ++ r) := hm _ (.inl (own_dir r))
  have hroot : m' (e.dir p) = m (e.dir p) := by simpa using hdir []
  have hcopy : sub m' (e.copy p) = sub m (e.copy p) := funext fun r => hm _ (.inl (own_copy r))
  have htmp : m' (e.tmp p) = m (e.tmp p) := hm _ (.inl own_tmp)
  have hsums : m' e.sums = m e.sums := hm _ (.inr rfl)
  cases c with
  | sleep => trivial
  | rm => trivial
  | mkdir => exact fun r => (hdir r).trans (h r)
  | cp => exact ⟨hroot.trans h.1, fun r x hx => h.2 r x ((hdir r).symm.trans hx)⟩
  | find files => exact ⟨hcopy.trans h.1, h.2⟩
  | diff =>
    obtain ⟨htree, d, hd, ht⟩ := h
    exact ⟨hcopy.trans htree, d, hsums.trans hd, htmp.trans ht⟩
  | rmTmp => exact hcopy.trans h
  | failed => exact h

theorem Inv.blind (ha : e.Apart tree) (p : ℕ) (c : Pc) :
    Blind (own e) p (Inv e tree p c) := by
  intro m m' hm h
  have hcontent : sub m' e.content = sub m e.content :=
    funext fun r => hm _ fun j _ => content_not_own ha r
  have hsums : m' e.sums = m e.sums := hm _ fun j _ => sums_not_own j
  refine ⟨hcontent.trans h.content, by rw [hsums]; exact h.sums, h.holds.congr ?_⟩
  intro q hq
  rcases hq with hq | rfl
  · exact hm q fun j hj => (footprint e).apart p j q hj.symm hq
  · exact hsums

/-- Two lists of the same files give the same text. -/
theorem sumsText_congr {l l' : List (Path × Word)} (h : Lists tree l) (h' : Lists tree l') :
    sumsText e l = sumsText e l' := by
  have hperm : l.Perm l' := by
    rw [List.perm_ext_iff_of_nodup (List.Nodup.of_map _ h.nodup) (List.Nodup.of_map _ h'.nodup)]
    intro f
    obtain ⟨r, d⟩ := f
    rw [h.mem, h'.mem]
  unfold sumsText
  rw [e.sort_perm _ _ (hperm.map _)]

/-! ## one step -/

section
variable {m : Store} {files : List (Path × Word)} {x : Node} {d : Word}

theorem Holds.mkdir (h : Holds e tree p m .mkdir) : Holds e tree p (put m (e.dir p) .dir) .cp := by
  refine ⟨Function.update_self _ _ _, ?_⟩
  intro r x hx
  by_cases hr : r = []
  · exact .inl hr
  · have hne : e.dir p ++ r ≠ e.dir p := fun heq => hr (List.append_right_eq_self.mp heq)
    rw [put, Function.update_of_ne hne, h r] at hx
    cases hx

/-- The node that is copied is one of the content. -/
theorem Holds.cpNode (h : Holds e tree p m .cp) (source : tree r = some x) :
    Holds e tree p (put m (e.copy p ++ r) x) .cp := by
  obtain ⟨hroot, hall⟩ := h
  rw [copy_eq]
  have hne : e.dir p ≠ e.dir p ++ e.base :: r := by simp
  refine ⟨by rw [put, Function.update_of_ne hne]; exact hroot, ?_⟩
  intro r' y hy
  by_cases hr : r' = e.base :: r
  · subst hr
    rw [put, Function.update_self] at hy
    cases hy
    exact .inr ⟨r, rfl, source⟩
  · have hne' : e.dir p ++ r' ≠ e.dir p ++ e.base :: r :=
      fun heq => hr (List.append_cancel_left heq)
    rw [put, Function.update_of_ne hne'] at hy
    exact hall r' y hy

/-- Nothing but the content is in the copy, and when `cp` ends all of it is. -/
theorem Holds.cpDone (h : Holds e tree p m .cp)
    (all : ∀ r x, tree r = some x → m (e.copy p ++ r) = some x) :
    Holds e tree p m (.find []) := by
  refine ⟨?_, List.nodup_nil, fun r d hd => absurd hd List.not_mem_nil⟩
  funext r
  show m (e.copy p ++ r) = tree r
  cases ht : tree r with
  | some x => exact all r x ht
  | none =>
    by_contra hne
    obtain ⟨x, hx⟩ := Option.ne_none_iff_exists'.mp hne
    rw [copy_eq] at hx
    rcases h.2 _ x hx with hr | ⟨r', hr, hx'⟩
    · cases hr
    · cases hr
      rw [ht] at hx'
      cases hx'

theorem Holds.copy_dir (ha : e.Apart tree) (h : Holds e tree p m (.find files)) :
    m (e.copy p) = some .dir := by
  have hroot := congrFun h.1 []
  rw [ha.isDir] at hroot
  simpa [sub] using hroot

theorem Holds.findFile (h : Holds e tree p m (.find files))
    (file : m (e.copy p ++ r) = some (.file d)) (new : r ∉ files.map Prod.fst) :
    Holds e tree p m (.find (files ++ [(r, d)])) := by
  obtain ⟨hcopy, hnodup, hall⟩ := h
  refine ⟨hcopy, ?_, ?_⟩
  · rw [List.map_append, List.nodup_append]
    refine ⟨hnodup, List.nodup_singleton _, ?_⟩
    intro a hma b hb hab
    rw [List.mem_singleton.mp hb] at hab
    rw [hab] at hma
    exact new hma
  · intro r' d' hmem
    rcases List.mem_append.mp hmem with hmem | hmem
    · exact hall r' d' hmem
    · cases List.mem_singleton.mp hmem
      rw [← hcopy]
      exact file

/-- When `find` ends it has come to every file of the content. -/
theorem Holds.lists (h : Holds e tree p m (.find files))
    (all : ∀ r d, m (e.copy p ++ r) = some (.file d) → r ∈ files.map Prod.fst) :
    Lists tree files := by
  obtain ⟨hcopy, hnodup, hall⟩ := h
  refine ⟨hnodup, fun r d => ⟨hall r d, ?_⟩⟩
  intro hr
  have hfile : m (e.copy p ++ r) = some (.file d) := by
    rw [← hr, ← hcopy]
    rfl
  obtain ⟨f, hf, hfr⟩ := List.mem_map.mp (all r d hfile)
  obtain ⟨r', d'⟩ := f
  cases hfr
  have hd := hall _ _ hf
  rw [hr] at hd
  cases hd
  exact hf

theorem copy_ne_tmp (r : Path) : e.copy p ++ r ≠ e.tmp p := by
  intro heq
  have hpre : e.dir p <+: e.copy p ++ r := by
    rw [copy_eq]
    exact List.prefix_append _ _
  rw [heq] at hpre
  exact dir_not_prefix_tmp _ hpre

theorem Holds.findDone (h : Holds e tree p m (.find files))
    (hsums : m e.sums = some (.file (sumsText e files))) :
    Holds e tree p (put m (e.tmp p) (.file (sumsText e files))) .diff := by
  refine ⟨?_, sumsText e files, ?_, Function.update_self _ _ _⟩
  · rw [← h.1]
    exact funext fun r => Function.update_of_ne (copy_ne_tmp r) _ _
  · rw [← hsums]
    exact Function.update_of_ne (fun heq => sums_not_own p (.inr heq)) _ _

end

theorem Inv.step (ha : e.Apart tree) {c c' : Pc} {m m' : Store} (h : Inv e tree p c m)
    (hw : Work e p c m c' m') : Inv e tree p c' m' := by
  obtain ⟨hcontent, hsums, hholds⟩ := h
  have hframe := (footprint e).frame _ _ _ _ _ hw
  have hcontent' : sub m' e.content = tree := by
    rw [← hcontent]
    exact funext fun r => hframe _ (content_not_own ha r)
  refine ⟨hcontent', by rw [hframe _ (sums_not_own p)]; exact hsums, ?_⟩
  cases hw with
  | wake low high => trivial
  | rmNode leaf => trivial
  | rmDone gone => exact gone
  | mkdir new => exact hholds.mkdir
  | mkdirExists old => exact absurd (by simpa using hholds []) old
  | cpNode source same parent =>
    rw [← hcontent] at hholds ⊢
    exact hholds.cpNode source
  | cpDone all =>
    apply hholds.cpDone
    intro r x hx
    have hdevice := ha.device r (by rw [hx]; exact Option.some_ne_none _)
    rw [← hcontent] at hx
    exact all r x hx hdevice
  | cdFails no => exact absurd (hholds.copy_dir ha) no
  | findFile cd file new => exact hholds.findFile file new
  | findDone cd all =>
    obtain ⟨l, hl, hmem⟩ := hsums
    rw [sumsText_congr hl (hholds.lists all)] at hmem
    exact hholds.findDone hmem
  | diffSame sums tmp => exact hholds.1
  | diffDiffers differ =>
    obtain ⟨-, d, hd, htmp⟩ := hholds
    exact differ d hd htmp
  | rmTmp => trivial

variable {s s' : Shared ℕ Pc Path (Option Node)}
  {tr : List (Shared ℕ Pc Path (Option Node) × ℕ × Shared ℕ Pc Path (Option Node))}

/-- No worker finds a difference, in whatever order the workers come.  The content directory and its
checksums stay as they are, and a worker that compares has copied all of it. -/
theorem no_miscompare (ha : e.Apart tree) (hs : Started e tree s)
    (hr : Run (Interleave (Work e)) s tr s') :
    (∀ p, s'.pc p ≠ .failed) ∧ sub s'.mem e.content = tree ∧ s'.mem e.sums = s.mem e.sums ∧
      ∀ p, s'.pc p = .diff → sub s'.mem (e.copy p) = tree := by
  have hinv : ∀ p, Inv e tree p (s'.pc p) s'.mem := by
    apply (footprint e).inv (Inv.blind ha) (fun i c m c' m' h hw => h.step ha hw) hr
    intro p
    rw [hs.sleep p]
    exact ⟨hs.content, hs.sums, trivial⟩
  refine ⟨?_, (hinv 0).content, (footprint e).outside hr sums_not_own, ?_⟩
  · intro p hp
    have := (hinv p).holds
    rw [hp] at this
    exact this
  · intro p hp
    have := (hinv p).holds
    rw [hp] at this
    exact this.1

end

/-! ## a run of one worker -/

def sampleEnv : Env where
  mountpoint := []
  content := ["doc".toList]
  nconcurrent := 2
  pid := 7
  device := fun _ => 0
  md5sum := fun r d => if r = [['a']] ∧ d = ['x'] then
    "9dd4e461268c8034f5c8564e155c67a6  ./a".toList else []
  sort := List.insertionSort (· ≤ ·)
  sort_perm := fun l l' h => List.Perm.eq_of_pairwise' (List.pairwise_insertionSort _ _)
      (List.pairwise_insertionSort _ _)
      (((List.perm_insertionSort _ l).trans h).trans (List.perm_insertionSort _ l').symm)

/-- a file `a` with the text `x` -/
def sampleTree : Store := fun r =>
  if r = [] then some .dir else if r = [['a']] then some (.file ['x']) else none

def sampleText : Word := sumsText sampleEnv [([['a']], ['x'])]

def sampleStore : Store := fun q =>
  if q = sampleEnv.sums then some (.file sampleText)
  else if q.head? = some "doc".toList then sampleTree q.tail else none

theorem sample_content (r : Path) : sampleStore ("doc".toList :: r) = sampleTree r := rfl

theorem sample_lists : Lists sampleTree [([['a']], ['x'])] := by
  refine ⟨List.nodup_singleton _, ?_⟩
  intro r d
  unfold sampleTree
  split
  · next h => subst h; simp
  · split
    · next h => subst h; simp [eq_comm]
    · next h => simp [h]

theorem sample_paths : sampleEnv.dir 1 = ["stress".toList, ['1']] ∧
    sampleEnv.copy 1 = ["stress".toList, ['1'], "doc".toList] ∧
    sampleEnv.sums = ["stress".toList, "content.sums".toList] ∧
    sampleEnv.tmp 1 = ["tmp".toList, "stress.7.1".toList] := by decide +kernel

/-- the store after worker 1 has copied the directory and the file -/
def sampleCopied : Store :=
  put (put (put sampleStore (sampleEnv.dir 1) .dir) (sampleEnv.copy 1 ++ []) .dir)
    (sampleEnv.copy 1 ++ [['a']]) (.file ['x'])

theorem sampleCopied_doc (r : Path) : sampleCopied ("doc".toList :: r) = sampleTree r := by
  obtain ⟨hdir, hcopy, hsums, -⟩ := sample_paths
  rw [← sample_content]
  simp [sampleCopied, put, hdir, hcopy]

theorem sampleCopied_copy (r : Path) : sampleCopied (sampleEnv.copy 1 ++ r) = sampleTree r := by
  obtain ⟨hdir, hcopy, hsums, -⟩ := sample_paths
  simp [sampleCopied, put, Function.update_apply, hdir, hcopy, sampleTree, sampleStore, hsums]
  split_ifs <;> simp_all

/-- Worker 1 comes to the comparison. -/
theorem sample_alone : Alone (Work sampleEnv) 1 .sleep sampleStore .diff
    (put sampleCopied (sampleEnv.tmp 1) (.file (sumsText sampleEnv [([['a']], ['x'])]))) := by
  obtain ⟨hdir, hcopy, hsums, -⟩ := sample_paths
  have h1 : Work sampleEnv 1 .sleep sampleStore .rm sampleStore := .wake (by decide) (by decide)
  have hfree (r : Path) : sampleStore (sampleEnv.dir 1 ++ r) = none := by
    simp [sampleStore, hdir, hsums]
  have h2 : Work sampleEnv 1 .rm sampleStore .mkdir sampleStore := .rmDone hfree
  have h3 := Work.mkdir (e := sampleEnv) (p := 1) (m := sampleStore) (by simpa using hfree [])
  have h4 : Work sampleEnv 1 .cp (put sampleStore (sampleEnv.dir 1) .dir) .cp
      (put (put sampleStore (sampleEnv.dir 1) .dir) (sampleEnv.copy 1 ++ []) .dir) :=
    .cpNode (by decide +kernel) rfl (by decide +kernel)
  have h5 : Work sampleEnv 1 .cp (put (put sampleStore (sampleEnv.dir 1) .dir)
      (sampleEnv.copy 1 ++ []) .dir) .cp sampleCopied :=
    .cpNode (r := [['a']]) (by decide +kernel) rfl (by decide +kernel)
  have h6 : Work sampleEnv 1 .cp sampleCopied (.find []) sampleCopied := by
    apply Work.cpDone
    intro r x hx _
    rw [sampleCopied_copy, ← sampleCopied_doc]
    exact hx
  have hcd : sampleCopied (sampleEnv.copy 1) = some .dir := by decide +kernel
  have h7 : Work sampleEnv 1 (.find []) sampleCopied (.find [([['a']], ['x'])]) sampleCopied :=
    .findFile hcd (by decide +kernel) (by simp)
  have h8 : Work sampleEnv 1 (.find [([['a']], ['x'])]) sampleCopied .diff
      (put sampleCopied (sampleEnv.tmp 1) (.file (sumsText sampleEnv [([['a']], ['x'])]))) := by
    apply Work.findDone hcd
    intro r d hr
    rw [sampleCopied_copy] at hr
    exact List.mem_map_of_mem ((sample_lists.mem r d).mpr hr)
  exact (((((((Alone.refl.tail h1).tail h2).tail h3).tail h4).tail h5).tail h6).tail h7).tail h8

theorem sample_apart : sampleEnv.Apart sampleTree := by
  refine ⟨rfl, fun _ _ => rfl, ?_, ?_⟩
  · intro p
    refine ⟨?_, ?_⟩
    · intro h
      obtain ⟨t, ht⟩ := h
      exact absurd (List.cons.inj ht).1 (by decide)
    · intro h
      have hlen : (sampleEnv.dir p).length ≤ 1 := h.length_le
      exact absurd hlen (Nat.not_succ_le_self 1)
  · intro p h
    obtain ⟨t, ht⟩ := h
    exact absurd (List.cons.inj ht).1 (by decide)

/-- Worker 1 compares while the other ones sleep. -/
theorem no_miscompare_one : ∃ s tr s', Started sampleEnv sampleTree s ∧
    Run (Interleave (Work sampleEnv)) s tr s' ∧ s'.pc 1 = .diff ∧
    (∀ p, s'.pc p ≠ .failed) ∧ sub s'.mem sampleEnv.content = sampleTree ∧
    s'.mem sampleEnv.sums = s.mem sampleEnv.sums ∧
    ∀ p, s'.pc p = .diff → sub s'.mem (sampleEnv.copy p) = sampleTree := by
  obtain ⟨tr, hr⟩ := sample_alone.reach (fun _ => .sleep) rfl
  have hs : Started sampleEnv sampleTree ⟨fun _ => .sleep, sampleStore⟩ :=
    ⟨rfl, ⟨_, sample_lists, rfl⟩, fun _ => rfl⟩
  exact ⟨_, tr, _, hs, hr, rfl, no_miscompare sample_apart hs hr⟩

end StressSh
