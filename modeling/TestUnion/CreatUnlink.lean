import TestUnion.PosixCwd

/-!
# creat_unlink

* `Outcomes`        which calls of the clock, of `creat` and of `unlink` succeed;
* `initializeDir`, `cleanup`, `createFiles`, `unlinkFiles`, `main`   the functions of these names,
                    the first one being `initialize`;
* `Restores`        the directory that was made, and the files in it, are gone at the end;
* `Returns`         the directory of `tst_dir` is found again from the parent of the new directory;
* `Made`            what `initialize` has done; `Made.returns_plain_iff`: without `".."`, `tst_dir`
                    has to be absolute or a name;
* `Filled`          a tree with some numbers as files in a directory;
* `restores_iff`    the program cleans up iff `Returns`, and then leaves no trace (`main_disk`).
-/

namespace CreatUnlink

open FileTree PosixPath PosixCwd
open PosixCalls (Disk)

structure Outcomes where
  /-- `gettimeofday` at the start of `create_files` and of `unlink_files` -/
  startCreate : Bool
  startDelete : Bool
  creat : ℕ → Bool
  unlink : ℕ → Bool

structure Outcomes.Fine (o : Outcomes) : Prop where
  startCreate : o.startCreate = true
  startDelete : o.startDelete = true
  unlink : ∀ i, o.unlink i = true

theorem isName_digits (i : ℕ) : IsName (Nat.toDigits 10 i) := by
  have hdigit (c : Char) (h : c ∈ Nat.toDigits 10 i) : c.isDigit = true :=
    Nat.isDigit_of_mem_toDigits (by decide) (by decide) h
  refine ⟨Nat.toDigits_ne_nil, ?_, ?_, ?_⟩
  · intro h
    exact absurd (hdigit '.' (by rw [h]; simp)) (by decide)
  · intro h
    exact absurd (hdigit '.' (by rw [h]; simp)) (by decide)
  · intro h
    exact absurd (hdigit '/' h) (by decide)

/-- `sprintf(fpath, "%d", i)` -/
def fpath (i : ℕ) : Name := ⟨Nat.toDigits 10 i, isName_digits i⟩

theorem fpath_injective {i j : ℕ} (h : fpath i = fpath j) : i = j := by
  have hd := congrArg (fun n : Name => Nat.ofDigitChars 10 n.1 0) h
  simpa [fpath] using hd

/-! ## the functions -/

section
variable (tst_dir : Str) (o : Outcomes)

def initializeDir (w : Process) : ℤ × Process :=
  let (ret, w) := attempt (w.mkdir tst_dir) w
  if ret ≠ 0 then (ret, w)
  else
    let (ret, w) := attempt (w.chdir tst_dir) w
    if ret ≠ 0 then (ret, (attempt (w.rmdir tst_dir) w).2) else (ret, w)

def cleanup (w : Process) : ℤ × Process :=
  let (ret, w) := attempt (w.chdir ['.', '.']) w
  if ret ≠ 0 then (ret, w) else attempt (w.rmdir tst_dir) w

/-- `creat(fpath, 0555)`; a descriptor is closed again -/
def creatFile (i : ℕ) (w : Process) : ℤ × Process :=
  if o.creat i then attempt (w.creat (fpath i)) w else (-1, w)

def unlinkFile (i : ℕ) (w : Process) : ℤ × Process :=
  if o.unlink i then attempt (w.unlink (fpath i)) w else (-1, w)

/-- `k` more rounds, from `i` on -/
def createFrom : ℕ → ℕ → Process → ℕ × Process
  | 0, i, w => (i, w)
  | k + 1, i, w =>
    let (fd, w) := creatFile o i w
    if fd < 0 then (i, w) else createFrom k (i + 1) w

def createFiles (nfiles : ℕ) (w : Process) : ℕ × Process :=
  if o.startCreate then createFrom o nfiles 0 w else (0, w)

def unlinkFrom : ℕ → ℕ → Process → ℤ × Process
  | 0, _, w => (0, w)
  | k + 1, i, w =>
    let (ret, w) := unlinkFile o i w
    if ret ≠ 0 then (ret, w) else unlinkFrom k (i + 1) w

def unlinkFiles (nfiles : ℕ) (w : Process) : ℤ × Process :=
  if o.startDelete then unlinkFrom o nfiles 0 w else (1, w)

/-- the exit status, and the process at the end -/
def main (nfiles : ℕ) (w : Process) : ℕ × Process :=
  let (ret, w) := initializeDir tst_dir w
  if ret ≠ 0 then (1, w)
  else
    let (n_done, w) := createFiles o nfiles w
    if n_done ≠ nfiles then
      let (_, w) := unlinkFiles o n_done w
      let (_, w) := cleanup tst_dir w
      (1, w)
    else
      let (ret, w) := unlinkFiles o n_done w
      if ret ≠ 0 then (1, w)
      else
        let (ret, w) := cleanup tst_dir w
        if ret ≠ 0 then (1, w) else (0, w)

/-- After `initialize` the process is in the directory that was made. -/
def Restores (nfiles : ℕ) (w : Process) : Prop :=
  let w1 := (initializeDir tst_dir w).2
  let w' := (main tst_dir o nfiles w).2
  w'.disk.get w1.cwd = none ∧
    ∀ i < (createFiles o nfiles w1).1, w'.disk.get (fpath i :: w1.cwd) = none

/-- The lookup is made in the tree with the new directory. -/
def Returns (w : Process) : Prop :=
  ∃ p w', w.parent tst_dir = .ok p ∧ w.mkdir tst_dir = .ok w' ∧
    Process.parent ⟨w'.disk, p⟩ tst_dir = .ok p

end

variable {tst_dir : Str} {o : Outcomes} {w w1 : Process} {t t' : Disk} {n : Name} {p D : Path}
  {i k m nfiles : ℕ}

/-! ## the new directory -/

/-- `w1` is the process in the new directory `n :: p`. -/
structure Made (tst_dir : Str) (w : Process) (n : Name) (p : Path) (w1 : Process) : Prop where
  parent : w.parent tst_dir = .ok p
  last : (parts tst_dir).getLast? = some (.down n)
  free : w.disk.get (n :: p) = none
  mkdir : w.mkdir tst_dir = .ok ⟨w1.disk, w.cwd⟩
  get : ∀ q, w1.disk.get q = if q = n :: p then some .dir else w.disk.get q
  cwd : w1.cwd = n :: p

theorem initializeDir_ok (h : (initializeDir tst_dir w).1 = 0) :
    ∃ n p, Made tst_dir w n p (initializeDir tst_dir w).2 := by
  cases hm : w.mkdir tst_dir with
  | error e =>
    have hmk : attempt (w.mkdir tst_dir) w = (-1, w) := by
      rw [hm]
      rfl
    unfold initializeDir at h
    rw [hmk] at h
    cases h
  | ok v =>
    obtain ⟨n, p, hparent, hlast, hdir, hnone, hcwd, hget⟩ := Process.mkdir_ok hm
    have hmk : attempt (w.mkdir tst_dir) w = (0, v) := by
      rw [hm]
      rfl
    have hch : attempt (v.chdir tst_dir) v = (0, ⟨v.disk, n :: p⟩) := by
      rw [Process.chdir_made hcwd hparent hlast hdir hnone hget]
      rfl
    have hres : initializeDir tst_dir w = (0, ⟨v.disk, n :: p⟩) := by
      unfold initializeDir
      simp only [hmk, hch, ne_eq, not_true_eq_false, if_false]
    refine ⟨n, p, ?_⟩
    rw [hres]
    refine ⟨hparent, hlast, hnone, ?_, hget, rfl⟩
    rw [hm, ← hcwd]

namespace Made

variable (hm : Made tst_dir w n p w1)
include hm

theorem dir : w1.disk.get (n :: p) = some .dir := by
  rw [hm.get, if_pos rfl]

theorem empty (m : Name) : w1.disk.get (m :: n :: p) = none := by
  rw [hm.get, if_neg (List.cons_ne_self m (n :: p))]
  by_contra hne
  have hdir := Tree.get_parent hne
  rw [hm.free] at hdir
  cases hdir

theorem returns_iff : Returns tst_dir w ↔ Process.parent ⟨w1.disk, p⟩ tst_dir = .ok p := by
  refine ⟨?_, ?_⟩
  · intro hex
    obtain ⟨p', w', hparent, hmk, hback⟩ := hex
    rw [hm.parent] at hparent
    rw [hm.mkdir] at hmk
    cases hparent
    cases hmk
    exact hback
  · intro hback
    exact ⟨p, _, hm.parent, hm.mkdir, hback⟩

theorem cleanup_eq : cleanup tst_dir w1
    = attempt (Process.rmdir ⟨w1.disk, p⟩ tst_dir) ⟨w1.disk, p⟩ := by
  have hup : w1.chdir ['.', '.'] = .ok ⟨w1.disk, p⟩ := Process.chdir_up hm.cwd hm.dir
  unfold cleanup
  rw [hup]
  rfl

theorem cleanup_disk (hback : Returns tst_dir w) : (cleanup tst_dir w1).2.disk = w.disk := by
  obtain ⟨w', hw', hget⟩ := Process.rmdir_made (hm.returns_iff.mp hback) hm.last hm.dir hm.empty
  rw [hm.cleanup_eq, hw']
  apply Tree.ext_get
  intro q
  show w'.disk.get q = _
  rw [hget]
  split
  · next hq => rw [hq, hm.free]
  · next hq => rw [hm.get, if_neg hq]

/-- With the files gone, `cleanup` removes the directory iff it finds it. -/
theorem cleanup_iff : (cleanup tst_dir w1).2.disk.get (n :: p) = none ↔ Returns tst_dir w := by
  refine ⟨?_, ?_⟩
  · intro hgone
    by_contra hback
    rw [hm.cleanup_eq, Process.rmdir_keeps (hm.returns_iff.not.mp hback), hm.dir] at hgone
    cases hgone
  · intro hback
    rw [hm.cleanup_disk hback]
    exact hm.free

/-! ### where the directory is found again -/

theorem returns_absolute (habs : tst_dir.head? = some '/') : Returns tst_dir w := by
  have hparent := hm.parent
  unfold Process.parent start at hparent
  rw [if_pos habs] at hparent
  rw [hm.returns_iff]
  unfold Process.parent start
  rw [if_pos habs]
  exact resolveFrom_mono (fun q hq => get_of_made hm.free hm.get hq) hparent

theorem returns_name (hstay : ∀ c ∈ (parts tst_dir).dropLast, c = .stay) : Returns tst_dir w := by
  by_cases habs : tst_dir.head? = some '/'
  · exact hm.returns_absolute habs
  · have hp : w1.disk.get p = some .dir :=
      Tree.get_parent (n := n) (by rw [hm.dir]; exact Option.some_ne_none _)
    rw [hm.returns_iff]
    unfold Process.parent start
    rw [if_neg habs]
    exact resolveFrom_stay hp hstay

/-- Without `".."` a relative string with more than one name leads further down. -/
theorem returns_plain_iff (hup : Comp.up ∉ parts tst_dir) :
    Returns tst_dir w ↔
      tst_dir.head? = some '/' ∨ ∀ c ∈ (parts tst_dir).dropLast, c = .stay := by
  refine ⟨?_, ?_⟩
  · intro hback
    rw [or_iff_not_imp_left]
    intro hrel
    rw [hm.returns_iff] at hback
    unfold Process.parent start at hback
    rw [if_neg hrel] at hback
    have hno : Comp.up ∉ (parts tst_dir).dropLast := fun h => hup (List.mem_of_mem_dropLast h)
    have hp := PosixCalls.resolveFrom_eq hno hback
    rw [foldl_stepTo] at hp
    exact stay_of_foldl hno (List.append_left_eq_self.mp hp.symm)
  · rintro (habs | hstay)
    · exact hm.returns_absolute habs
    · exact hm.returns_name hstay

end Made

/-! ## the files -/

/-- The numbers from `i` on, below `m`, are files in `D`; everything else is as in `t`. -/
structure Filled (D : Path) (t : Disk) (i m : ℕ) (t' : Disk) : Prop where
  file : ∀ j, i ≤ j → j < m → t'.get (fpath j :: D) = some (.file 0)
  other : ∀ q, (∀ j, i ≤ j → j < m → q ≠ fpath j :: D) → t'.get q = t.get q

theorem Filled.refl : Filled D t i i t :=
  ⟨fun j h1 h2 => absurd h1 (by omega), fun _ _ => rfl⟩

theorem Filled.eq (h : Filled D t i i t') : t' = t :=
  Tree.ext_get fun q => h.other q fun j h1 h2 => absurd h1 (by omega)

theorem Filled.dir (h : Filled D t i m t') (hD : t.get D = some .dir) : t'.get D = some .dir := by
  rw [h.other D fun j _ _ => (List.cons_ne_self (fpath j) D).symm]
  exact hD

/-- One more file is made. -/
theorem Filled.snoc {t'' : Disk} (him : i ≤ m) (h : Filled D t i m t')
    (hget : ∀ q, t''.get q = if q = fpath m :: D then some (.file 0) else t'.get q) :
    Filled D t i (m + 1) t'' := by
  refine ⟨?_, ?_⟩
  · intro j h1 h2
    rw [hget]
    split
    · rfl
    · next hne =>
      refine h.file j h1 ?_
      by_contra hlt
      rw [show j = m by omega] at hne
      exact hne rfl
  · intro q hq
    rw [hget, if_neg (hq m him (Nat.lt_succ_self m))]
    exact h.other q fun j h1 h2 => hq j h1 (by omega)

/-- The first file is removed. -/
theorem Filled.tail {t'' : Disk} (h : Filled D t i m t') (hfree : t.get (fpath i :: D) = none)
    (hget : ∀ q, t''.get q = if q = fpath i :: D then none else t'.get q) :
    Filled D t (i + 1) m t'' := by
  refine ⟨?_, ?_⟩
  · intro j h1 h2
    rw [hget, if_neg]
    · exact h.file j (by omega) h2
    · intro heq
      have := fpath_injective (List.cons.inj heq).1
      omega
  · intro q hq
    rw [hget]
    split
    · next heq =>
      rw [heq]
      exact hfree.symm
    · next hne =>
      refine h.other q fun j h1 h2 => ?_
      by_cases hij : j = i
      · rw [hij]
        exact hne
      · exact hq j (by omega) h2

section
variable (hD : t.get D = some .dir) (hfree : ∀ j, t.get (fpath j :: D) = none)
include hD hfree

/-- The loop makes the files up to the one that it returns. -/
theorem createFrom_filled (hcwd : w.cwd = D) (hf : Filled D t 0 i w.disk) :
    (createFrom o k i w).2.cwd = D ∧
      Filled D t 0 (createFrom o k i w).1 (createFrom o k i w).2.disk := by
  induction k generalizing i w with
  | zero => exact ⟨hcwd, hf⟩
  | succ k ih =>
    have hnone : w.disk.get (fpath i :: w.cwd) = none := by
      rw [hcwd, hf.other]
      · exact hfree i
      · intro j _ h2 heq
        have := fpath_injective (List.cons.inj heq).1
        omega
    obtain ⟨w', hw', hcwd', hget⟩ :=
      Process.creat_ok (n := fpath i) (by rw [hcwd]; exact hf.dir hD) hnone
    unfold createFrom creatFile
    cases o.creat i with
    | false => exact ⟨hcwd, hf⟩
    | true =>
      rw [if_pos rfl, hw']
      show (createFrom o k (i + 1) w').2.cwd = D ∧ _
      rw [hcwd] at hget
      exact ih (hcwd'.trans hcwd) (hf.snoc (Nat.zero_le i) hget)

omit hD in
/-- The loop removes them. -/
theorem unlinkFrom_filled (hfine : o.Fine) (hcwd : w.cwd = D)
    (hf : Filled D t i (i + k) w.disk) : unlinkFrom o k i w = (0, ⟨t, D⟩) := by
  induction k generalizing i w with
  | zero =>
    show (0, w) = _
    rw [← hf.eq, ← hcwd]
  | succ k ih =>
    have hfile : w.disk.get (fpath i :: w.cwd) = some (.file 0) := by
      rw [hcwd]
      exact hf.file i (Nat.le_refl i) (by omega)
    obtain ⟨w', hw', hcwd', hget⟩ := Process.unlink_ok hfile
    unfold unlinkFrom unlinkFile
    rw [if_pos (hfine.unlink i), hw']
    show unlinkFrom o k (i + 1) w' = _
    rw [hcwd] at hget
    apply ih (hcwd'.trans hcwd)
    rw [show i + 1 + k = i + (k + 1) by omega]
    exact hf.tail (hfree i) hget

end

/-- What was created is removed again, however far the creation has come. -/
theorem unlinkFiles_createFiles (hm : Made tst_dir w n p w1) (hfine : o.Fine) (nfiles : ℕ) :
    unlinkFiles o (createFiles o nfiles w1).1 (createFiles o nfiles w1).2 = (0, w1) := by
  have hfree (j : ℕ) : w1.disk.get (fpath j :: n :: p) = none := hm.empty (fpath j)
  unfold unlinkFiles createFiles
  rw [if_pos hfine.startCreate, if_pos hfine.startDelete]
  obtain ⟨hcwd, hf⟩ := createFrom_filled (o := o) (k := nfiles) hm.dir hfree hm.cwd Filled.refl
  have hdone := unlinkFrom_filled hfree hfine hcwd (by rw [Nat.zero_add]; exact hf)
  rw [hdone, ← hm.cwd]

/-! ## the whole program -/

/-- Both ways out of the program clean up in the directory without files. -/
theorem main_eq (hinit : (initializeDir tst_dir w).1 = 0) (hfine : o.Fine) :
    (main tst_dir o nfiles w).2 = (cleanup tst_dir (initializeDir tst_dir w).2).2 := by
  obtain ⟨n, p, hm⟩ := initializeDir_ok hinit
  have hundo := unlinkFiles_createFiles hm hfine nfiles
  unfold main
  simp only [hinit, ne_eq, not_true_eq_false, if_false, hundo]
  split
  · rfl
  · split
    · rfl
    · rfl

/-- The directory and the files are gone iff the directory of `tst_dir` is found again. -/
theorem restores_iff (hinit : (initializeDir tst_dir w).1 = 0) (hfine : o.Fine) (nfiles : ℕ) :
    Restores tst_dir o nfiles w ↔ Returns tst_dir w := by
  obtain ⟨n, p, hm⟩ := initializeDir_ok hinit
  have hclean := hm.cleanup_iff
  unfold Restores
  dsimp only
  rw [main_eq hinit hfine, hm.cwd]
  refine ⟨fun h => hclean.mp h.1, ?_⟩
  intro hback
  have hgone := hclean.mpr hback
  refine ⟨hgone, ?_⟩
  intro i _
  by_contra hne
  rw [Tree.get_parent hne] at hgone
  cases hgone

/-- When it is, the program leaves no trace. -/
theorem main_disk (hinit : (initializeDir tst_dir w).1 = 0) (hfine : o.Fine)
    (hback : Returns tst_dir w) : (main tst_dir o nfiles w).2.disk = w.disk := by
  obtain ⟨n, p, hm⟩ := initializeDir_ok hinit
  rw [main_eq hinit hfine]
  exact hm.cleanup_disk hback

/-! ## two runs -/

theorem isName_a : IsName ['a'] := by decide

def dirA : Name := ⟨['a'], isName_a⟩

/-- a process in the root directory, in which there is a directory `a` -/
def sampleProcess : Process where
  disk := Tree.bare.put dirA [] .dir rfl (by decide +kernel)
  cwd := []

/-- The third file cannot be made. -/
def sampleOutcomes : Outcomes := ⟨true, true, fun i => i ≠ 2, fun _ => true⟩

theorem restores_iff_name : Restores ['b'] sampleOutcomes 3 sampleProcess :=
  (restores_iff (by decide +kernel) ⟨rfl, rfl, fun _ => rfl⟩ 3).mpr ⟨_, _, rfl, rfl, rfl⟩

/-- `a/b` is looked up in `a`. -/
theorem not_restores : ¬ ∀ (tst_dir : Str) (w : Process) (o : Outcomes) (nfiles : ℕ),
    (initializeDir tst_dir w).1 = 0 → o.Fine → 1 ≤ nfiles → Restores tst_dir o nfiles w := by
  intro hall
  have h := (hall ['a', '/', 'b'] sampleProcess sampleOutcomes 1 (by decide +kernel)
    ⟨rfl, rfl, fun _ => rfl⟩ (Nat.le_refl 1)).1
  revert h
  decide +kernel

end CreatUnlink
