import TestUnion.PosixCwd

/-!
# syncperf: the files of a run

* `Outcomes`        which calls fail for reasons that the tree does not show;
* `createfiles`, `unlinkfiles`, `crsyncdel`, `setup`, `cleanup`, `main`   the functions of these
                    names; reading and `sync` leave the tree as it is;
* `Enters`          `synctestdir` is a directory, or is made;
* `Touched`         what the loops do to the working directory;
* `main_without`       the tree after the program, also when it runs in the wrong directory.
-/

namespace Syncperf

open FileTree PosixPath PosixCwd
open PosixCalls (Disk setSize get_setSize resolveFrom resolveFrom_cons)

/-- `n` is the number of files of the round. -/
structure Outcomes where
  mkdir : Bool
  creat : ℕ → ℕ → Bool
  /-- the bytes that `write` wrote -/
  wrote : ℕ → ℕ → ℕ
  unlink : ℕ → ℕ → Bool

def maxName : ℕ := 12

def numStartFiles : ℕ := 1 <<< 15

def numFiles : ℕ := 1 <<< 15

theorem isName_file (i : ℕ) : IsName (('f' :: Nat.toDigits 10 i).take (maxName - 1)) := by
  have hmem (c : Char) (h : c ∈ ('f' :: Nat.toDigits 10 i).take (maxName - 1)) :
      c = 'f' ∨ c.isDigit = true := by
    rcases List.mem_cons.mp (List.mem_of_mem_take h) with hf | hd
    · exact .inl hf
    · exact .inr (Nat.isDigit_of_mem_toDigits (by decide) (by decide) hd)
  refine ⟨List.cons_ne_nil _ _, ?_, ?_, ?_⟩
  · exact fun h => absurd (List.cons.inj h).1 (by decide)
  · exact fun h => absurd (List.cons.inj h).1 (by decide)
  · intro h
    rcases hmem '/' h with hf | hd
    · exact absurd hf (by decide)
    · exact absurd hd (by decide)

/-- `snprintf(File[i].name, MAX_NAME, "f%d", i)` -/
def fileName (i : ℕ) : Name := ⟨('f' :: Nat.toDigits 10 i).take (maxName - 1), isName_file i⟩

def dirStr : Str := "synctestdir".toList

theorem isName_dir : IsName dirStr := by decide

def dir : Name := ⟨dirStr, isName_dir⟩

/-! ## the functions -/

section
variable (o : Outcomes)

/-- a round of the loop of `createfiles`; after a `creat` that fails there is no descriptor -/
def createfile (n i : ℕ) (w : Process) : Process :=
  if o.creat n i then
    match w.creat (fileName i) with
    | .error _ => w
    | .ok w => { w with disk := setSize (fileName i) w.cwd (o.wrote n i) w.disk }
  else w

def createfiles (n : ℕ) (w : Process) : Process :=
  (List.range n).foldl (fun w i => createfile o n i w) w

def unlinkfile (n i : ℕ) (w : Process) : Process :=
  if o.unlink n i then (attempt (w.unlink (fileName i)) w).2 else w

def unlinkfiles (n : ℕ) (w : Process) : Process :=
  (List.range n).foldl (fun w i => unlinkfile o n i w) w

def crsyncdel (n : ℕ) (w : Process) : Process := unlinkfiles o n (createfiles o n w)

def setup (w : Process) : Process :=
  let w := if o.mkdir then (attempt (w.mkdir dirStr) w).2 else w
  (attempt (w.chdir dirStr) w).2

/-- `rm -fr synctestdir` in the directory above -/
def cleanup (w : Process) : Process :=
  let w := (attempt (w.chdir ['.', '.']) w).2
  { w with disk := w.disk.prune dir w.cwd }

end

/-- the numbers that `i` takes, in at most `fuel` rounds -/
def counts : ℕ → ℕ → List ℕ
  | 0, _ => []
  | fuel + 1, i => if i ≤ numFiles then i :: counts fuel (i <<< 1) else []

def main (o : Outcomes) (w : Process) : Process :=
  cleanup ((counts 32 numStartFiles).foldl (fun w n => crsyncdel o n w) (setup o w))

/-- There is one round. -/
theorem counts_eq : counts 32 numStartFiles = [numFiles] := by
  have hfirst : numStartFiles ≤ numFiles := Nat.le_refl _
  have hover : ¬ numStartFiles <<< 1 ≤ numFiles := by decide
  show (if numStartFiles ≤ numFiles then numStartFiles ::
    (if numStartFiles <<< 1 ≤ numFiles then _ else []) else []) = _
  rw [if_pos hfirst, if_neg hover]
  rfl

theorem main_eq (o : Outcomes) (w : Process) :
    main o w = cleanup (crsyncdel o numFiles (setup o w)) := by
  unfold main
  rw [counts_eq, List.foldl_cons, List.foldl_nil]

/-! ## the names -/

theorem parts_dir : parts dirStr = [.down dir] := by decide +kernel

section
variable {o : Outcomes} {w : Process} {t t' : Disk} {n i k : ℕ} {p q : Path}

/-! ## `synctestdir` -/

def Enters (o : Outcomes) (w : Process) : Prop :=
  w.disk.get (dir :: w.cwd) = some .dir ∨ w.disk.get (dir :: w.cwd) = none ∧ o.mkdir = true

instance : Decidable (Enters o w) := by
  unfold Enters
  infer_instance

theorem parent_dir : w.parent dirStr = .ok w.cwd := by
  unfold Process.parent
  rw [parts_dir]
  rfl

theorem chdir_dir (h : w.disk.get w.cwd = some .dir) :
    attempt (w.chdir dirStr) w =
      if w.disk.get (dir :: w.cwd) = some .dir then (0, ⟨w.disk, dir :: w.cwd⟩) else (-1, w) := by
  have hres : resolveFrom w.disk (start w.cwd dirStr) (parts dirStr) =
      if w.disk.get (dir :: w.cwd) = none then .error .enoent else .ok (dir :: w.cwd) := by
    rw [parts_dir]
    show resolveFrom w.disk w.cwd [.down dir] = _
    rw [resolveFrom_cons, if_neg (not_not.mpr h)]
    rfl
  unfold Process.chdir
  rw [if_neg isName_dir.1, hres]
  by_cases hnone : w.disk.get (dir :: w.cwd) = none
  · rw [if_pos hnone, hnone]
    rfl
  · rw [if_neg hnone]
    dsimp only
    split
    · rfl
    · rfl

theorem chdir_up (h : w.disk.get w.cwd = some .dir) :
    attempt (w.chdir ['.', '.']) w = (0, ⟨w.disk, w.cwd.tail⟩) := by
  cases hcwd : w.cwd with
  | cons n p =>
    rw [hcwd] at h
    rw [Process.chdir_up hcwd h]
    rfl
  | nil =>
    have hparts : parts ['.', '.'] = [.up] := by decide
    have hroot : w.disk.get [] = some .dir := w.disk.root
    have hres : resolveFrom w.disk (start w.cwd ['.', '.']) (parts ['.', '.']) = .ok [] := by
      rw [hparts, hcwd]
      show resolveFrom w.disk [] [.up] = _
      rw [resolveFrom_cons, if_neg (not_not.mpr hroot)]
      rfl
    unfold Process.chdir
    rw [if_neg (List.cons_ne_nil _ _), hres]
    dsimp only
    rw [if_pos hroot]
    rfl

/-- `mkdir` makes the directory, or nothing. -/
theorem mkdir_dir (h : w.disk.get w.cwd = some .dir) (hnone : w.disk.get (dir :: w.cwd) = none) :
    ∃ w', w.mkdir dirStr = .ok w' ∧ w'.cwd = w.cwd ∧
      ∀ q, w'.disk.get q = if q = dir :: w.cwd then some .dir else w.disk.get q := by
  have hplace : w.place .eexist dirStr = .ok (dir, w.cwd) :=
    Process.place_ok.mpr ⟨parent_dir, h, by rw [parts_dir]; rfl⟩
  unfold Process.mkdir
  rw [hplace]
  dsimp only
  rw [dif_pos ⟨h, hnone⟩]
  exact ⟨_, rfl, rfl, Tree.get_put h (by rw [hnone]; exact nofun)⟩

theorem mkdir_exists (h : w.disk.get (dir :: w.cwd) ≠ none) :
    (attempt (w.mkdir dirStr) w).2 = w := by
  cases hm : w.mkdir dirStr with
  | error e => rfl
  | ok v =>
    obtain ⟨n, p, hparent, hlast, -, hnone, -⟩ := Process.mkdir_ok hm
    rw [parent_dir] at hparent
    rw [parts_dir] at hlast
    cases hparent
    cases hlast
    exact absurd hnone h

/-- The trees agree on all that is not `p` or below it. -/
def Off (p : Path) (t t' : Disk) : Prop := ∀ q, ¬ p <:+ q → t'.get q = t.get q

theorem setup_enters (h : w.disk.get w.cwd = some .dir) (hin : Enters o w) :
    (setup o w).cwd = dir :: w.cwd ∧ (setup o w).disk.get (dir :: w.cwd) = some .dir ∧
      Off (dir :: w.cwd) w.disk (setup o w).disk := by
  rcases hin with hdir | ⟨hnone, hmk⟩
  · have hmade : (if o.mkdir then (attempt (w.mkdir dirStr) w).2 else w) = w := by
      split
      · exact mkdir_exists (by rw [hdir]; exact nofun)
      · rfl
    unfold setup
    rw [hmade]
    dsimp only
    rw [chdir_dir h, if_pos hdir]
    exact ⟨rfl, hdir, fun _ _ => rfl⟩
  · obtain ⟨v, hv, hcwd, hget⟩ := mkdir_dir h hnone
    have hmade : (if o.mkdir then (attempt (w.mkdir dirStr) w).2 else w) = v := by
      rw [if_pos hmk, hv]
      rfl
    have hdir : v.disk.get (dir :: v.cwd) = some .dir := by
      rw [hget, hcwd, if_pos rfl]
    have hup : v.disk.get v.cwd = some .dir := Tree.get_parent (by rw [hdir]; exact nofun)
    unfold setup
    rw [hmade]
    dsimp only
    rw [chdir_dir hup, if_pos hdir, hcwd]
    rw [hcwd] at hdir
    refine ⟨rfl, hdir, ?_⟩
    intro q hq
    show v.disk.get q = w.disk.get q
    rw [hget, if_neg]
    rintro rfl
    exact hq (List.suffix_refl _)

theorem setup_stays (h : w.disk.get w.cwd = some .dir) (hout : ¬ Enters o w) : setup o w = w := by
  obtain ⟨hnot, hmk⟩ := not_or.mp hout
  have hmade : (if o.mkdir then (attempt (w.mkdir dirStr) w).2 else w) = w := by
    split
    · next ho => exact mkdir_exists fun hnone => hmk ⟨hnone, ho⟩
    · rfl
  unfold setup
  rw [hmade]
  dsimp only
  rw [chdir_dir h, if_neg hnot]

/-! ## the files -/

/-- Only files of the working directory with one of the first `k` names were changed. -/
structure Touched (k : ℕ) (w w' : Process) : Prop where
  cwd : w'.cwd = w.cwd
  other : ∀ q, (∀ i < k, q ≠ fileName i :: w.cwd) → w'.disk.get q = w.disk.get q
  dir : ∀ q, w'.disk.get q = some .dir ↔ w.disk.get q = some .dir

theorem Touched.refl (k : ℕ) (w : Process) : Touched k w w :=
  ⟨rfl, fun _ _ => rfl, fun _ => Iff.rfl⟩

theorem Touched.trans {v u : Process} (h : Touched k w v) (h' : Touched k v u) : Touched k w u := by
  refine ⟨h'.cwd.trans h.cwd, ?_, fun q => (h'.dir q).trans (h.dir q)⟩
  intro q hq
  rw [h'.other q (by rw [h.cwd]; exact hq)]
  exact h.other q hq

/-- One node of the working directory that is no directory gets another value. -/
theorem Touched.one {v : Process} {x : Option Node} (hi : i < k) (hcwd : v.cwd = w.cwd)
    (hnot : w.disk.get (fileName i :: w.cwd) ≠ some .dir) (hx : x ≠ some .dir)
    (hget : ∀ q, v.disk.get q = if q = fileName i :: w.cwd then x else w.disk.get q) :
    Touched k w v := by
  refine ⟨hcwd, ?_, ?_⟩
  · intro q hq
    rw [hget, if_neg (hq i hi)]
  · intro q
    rw [hget]
    split
    · next heq =>
      rw [heq]
      exact ⟨fun h => absurd h hx, fun h => absurd h hnot⟩
    · exact Iff.rfl

theorem createfile_touched (h : w.disk.get w.cwd = some .dir) (hi : i < k) :
    Touched k w (createfile o n i w) := by
  unfold createfile Process.creat
  by_cases hnot : w.disk.get (fileName i :: w.cwd) = some .dir
  · rw [if_neg (not_not.mpr h), if_pos hnot]
    split <;> exact Touched.refl k w
  · rw [if_neg (not_not.mpr h), if_neg hnot]
    split
    · have hget := get_setSize h hnot 0
      have hcreat : Touched k w ⟨setSize (fileName i) w.cwd 0 w.disk, w.cwd⟩ :=
        Touched.one hi rfl hnot (by exact nofun) hget
      refine hcreat.trans ?_
      have hdir := (hcreat.dir w.cwd).mpr h
      have hfile := (hcreat.dir (fileName i :: w.cwd)).not.mpr hnot
      exact Touched.one hi rfl hfile (by exact nofun) (get_setSize hdir hfile (o.wrote n i))
    · exact Touched.refl k w

theorem unlinkfile_spec (o : Outcomes) (n i : ℕ) (w : Process) :
    (unlinkfile o n i w).cwd = w.cwd ∧ ∀ q, (unlinkfile o n i w).disk.get q =
      if o.unlink n i = true ∧ q = fileName i :: w.cwd ∧ w.disk.get q ≠ some .dir then none
      else w.disk.get q := by
  have hkeep (h : ¬ (o.unlink n i = true ∧ w.disk.get (fileName i :: w.cwd) ≠ none ∧
      w.disk.get (fileName i :: w.cwd) ≠ some .dir)) : unlinkfile o n i w = w := by
    unfold unlinkfile Process.unlink
    split
    · split
      · rfl
      · split
        · rfl
        · exact absurd ⟨‹_›, ‹_›, ‹_›⟩ h
    · rfl
  by_cases hok : o.unlink n i = true ∧ w.disk.get (fileName i :: w.cwd) ≠ none ∧
      w.disk.get (fileName i :: w.cwd) ≠ some .dir
  · obtain ⟨x, hx⟩ := Option.ne_none_iff_exists'.mp hok.2.1
    cases x with
    | dir => exact absurd hx hok.2.2
    | file size =>
      obtain ⟨v, hv, hcwd, hget⟩ := Process.unlink_ok hx
      unfold unlinkfile
      rw [if_pos hok.1, hv]
      refine ⟨hcwd, ?_⟩
      intro q
      show v.disk.get q = _
      rw [hget]
      by_cases hq : q = fileName i :: w.cwd
      · rw [if_pos hq, if_pos ⟨hok.1, hq, by rw [hq]; exact hok.2.2⟩]
      · rw [if_neg hq, if_neg fun h => hq h.2.1]
  · rw [hkeep hok]
    refine ⟨rfl, ?_⟩
    intro q
    split
    · next h =>
      obtain ⟨hunlink, rfl, hnot⟩ := h
      by_contra hne
      exact hok ⟨hunlink, hne, hnot⟩
    · rfl

theorem unlinkfile_touched (hi : i < k) : Touched k w (unlinkfile o n i w) := by
  obtain ⟨hcwd, hget⟩ := unlinkfile_spec o n i w
  refine ⟨hcwd, ?_, ?_⟩
  · intro q hq
    rw [hget, if_neg fun h => hq i hi h.2.1]
  · intro q
    rw [hget]
    split
    · next h => exact ⟨nofun, fun hdir => absurd hdir h.2.2⟩
    · exact Iff.rfl

theorem createfiles_touched (h : w.disk.get w.cwd = some .dir) (n : ℕ) :
    Touched n w (createfiles o n w) := by
  have key (is : List ℕ) (his : ∀ i ∈ is, i < n) (v : Process) (hv : Touched n w v) :
      Touched n w (is.foldl (fun w i => createfile o n i w) v) := by
    induction is generalizing v with
    | nil => exact hv
    | cons i is ih =>
      rw [List.forall_mem_cons] at his
      have hdir : v.disk.get v.cwd = some .dir := by
        rw [hv.cwd]
        exact (hv.dir _).mpr h
      exact ih his.2 _ (hv.trans (createfile_touched hdir his.1))
  exact key _ (fun i hi => List.mem_range.mp hi) w (Touched.refl n w)

/-- Each file whose `unlink` succeeds is gone once its turn was. -/
theorem unlinkfiles_touched (n : ℕ) (w : Process) : Touched n w (unlinkfiles o n w) ∧
    ∀ i < n, o.unlink n i = true → w.disk.get (fileName i :: w.cwd) ≠ some .dir →
      (unlinkfiles o n w).disk.get (fileName i :: w.cwd) = none := by
  have key (m : ℕ) (hm : m ≤ n) :
      Touched n w ((List.range m).foldl (fun w i => unlinkfile o n i w) w) ∧
        ∀ i < m, o.unlink n i = true → w.disk.get (fileName i :: w.cwd) ≠ some .dir →
          ((List.range m).foldl (fun w i => unlinkfile o n i w) w).disk.get
            (fileName i :: w.cwd) = none := by
    induction m with
    | zero => exact ⟨Touched.refl n w, fun i hi => absurd hi (Nat.not_lt_zero i)⟩
    | succ m ih =>
      obtain ⟨htouched, hgone⟩ := ih (Nat.le_of_succ_le hm)
      rw [List.range_succ, List.foldl_append]
      generalize (List.range m).foldl (fun w i => unlinkfile o n i w) w = v at htouched hgone
      refine ⟨htouched.trans (unlinkfile_touched hm), ?_⟩
      intro i hi hok hnot
      show (unlinkfile o n m v).disk.get _ = none
      rw [(unlinkfile_spec o n m v).2]
      rcases Nat.lt_succ_iff_lt_or_eq.mp hi with hi | rfl
      · rw [hgone i hi hok hnot, ite_self]
      · rw [if_pos ⟨hok, by rw [htouched.cwd], (htouched.dir _).not.mpr hnot⟩]
  exact key n (Nat.le_refl n)

theorem crsyncdel_touched (h : w.disk.get w.cwd = some .dir) (n : ℕ) :
    Touched n w (crsyncdel o n w) ∧
      ∀ i < n, o.unlink n i = true → w.disk.get (fileName i :: w.cwd) ≠ some .dir →
        (crsyncdel o n w).disk.get (fileName i :: w.cwd) = none := by
  have hcreate := createfiles_touched (o := o) h n
  obtain ⟨hunlink, hgone⟩ := unlinkfiles_touched (o := o) n (createfiles o n w)
  refine ⟨hcreate.trans hunlink, ?_⟩
  intro i hi hok hnot
  rw [hcreate.cwd] at hgone
  exact hgone i hi hok ((hcreate.dir _).not.mpr hnot)

/-! ## the program -/

/-- The nodes with `gone` are gone, and those without `changed` are as they were. -/
def Without (gone changed : Path → Prop) (t t' : Disk) : Prop :=
  ∀ q, (gone q → t'.get q = none) ∧ (¬ changed q → t'.get q = t.get q)

theorem cleanup_spec (h : w.disk.get w.cwd = some .dir) : (cleanup w).cwd = w.cwd.tail ∧
    Without (fun q => dir :: w.cwd.tail <:+ q) (fun q => dir :: w.cwd.tail <:+ q) w.disk
      (cleanup w).disk := by
  unfold cleanup
  rw [chdir_up h]
  refine ⟨rfl, fun q => ⟨fun hq => ?_, fun hq => ?_⟩⟩
  · exact (Tree.get_prune q).trans (if_pos hq)
  · exact (Tree.get_prune q).trans (if_neg hq)

/-- **What is left of a run.**  When `synctestdir` can be entered, it is gone afterwards with all that
was in it, and nothing else has changed, whatever calls fail.  Otherwise the files are made in the
working directory: those of the names that the program uses are gone, but for one whose `unlink`
fails, and so is `synctestdir` in the directory above with all that was in it. -/
theorem main_without (h : w.disk.get w.cwd = some .dir) :
    (Enters o w → (main o w).cwd = w.cwd ∧
      Without (fun q => dir :: w.cwd <:+ q) (fun q => dir :: w.cwd <:+ q) w.disk
        (main o w).disk) ∧
    (¬ Enters o w → (main o w).cwd = w.cwd.tail ∧
      Without
        (fun q => dir :: w.cwd.tail <:+ q ∨
          (∃ i < numFiles, o.unlink numFiles i = true ∧ q = fileName i :: w.cwd) ∧
            w.disk.get q ≠ some .dir)
        (fun q => dir :: w.cwd.tail <:+ q ∨
          (∃ i < numFiles, q = fileName i :: w.cwd) ∧ w.disk.get q ≠ some .dir)
        w.disk (main o w).disk) := by
  rw [main_eq]
  refine ⟨?_, ?_⟩
  · intro hin
    obtain ⟨hcwd, hdir, hoff⟩ := setup_enters h hin
    generalize setup o w = v at hcwd hdir hoff
    have htouched := (crsyncdel_touched (o := o) (by rw [hcwd]; exact hdir) numFiles).1
    have hup : (crsyncdel o numFiles v).disk.get (crsyncdel o numFiles v).cwd = some .dir := by
      rw [htouched.cwd, htouched.dir, hcwd]
      exact hdir
    obtain ⟨hcwd', hwithout⟩ := cleanup_spec hup
    rw [htouched.cwd, hcwd] at hcwd' hwithout
    refine ⟨hcwd', fun q => ⟨(hwithout q).1, fun hq => ?_⟩⟩
    rw [(hwithout q).2 hq, htouched.other, hoff q hq]
    intro i _ heq
    rw [hcwd] at heq
    exact hq (heq ▸ List.suffix_cons _ _)
  · intro hout
    rw [setup_stays h hout]
    obtain ⟨htouched, hgone⟩ := crsyncdel_touched (o := o) h numFiles
    have hup : (crsyncdel o numFiles w).disk.get (crsyncdel o numFiles w).cwd = some .dir := by
      rw [htouched.cwd, htouched.dir]
      exact h
    obtain ⟨hcwd', hwithout⟩ := cleanup_spec hup
    rw [htouched.cwd] at hcwd' hwithout
    refine ⟨hcwd', fun q => ?_⟩
    by_cases hq : dir :: w.cwd.tail <:+ q
    · exact ⟨fun _ => (hwithout q).1 hq, fun hnot => absurd (.inl hq) hnot⟩
    · rw [(hwithout q).2 hq]
      refine ⟨?_, ?_⟩
      · rintro (hsuffix | ⟨⟨i, hi, hok, rfl⟩, hnot⟩)
        · exact absurd hsuffix hq
        · exact hgone i hi hok hnot
      · intro hnot
        by_cases hdir : w.disk.get q = some .dir
        · rw [(htouched.dir q).mpr hdir, hdir]
        · apply htouched.other
          intro i hi heq
          exact hnot (.inr ⟨⟨i, hi, heq⟩, hdir⟩)

end

/-! a process in the root directory, with a file called `synctestdir` -/

section Examples

def sampleOutcomes : Outcomes := ⟨true, fun _ _ => true, fun _ _ => 16384, fun _ _ => true⟩

theorem bare_root : (Tree.bare : Disk).get [] = some .dir := rfl

theorem bare_dir : (Tree.bare : Disk).get [dir] ≠ some .dir := by decide +kernel

def dirFile : Disk := (Tree.bare : Disk).put dir [] (.file 1) bare_root bare_dir

theorem dirFile_f3 : dirFile.get [fileName 3] ≠ some .dir := by decide +kernel

theorem dirFile_root : dirFile.get [] = some .dir := dirFile.root

def sampleProcess : Process where
  disk := dirFile.put (fileName 3) [] (.file 7) dirFile_root dirFile_f3
  cwd := []

/-- The file `f3` of the user is lost. -/
theorem main_without_file : sampleProcess.disk.get [fileName 3] = some (.file 7) ∧
    (main sampleOutcomes sampleProcess).disk.get [fileName 3] = none := by
  refine ⟨by decide +kernel, ?_⟩
  have hout : ¬ Enters sampleOutcomes sampleProcess := by decide +kernel
  have hdisk := (@main_without sampleOutcomes sampleProcess rfl).2 hout
  exact (hdisk.2 _).1 (.inr ⟨⟨3, by decide, rfl, rfl⟩, by decide +kernel⟩)

end Examples

end Syncperf
