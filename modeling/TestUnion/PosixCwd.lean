import TestUnion.PosixSpec

/-!
# System calls of a process with a working directory

* `Process`         a file tree and the working directory of the process;
* `start`, `parts`  where a string is looked up from, and the components that a call reads of it;
* `Process.parent`, `Process.place`   the directory of the node a string is about, and the node;
* `Process.mkdir`, `rmdir`, `chdir`   the calls that take a string;
* `Process.creat`, `unlink`   the calls that take a name in the working directory;
* `attempt`         the return value of a call and the process after it;
* `resolveFrom_mono`   what is found in a tree is found in a larger one;
* `mkdir_ok`, `chdir_made`, `chdir_up`, `rmdir_made`, `rmdir_keeps`   what the calls do.
-/

namespace PosixCwd

open FileTree PosixPath PosixCalls

structure Process where
  disk : Disk
  cwd : Path

def start (cwd : Path) (s : Str) : Path := if s.head? = some '/' then [] else cwd

/-- Slashes at the end count for nothing. -/
def parts (s : Str) : List Comp := ((s.splitOn '/').filter (· ≠ [])).map comp

/-- the return value, and the process, which a call that fails leaves as it was -/
def attempt (r : Except Errno Process) (w : Process) : ℤ × Process :=
  match r with
  | .error _ => (-1, w)
  | .ok w => (0, w)

namespace Process

variable (w : Process)

def parent (s : Str) : Except Errno Path :=
  resolveFrom w.disk (start w.cwd s) (parts s).dropLast

/-- The last component has to be a name; `e` is the error when it is not. -/
def place (e : Errno) (s : Str) : Except Errno (Name × Path) :=
  if s = [] then .error .enoent
  else
    match w.parent s with
    | .error e' => .error e'
    | .ok p =>
      if w.disk.get p ≠ some .dir then .error .enotdir
      else
        match (parts s).getLast? with
        | some (.down n) => .ok (n, p)
        | _ => .error e

def mkdir (s : Str) : Except Errno Process :=
  match w.place .eexist s with
  | .error e => .error e
  | .ok (n, p) =>
    if h : w.disk.get p = some .dir ∧ w.disk.get (n :: p) = none then
      .ok { w with
        disk := w.disk.put n p .dir h.1 (by rw [h.2]; exact (Option.some_ne_none _).symm) }
    else .error .eexist

def rmdir (s : Str) : Except Errno Process :=
  match w.place .enotempty s with
  | .error e => .error e
  | .ok (n, p) =>
    if w.disk.get (n :: p) = none then .error .enoent
    else if w.disk.get (n :: p) ≠ some .dir then .error .enotdir
    else if h : w.disk.Childless (n :: p) then
      .ok { w with disk := w.disk.erase n p (Tree.childless_iff.mp h) }
    else .error .enotempty

def chdir (s : Str) : Except Errno Process :=
  if s = [] then .error .enoent
  else
    match resolveFrom w.disk (start w.cwd s) (parts s) with
    | .error e => .error e
    | .ok p => if w.disk.get p = some .dir then .ok { w with cwd := p } else .error .enotdir

/-- The file is made, or truncated. -/
def creat (n : Name) : Except Errno Process :=
  if w.disk.get w.cwd ≠ some .dir then .error .enoent
  else if w.disk.get (n :: w.cwd) = some .dir then .error .eisdir
  else .ok { w with disk := setSize n w.cwd 0 w.disk }

def unlink (n : Name) : Except Errno Process :=
  if w.disk.get (n :: w.cwd) = none then .error .enoent
  else if hd : w.disk.get (n :: w.cwd) = some .dir then .error .eisdir
  else .ok { w with disk := w.disk.erase n w.cwd (Tree.no_children_of_ne_dir hd) }

end Process

variable {w w' : Process} {s : Str} {t t' : Disk} {n m : Name} {p q : Path} {cs : List Comp}
  {e : Errno}

/-! ## looking up -/

theorem resolveFrom_mono (hle : ∀ q, t.get q ≠ none → t'.get q = t.get q)
    (h : resolveFrom t p cs = .ok q) : resolveFrom t' p cs = .ok q := by
  induction cs generalizing p with
  | nil => exact h
  | cons c cs ih =>
    rw [resolveFrom_cons] at h ⊢
    split at h
    · cases h
    · next hp =>
      have hp := not_not.mp hp
      rw [hle p (by rw [hp]; exact Option.some_ne_none _), if_neg (not_not.mpr hp)]
      cases c with
      | stay => exact ih h
      | up => exact ih h
      | down n =>
        simp only at h ⊢
        split at h
        · cases h
        · next hn =>
          rw [hle _ hn, if_neg hn]
          exact ih h

theorem resolveFrom_stay (hp : t.get p = some .dir) (h : ∀ c ∈ cs, c = .stay) :
    resolveFrom t p cs = .ok p := by
  induction cs with
  | nil => rfl
  | cons c cs ih =>
    rw [resolveFrom_cons, if_neg (not_not.mpr hp), h c (List.mem_cons_self ..)]
    exact ih fun x hx => h x (List.mem_cons_of_mem _ hx)

theorem stay_of_foldl {cs : List Comp} (hup : Comp.up ∉ cs) (h : cs.foldl stepTo [] = []) :
    ∀ c ∈ cs, c = .stay := by
  induction cs with
  | nil => exact fun c hc => absurd hc List.not_mem_nil
  | cons c cs ih =>
    have hup' := not_or.mp (List.mem_cons.not.mp hup)
    rw [List.foldl_cons, foldl_stepTo, List.append_eq_nil_iff] at h
    intro c' hc'
    rcases List.mem_cons.mp hc' with rfl | hc'
    · cases c' with
      | stay => rfl
      | up => exact absurd rfl hup'.1
      | down n => cases h.2
    · exact ih hup'.2 h.1 c' hc'

theorem Process.place_ok :
    w.place e s = .ok (n, p) ↔ w.parent s = .ok p ∧ w.disk.get p = some .dir ∧
      (parts s).getLast? = some (.down n) := by
  unfold place
  by_cases hs : s = []
  · subst hs
    refine ⟨nofun, ?_⟩
    rintro ⟨_, _, h⟩
    cases h
  · rw [if_neg hs]
    cases hr : w.parent s with
    | error e' =>
      refine ⟨nofun, ?_⟩
      rintro ⟨h, _⟩
      cases h
    | ok r =>
      dsimp only
      by_cases hd : w.disk.get r = some .dir
      · rw [if_neg (not_not.mpr hd)]
        split
        · next m hm =>
          rw [hm]
          refine ⟨?_, ?_⟩
          · intro h
            cases h
            exact ⟨rfl, hd, rfl⟩
          · rintro ⟨h, _, h'⟩
            cases h
            cases h'
            rfl
        · next hnot =>
          refine ⟨nofun, ?_⟩
          rintro ⟨_, _, h⟩
          exact absurd h (hnot n)
      · rw [if_pos hd]
        refine ⟨nofun, ?_⟩
        rintro ⟨h, h', _⟩
        cases h
        exact absurd h' hd

/-! ## a new directory -/

theorem Process.mkdir_ok (h : w.mkdir s = .ok w') :
    ∃ n p, w.parent s = .ok p ∧ (parts s).getLast? = some (.down n) ∧ w.disk.get p = some .dir ∧
      w.disk.get (n :: p) = none ∧ w'.cwd = w.cwd ∧
      ∀ q, w'.disk.get q = if q = n :: p then some .dir else w.disk.get q := by
  unfold mkdir at h
  cases hp : w.place .eexist s with
  | error e => rw [hp] at h; cases h
  | ok r =>
    obtain ⟨n, p⟩ := r
    rw [hp] at h
    dsimp only at h
    obtain ⟨hparent, hdir, hlast⟩ := place_ok.mp hp
    split at h
    · next hc =>
      cases h
      have hnot : w.disk.get (n :: p) ≠ some .dir := by
        rw [hc.2]
        exact (Option.some_ne_none _).symm
      exact ⟨n, p, hparent, hlast, hdir, hc.2, rfl, Tree.get_put hc.1 hnot⟩
    · cases h

theorem parts_eq (h : (parts s).getLast? = some (.down n)) :
    parts s = (parts s).dropLast ++ [.down n] ∧ s ≠ [] := by
  obtain ⟨cs, hcs⟩ := List.getLast?_eq_some_iff.mp h
  refine ⟨by rw [hcs, List.dropLast_concat], ?_⟩
  rintro rfl
  cases h

/-- a tree with one more node -/
theorem get_of_made {v : Node} (hnone : t.get (n :: p) = none)
    (hget : ∀ q, t'.get q = if q = n :: p then some v else t.get q) {q : Path}
    (hq : t.get q ≠ none) : t'.get q = t.get q := by
  rw [hget, if_neg]
  rintro rfl
  exact hq hnone

/-- The directory that was made can be entered. -/
theorem Process.chdir_made {v : Process} (hcwd : v.cwd = w.cwd) (hparent : w.parent s = .ok p)
    (hlast : (parts s).getLast? = some (.down n)) (hdir : w.disk.get p = some .dir)
    (hnone : w.disk.get (n :: p) = none)
    (hget : ∀ q, v.disk.get q = if q = n :: p then some .dir else w.disk.get q) :
    v.chdir s = .ok ⟨v.disk, n :: p⟩ := by
  obtain ⟨hparts, hs⟩ := parts_eq hlast
  have hle : ∀ q, w.disk.get q ≠ none → v.disk.get q = w.disk.get q :=
    fun q hq => get_of_made hnone hget hq
  have hnew : v.disk.get (n :: p) = some .dir := by
    rw [hget, if_pos rfl]
  have hp : v.disk.get p = some .dir := by
    rw [hle p (by rw [hdir]; exact Option.some_ne_none _)]
    exact hdir
  have hres : resolveFrom v.disk (start v.cwd s) (parts s) = .ok (n :: p) := by
    rw [hparts, hcwd, resolveFrom_append _ _ (resolveFrom_mono hle hparent), resolveFrom_cons,
      if_neg (not_not.mpr hp)]
    dsimp only
    rw [if_neg (by rw [hnew]; exact Option.some_ne_none _)]
    rfl
  unfold chdir
  rw [if_neg hs, hres]
  dsimp only
  rw [if_pos hnew]

theorem Process.chdir_up (hcwd : w.cwd = n :: p) (h : w.disk.get (n :: p) = some .dir) :
    w.chdir ['.', '.'] = .ok ⟨w.disk, p⟩ := by
  have hp : w.disk.get p = some .dir := Tree.get_parent (by rw [h]; exact Option.some_ne_none _)
  have hparts : parts ['.', '.'] = [.up] := by decide
  have hstart : start w.cwd ['.', '.'] = n :: p := hcwd
  unfold chdir
  rw [if_neg (List.cons_ne_nil _ _), hstart, hparts, resolveFrom_cons, if_neg (not_not.mpr h)]
  show (if w.disk.get p = some .dir then _ else _) = _
  rw [if_pos hp]
  rfl

/-! ## an empty directory -/

theorem Process.rmdir_made (hparent : w.parent s = .ok p)
    (hlast : (parts s).getLast? = some (.down n)) (h : w.disk.get (n :: p) = some .dir)
    (hc : ∀ m, w.disk.get (m :: n :: p) = none) :
    ∃ w', w.rmdir s = .ok w' ∧
      ∀ q, w'.disk.get q = if q = n :: p then none else w.disk.get q := by
  have hne : w.disk.get (n :: p) ≠ none := by
    rw [h]
    exact Option.some_ne_none _
  have hplace : w.place .enotempty s = .ok (n, p) :=
    place_ok.mpr ⟨hparent, Tree.get_parent hne, hlast⟩
  unfold rmdir
  rw [hplace]
  dsimp only
  rw [if_neg hne, if_neg (not_not.mpr h), dif_pos (Tree.childless_iff.mpr hc)]
  exact ⟨_, rfl, Tree.get_erase hc⟩

/-- A node in another directory is not removed. -/
theorem Process.rmdir_keeps (hparent : w.parent s ≠ .ok p) :
    (attempt (w.rmdir s) w).2.disk.get (n :: p) = w.disk.get (n :: p) := by
  unfold rmdir
  cases hp : w.place .enotempty s with
  | error e => rfl
  | ok r =>
    obtain ⟨m, q⟩ := r
    have hq : w.parent s = .ok q := (place_ok.mp hp).1
    dsimp only
    split
    · rfl
    · split
      · rfl
      · split
        · next hc =>
          show (w.disk.erase m q (Tree.childless_iff.mp hc)).get (n :: p) = _
          rw [Tree.get_erase, if_neg]
          intro heq
          rw [(List.cons.inj heq).2] at hparent
          exact hparent hq
        · rfl

/-! ## the files of the working directory -/

theorem Process.creat_ok (h : w.disk.get w.cwd = some .dir) (hn : w.disk.get (n :: w.cwd) = none) :
    ∃ w', w.creat n = .ok w' ∧ w'.cwd = w.cwd ∧
      ∀ q, w'.disk.get q = if q = n :: w.cwd then some (.file 0) else w.disk.get q := by
  have hnot : w.disk.get (n :: w.cwd) ≠ some .dir := by
    rw [hn]
    exact (Option.some_ne_none _).symm
  unfold creat
  rw [if_neg (not_not.mpr h), if_neg hnot]
  exact ⟨_, rfl, rfl, get_setSize h hnot 0⟩

theorem Process.unlink_ok {k : ℕ} (h : w.disk.get (n :: w.cwd) = some (.file k)) :
    ∃ w', w.unlink n = .ok w' ∧ w'.cwd = w.cwd ∧
      ∀ q, w'.disk.get q = if q = n :: w.cwd then none else w.disk.get q := by
  have hnot : w.disk.get (n :: w.cwd) ≠ some .dir := by
    rw [h]
    simp
  unfold unlink
  rw [if_neg (by rw [h]; exact Option.some_ne_none _), dif_neg hnot]
  exact ⟨_, rfl, rfl, Tree.get_erase (Tree.no_children_of_ne_dir hnot)⟩

end PosixCwd
