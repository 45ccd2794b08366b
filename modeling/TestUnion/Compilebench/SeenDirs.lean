import TestUnion.Compilebench.NativeTotal

/-!
# compilebench: the directories that `run_directory` has seen

* `Clear`           what a call of `run_directory` may find: an existing working directory, and no
                    file where a name of the dataset needs a directory;
* `RunCall.Marked`  every name in `seendirs` is a directory;
* `FileChange`      a tree that has changed at one path, where it had no directory;
* `Sound`           what holds between two rounds of the loop; `Sound.round` and `reached_sound`
                    keep it over a round and over the run;
* `seendirs_sound`  the directories are marked rightly, and a file is opened in an existing one.
-/

namespace Compilebench

open FileTree PosixPath PosixCalls ExceptLoop

structure Clear (env : Env) (c : RunCall) (d : Name) : Prop where
  base : c.disk.get env.base = some .dir
  dirname : c.dirname = d.1
  normal : ∀ e ∈ c.dataset, Normal e.1
  apart : Apart c.dataset
  noFile : ∀ e ∈ c.dataset, NoFile c.disk (dirOf env d) (pathOf e.1).tail

def RunCall.Marked (env : Env) (c : RunCall) (seen : Finset Str) (t : Disk) : Prop :=
  ∀ y ∈ seen, isdir t (c.fname env y) = true

variable {env : Env} {c : RunCall} {d : Name} {D f : Path} {dataset : Entries}
  {seen seen' : Finset Str} {u u' u'' : Disk} {x : Str} {sz : Size}

/-! ## the names that are marked -/

theorem noteDirs_normal (fuel : ℕ) {dname : Str} (hd : dname ≠ [] → Normal dname)
    (hseen : ∀ y ∈ seen, Normal y) (h : noteDirs fuel dname seen = .ok seen') :
    ∀ y ∈ seen', Normal y := by
  induction fuel generalizing dname seen with
  | zero => cases h
  | succ fuel ih =>
    unfold noteDirs at h
    split at h
    · cases h
      exact hseen
    · next hne =>
      refine ih (normal_of_dirname (hd hne)) ?_ h
      intro y hy
      rcases Finset.mem_insert.mp hy with rfl | hy
      · exact hd hne
      · exact hseen y hy

theorem ensureDir_normal {curdir : Str} (hx : Normal x) (hseen : ∀ y ∈ seen, Normal y)
    (h : ensureDir curdir (dirname x) seen u = .ok (seen', u')) : ∀ y ∈ seen', Normal y := by
  unfold ensureDir at h
  split at h
  · simp only [bind_eq_ok] at h
    obtain ⟨s, hs, h⟩ := h
    cases h
    exact noteDirs_normal _ (normal_of_dirname hx) hseen hs
  · cases h
    exact hseen

/-! ## a change of one file -/

def FileChange (f : Path) (u u' : Disk) : Prop :=
  ∀ q, u'.get q = u.get q ∨ (q = f ∧ u.get q ≠ some .dir)

theorem FileChange.refl (f : Path) (u : Disk) : FileChange f u u := fun _ => .inl rfl

theorem FileChange.trans (h : FileChange f u u') (h' : FileChange f u' u'') :
    FileChange f u u'' := by
  intro q
  rcases h q with h1 | h1
  · rw [← h1]
    exact h' q
  · exact .inr h1

theorem FileChange.dir (h : FileChange f u u') {q : Path} (hq : u.get q = some .dir) :
    u'.get q = some .dir := by
  rcases h q with h1 | ⟨_, h1⟩
  · rw [h1]
    exact hq
  · exact absurd hq h1

theorem unlinkQuiet_change {s : Str} (hs : Plain s) :
    FileChange (pathOf s) u (unlinkQuiet s u) := by
  unfold unlinkQuiet
  split
  · next v hv =>
    obtain ⟨hnot, hget⟩ := unlink_ok hs hv
    intro q
    by_cases hq : q = pathOf s
    · rw [hq]
      exact .inr ⟨rfl, hnot⟩
    · rw [hget, if_neg hq]
      exact .inl rfl
  · exact FileChange.refl _ _

theorem before_change (hs : Plain (c.fname env x)) :
    FileChange (pathOf (c.fname env x)) u (c.before env x u) := by
  unfold RunCall.before
  split
  · exact unlinkQuiet_change hs
  · exact FileChange.refl _ _

/-- Opening a file and writing it. -/
theorem rewrite_change {s : Str} {n : Name} {p : Path} {readfirst : Bool} (hs : Plain s)
    (hopen : openAppend s u = .ok ((n, p), u'))
    (hwrite : rewrite env readfirst n p sz u' = .ok u'') : FileChange (pathOf s) u u'' := by
  obtain ⟨htarget, hnot, _⟩ := openAppend_ok hopen
  obtain ⟨hpath, hp⟩ := target_ok hs htarget
  intro q
  rw [rewritten_get hopen hp hwrite]
  by_cases hq : q = n :: p
  · rw [hq, hpath]
    exact .inr ⟨rfl, hnot⟩
  · rw [if_neg hq]
    exact .inl rfl

/-! ## between two rounds -/

structure Sound (D : Path) (dataset : Entries) (seen : Finset Str) (u : Disk) : Prop where
  top : dataset ≠ [] → u.get D = some .dir
  normal : ∀ y ∈ seen, Normal y
  marked : ∀ y ∈ seen, u.get (pathOf y ++ D) = some .dir
  noFile : ∀ e ∈ dataset, NoFile u D (pathOf e.1).tail

theorem Sound.start (hc : Clear env c d) :
    Sound (dirOf env d) c.dataset ∅ (mkdirKeep (join env.benchdir d.1) c.disk).2 := by
  refine ⟨?_, ?_, ?_, ?_⟩
  · intro hne
    obtain ⟨e, l, hl⟩ := List.exists_cons_of_ne_nil hne
    rw [mkdirKeep_curdir hc.base]
    -- the first name needs the directory
    rcases hc.noFile e (by rw [hl]; simp) [] List.nil_suffix with h | h
    · rw [if_pos ⟨rfl, h⟩]
    · have h' : c.disk.get (dirOf env d) = some .dir := h
      rw [h', if_neg fun hx => absurd hx.2 (Option.some_ne_none _)]
  · exact fun y hy => absurd hy (Finset.notMem_empty y)
  · exact fun y hy => absurd hy (Finset.notMem_empty y)
  · intro e he q hq
    rw [mkdirKeep_curdir hc.base]
    split
    · exact .inr rfl
    · exact hc.noFile e he q hq

/-- A file of the dataset has changed. -/
theorem Sound.change (hu : Sound D dataset seen u) (hn : ∀ e ∈ dataset, Normal e.1)
    (hapart : Apart dataset) (hx : (x, sz) ∈ dataset) (h : FileChange (pathOf x ++ D) u u') :
    Sound D dataset seen u' := by
  refine ⟨fun hne => h.dir (hu.top hne), hu.normal, fun y hy => h.dir (hu.marked y hy), ?_⟩
  intro e he q hq
  rcases h (q ++ D) with h1 | ⟨h1, _⟩
  · rw [h1]
    exact hu.noFile e he q hq
  · -- the file would lie above the name `e`
    obtain ⟨n, r, hpath⟩ := List.exists_cons_of_ne_nil (hn e he).pathOf_ne_nil
    rw [hpath, List.tail_cons, List.append_cancel_right h1] at hq
    have heq := hapart (x, sz) hx e he (by rw [hpath]; exact hq.trans (List.suffix_cons n r))
    rw [heq, hpath] at hq
    exact absurd hq.length_le (by simp)

/-- Directories were made. -/
theorem Sound.adds {top : Path} (hu : Sound D dataset seen u) (h : AddsDirs top u u')
    (hnormal : ∀ y ∈ seen', Normal y) (hmarked : ∀ y ∈ seen', u'.get (pathOf y ++ D) = some .dir) :
    Sound D dataset seen' u' := by
  refine ⟨?_, hnormal, hmarked, ?_⟩
  · intro hne
    rcases h D with h1 | ⟨_, h1, _⟩
    · rw [h1]
      exact hu.top hne
    · exact h1
  · intro e he q hq
    rcases h (q ++ D) with h1 | ⟨_, h1, _⟩
    · rw [h1]
      exact hu.noFile e he q hq
    · exact .inr h1

section
variable (hc : Clear env c d)
include hc

theorem Clear.fname (hx : Normal x) :
    Plain (c.fname env x) ∧ pathOf (c.fname env x) = pathOf x ++ dirOf env d := by
  unfold RunCall.fname
  rw [hc.dirname, pathOf_join hx.local.relative (plain_curdir env d).1, pathOf_curdir]
  exact ⟨(plain_curdir env d).join hx.local, rfl⟩

/-- the directory in which the file of an entry lies -/
theorem Clear.parent (hx : Normal x) {n : Name} {r : Path} (hpath : pathOf x = n :: r) :
    Plain (PosixPath.dirname (c.fname env x)) ∧
      pathOf (PosixPath.dirname (c.fname env x)) = r ++ dirOf env d := by
  have hplain := plain_curdir env d
  have hlast := curdir_getLast env d
  have hdir : PosixPath.dirname (c.fname env x) = extend (join env.benchdir d.1) r := by
    unfold RunCall.fname
    rw [hc.dirname, join_normal hplain.1 hlast hx, hpath, dirname_extend hplain hlast]
  obtain ⟨hp, _, hpath'⟩ := extend_spec hplain hlast r
  rw [hdir, hpath', pathOf_curdir]
  exact ⟨hp, rfl⟩

section
variable (hu : Sound (dirOf env d) c.dataset seen u)
include hu

/-- The names that are marked are directories for the system call. -/
theorem Sound.isdir : c.Marked env seen u := by
  intro y hy
  obtain ⟨hplain, hpath⟩ := hc.fname (hu.normal y hy)
  apply isdir_of_dir hplain
  rw [hpath]
  exact hu.marked y hy

section
variable (hx : (x, sz) ∈ c.dataset)
include hx

/-- The first part of a round never fails, and the directory of the entry is there after it. -/
theorem Sound.dirs : ∃ seen' u',
    ensureDir (join env.benchdir c.dirname) (dirname x) seen u = .ok (seen', u') ∧
      Sound (dirOf env d) c.dataset seen' u' ∧
      u'.get (pathOf (dirname (c.fname env x))) = some .dir := by
  have hnorm := hc.normal _ hx
  obtain ⟨n, r, hpath⟩ := List.exists_cons_of_ne_nil hnorm.pathOf_ne_nil
  have hno : NoFile u (dirOf env d) r := by
    have h := hu.noFile _ hx
    rw [hpath] at h
    exact h
  obtain ⟨seen', u', hdirs, hdir, hadds, hmarked⟩ :=
    ensureDir_total (plain_curdir env d) (curdir_getLast env d) (pathOf_curdir env d)
      (hu.top (List.ne_nil_of_mem hx)) hu.marked hnorm hpath hno
  refine ⟨seen', u', ?_, ?_, ?_⟩
  · rw [hc.dirname]
    exact hdirs
  · exact hu.adds hadds (ensureDir_normal hnorm hu.normal hdirs) hmarked
  · rw [(hc.parent hnorm hpath).2]
    exact hdir

theorem Sound.before : Sound (dirOf env d) c.dataset seen (c.before env x u) := by
  obtain ⟨hplain, hpath⟩ := hc.fname (hc.normal _ hx)
  have hchange := before_change (u := u) hplain
  rw [hpath] at hchange
  exact hu.change hc.normal hc.apart hx hchange

/-- One round of the loop. -/
theorem Sound.round
    (h : runFile env (join env.benchdir c.dirname) c.unlinkFirst c.readfirst (seen, u) (x, sz)
      = .ok (seen', u')) : Sound (dirOf env d) c.dataset seen' u' := by
  obtain ⟨seen1, u1, hdirs, h1, _⟩ := hu.dirs hc hx
  rw [runFile_eq, hdirs] at h
  have h' : (call (openAppend (c.fname env x) (c.before env x u1)) >>= fun f =>
      rewrite env c.readfirst f.1.1 f.1.2 sz f.2 >>= fun v => .ok (seen1, v)) = .ok (seen', u') := h
  simp only [bind_eq_ok] at h'
  obtain ⟨⟨⟨n, p⟩, u2⟩, hopen, v, hwrite, hlast⟩ := h'
  cases hlast
  obtain ⟨hplain, hpath⟩ := hc.fname (hc.normal _ hx)
  have hchange := rewrite_change hplain (call_ok.mp hopen) hwrite
  rw [hpath] at hchange
  exact (h1.before hc hx).change hc.normal hc.apart hx hchange

end

end

/-! ## the run -/

theorem reached_sound {pre post : Entries} (hl : c.dataset = pre ++ post)
    (h : runLoop env pre c.dirname c.unlinkFirst c.readfirst c.disk = .ok (seen, u)) :
    Sound (dirOf env d) c.dataset seen u := by
  have hstart := Sound.start hc
  rw [← hc.dirname] at hstart
  apply foldlM_inv (I := fun _ (s : Finset Str × Disk) => Sound (dirOf env d) c.dataset s.1 s.2)
    hstart _ h
  rintro pre' ⟨x, sz⟩ post' ⟨seen, u⟩ ⟨seen', u'⟩ hpre hu hstep
  exact hu.round hc (by rw [hl, hpre]; simp) hstep

end

/-- When a round begins, and when the run ends, the marked names are directories; when a file is
opened they are, and the directory of the file exists. -/
theorem seendirs_sound (hc : Clear env c d) :
    (∀ x sz seen u, c.Reached env x sz seen u → c.Marked env seen u ∧ ∃ seen' u',
      ensureDir (join env.benchdir c.dirname) (dirname x) seen u = .ok (seen', u') ∧
        c.Marked env seen' u' ∧ c.Marked env seen' (c.before env x u') ∧
        isdir (c.before env x u') (dirname (c.fname env x)) = true) ∧
    ∀ seen u, c.run env = .ok (seen, u) → c.Marked env seen u := by
  refine ⟨?_, ?_⟩
  · intro x sz seen u hreach
    obtain ⟨pre, post, hl, hrun⟩ := hreach
    have hx : (x, sz) ∈ c.dataset := by
      rw [hl]
      simp
    have hu := reached_sound hc hl hrun
    obtain ⟨seen', u', hdirs, hu', hparent⟩ := hu.dirs hc hx
    have hnorm := hc.normal _ hx
    obtain ⟨n, r, hpath⟩ := List.exists_cons_of_ne_nil hnorm.pathOf_ne_nil
    refine ⟨hu.isdir hc, seen', u', hdirs, hu'.isdir hc, (hu'.before hc hx).isdir hc, ?_⟩
    apply isdir_of_dir (hc.parent hnorm hpath).1
    exact (before_change (hc.fname hnorm).1).dir hparent
  · intro seen u hrun
    exact (reached_sound hc (List.append_nil _).symm hrun).isdir hc

/-! ## a call -/

theorem EmptyDir.clear (h : EmptyDir env c.disk) (hd : c.dirname = d.1)
    (hn : ∀ e ∈ c.dataset, Normal e.1) (hapart : Apart c.dataset) : Clear env c d := by
  refine ⟨h.dir, hd, hn, hapart, ?_⟩
  intro e _ q _
  left
  by_contra hne
  exact Tree.get_ne_none_of_suffix hne (List.suffix_append q _) (h.empty d)

/-- two files in one directory -/
def sampleCall : RunCall :=
  ⟨[(['a', '/', 'x'], Size.ofNat 1), (['a', '/', 'y'], Size.ofNat 2)], kernelName 0, true, true,
    sampleDisk⟩

theorem sampleCall_clear : Clear sampleEnv sampleCall (kernelDir 0) := by
  apply EmptyDir.clear sample_empty rfl
  · unfold sampleCall
    decide
  · unfold sampleCall Apart
    decide

theorem seendirs_sound_two :
    ∃ seen u, sampleCall.run sampleEnv = .ok (seen, u) ∧ ['a'] ∈ seen ∧
      sampleCall.Marked sampleEnv seen u :=
  ⟨_, _, rfl, by decide +kernel, (seendirs_sound sampleCall_clear).2 _ _ rfl⟩

end Compilebench
