import TestUnion.Synctest.FilesLive

/-!
# synctest: the directories that `doit` removes

* `exists_doChild`  a child can make all calls of its `do_child`;
* `follows`         after the forks the system with files can follow that of `Doit`;
* `removed_eq_made_iff`   `doit` removes what it has made exactly when `threads_per_dir` divides
                    `n_threads`.
-/

namespace Synctest

variable {cfg : Cfg} {pid : Fin cfg.nThreads → ℕ} {f : FileSt cfg} {left : ℤ} {target : Target}
  {tr : List (FileSt cfg × FileAct cfg × FileSt cfg)}

/-! ## no file stops a child -/

section
variable (htpd : 1 ≤ cfg.threadsPerDir) (hpid : Function.Injective pid)
include htpd hpid

/-- Every call finds its file, so that the `do_child` comes to its end. -/
theorem exists_doChild (hrun : Lts.Run (FileStep true pid) (fileInit cfg left target) tr f)
    {i : Fin cfg.nThreads} (he : enabled f.st (.doChild i)) :
    ∃ tr' f', Lts.Run (FileStep true pid) f tr' f' ∧ f'.st = next f.st (.doChild i) := by
  induction hn : (doChild true (pid i)).length - f.done i generalizing f tr with
  | zero =>
    have hlt := done_lt hrun i
    omega
  | succ n ih =>
    obtain ⟨c, hc, hposs, _⟩ := (files_live htpd hpid hrun i).1 he
    have hc : nextCall true pid f i = some c := hc
    have hstep : FileStep true pid f (.call i) (fileCall true pid f i c) :=
      ⟨⟨he, c, hc, hposs⟩, by simp only [fileNext, hc]⟩
    by_cases hlast : f.done i + 1 < (doChild true (pid i)).length
    · have hst : (fileCall true pid f i c).st = f.st := by rw [fileCall_st, if_pos hlast]
      have hdone : (fileCall true pid f i c).done i = f.done i + 1 := by
        rw [fileCall_done, Function.update_self, if_pos hlast]
      obtain ⟨tr', f', hrun', hf'⟩ := ih (hrun.snoc hstep) (by rw [hst]; exact he) (by omega)
      exact ⟨_, f', (Lts.Run.nil.snoc hstep).trans hrun', by rw [hf', hst]⟩
    · exact ⟨_, _, Lts.Run.nil.snoc hstep, by rw [fileCall_st, if_neg hlast]⟩

/-- A step of `doit` or of a child, with the calls that it stands for. -/
theorem follows_step (hrun : Lts.Run (FileStep true pid) (fileInit cfg left target) tr f) {a : Act cfg}
    (hfork : a ≠ .fork) (he : enabled f.st a) :
    ∃ tr' f', Lts.Run (FileStep true pid) f tr' f' ∧ f'.st = next f.st a := by
  by_cases hchild : ∃ i, a = .doChild i
  · obtain ⟨i, rfl⟩ := hchild
    exact exists_doChild htpd hpid hrun he
  · have hstep : FileStep true pid f (.proto a) (fileNext true pid f (.proto a)) :=
      ⟨⟨he, fun i hi => hchild ⟨i, hi⟩, fun h => absurd h hfork⟩, rfl⟩
    refine ⟨_, _, Lts.Run.nil.snoc hstep, ?_⟩
    cases a <;> rfl

/-- Once the children are forked every schedule of `Doit` is one of the system with files. -/
theorem follows (hrun : Lts.Run (FileStep true pid) (fileInit cfg left target) tr f)
    (as : List (Act cfg)) (hfork : ∀ a ∈ as, a ≠ .fork) (has : Lts.AllEnabled enabled next f.st as) :
    ∃ tr' f', Lts.Run (FileStep true pid) f tr' f' ∧ f'.st = as.foldl next f.st := by
  induction as generalizing f tr with
  | nil => exact ⟨[], f, .nil, rfl⟩
  | cons a as ih =>
    rw [List.forall_mem_cons] at hfork
    obtain ⟨he, has⟩ := has
    obtain ⟨tr₁, f₁, hrun₁, hf₁⟩ := follows_step htpd hpid hrun hfork.1 he
    rw [← hf₁] at has
    obtain ⟨tr₂, f₂, hrun₂, hf₂⟩ := ih (hrun.trans hrun₁) hfork.2 has
    exact ⟨tr₁ ++ tr₂, f₂, hrun₁.trans hrun₂, by rw [hf₂, hf₁, List.foldl_cons]⟩

end

/-! ## the remove loop -/

/-- **The directories that `doit` removes.**  In a run that comes to the end of `doit` they are the
directories that it has made exactly when `threads_per_dir` divides `n_threads`; otherwise a directory
is left.  With `-u` each directory is empty as long as the remove loop runs. -/
theorem removed_eq_made_iff (htpd : 1 ≤ cfg.threadsPerDir) (hpid : Function.Injective pid) 
    (hrun : Lts.Run (FileStep true pid) (fileInit cfg left target) tr f)
    (hend : f.st.parent = .exit0) :
    ((f.st.removedDirs.toFinset = f.st.madeDirs.toFinset ∧
        ∀ x ∈ tr, x.1.st.parent = .removeLoop →
          ∀ g ∈ x.1.st.madeDirs, x.1.target.files (mkDirname g) = ∅) ↔
      cfg.threadsPerDir ∣ cfg.nThreads) ∧
    ((∀ g ∈ f.st.madeDirs, mkDirname g ∉ f.target.dirs) ↔ cfg.threadsPerDir ∣ cfg.nThreads) := by
  obtain ⟨t, ht, hpos, hf, hsteps⟩ := exists_fileInv htpd hpid hrun
  have hidx := hf.dirInv.forked (by rw [hend]; rfl)
  have hmade := hf.dirInv.made
  have hremoved := hf.dirInv.exited hend
  rw [hidx] at hmade
  have hdvd : cfg.threadsPerDir ∣ cfg.nThreads ↔ groups t cfg.nThreads = cfg.nThreads / t := by
    rw [groups_eq_div hpos, ht, Int.natCast_dvd_natCast]
  rw [hdvd, hmade, hremoved]
  refine ⟨⟨?_, ?_⟩, ⟨?_, ?_⟩⟩
  · intro hboth
    exact (castRange_inj hboth.1).symm
  · intro heq
    refine ⟨by rw [heq], ?_⟩
    intro x hx hp g hg
    obtain ⟨hx1, -, -⟩ := hsteps x hx
    rw [hx1.dirInv.made, mem_castRange] at hg
    obtain ⟨k, hk, rfl⟩ := hg
    exact hx1.emptied (by rw [hp]; rfl) ((lt_groups hpos).mp hk)
  · intro hgone
    have hle : ¬ cfg.nThreads / t < groups t cfg.nThreads := by
      intro hlt
      have hmem := hgone _ (mem_castRange.mpr ⟨_, hlt, rfl⟩)
      rw [hf.dirs _ (by rw [hidx]; exact (lt_groups hpos).mp hlt), hremoved, mem_castRange,
        not_not] at hmem
      obtain ⟨k, hk, heq⟩ := hmem
      have heq' : k = cfg.nThreads / t := by exact_mod_cast heq
      omega
    exact Nat.le_antisymm (not_lt.mp hle) (div_le_groups _ _)
  · intro heq g hg
    obtain ⟨k, hk, rfl⟩ := mem_castRange.mp hg
    rw [hf.dirs k (by rw [hidx]; exact (lt_groups hpos).mp hk), hremoved, not_not, ← heq]
    exact mem_castRange.mpr ⟨k, hk, rfl⟩

/-! ## two runs -/

section Examples

/-- four children in two directories -/
def fourForks : List (FileAct ⟨4, 1, 2⟩) := List.replicate 4 (.proto .fork)

/-- Each of them makes one iteration, and the parent waits for one after the other. -/
def fourChildren : List (Act ⟨4, 1, 2⟩) :=
  .forksDone :: ((List.finRange 4).flatMap fun i =>
    [.doChild i, .writeSlot i, .childExit i, .testLeft, .reap i] ++ List.replicate 5 .scanSlot) ++
    [.testLeft, .removeDir, .removeDir, .removeDir]

theorem removed_eq_made_iff_four : ∃ (tr : List _) (f : FileSt ⟨4, 1, 2⟩),
    Lts.Run (FileStep true (pids ⟨4, 1, 2⟩)) (fileInit ⟨4, 1, 2⟩ 0 emptyTarget) tr f ∧
      (∀ i, f.st.iter i = 1) ∧ f.st.madeDirs = [0, 1] ∧
      f.st.removedDirs.toFinset = f.st.madeDirs.toFinset ∧
      (∀ x ∈ tr, x.1.st.parent = .removeLoop →
        ∀ g ∈ x.1.st.madeDirs, x.1.target.files (mkDirname g) = ∅) ∧
      ∀ g ∈ f.st.madeDirs, mkDirname g ∉ f.target.dirs := by
  have htpd : 1 ≤ (⟨4, 1, 2⟩ : Cfg).threadsPerDir := by decide
  have hpid := pids_injective ⟨4, 1, 2⟩
  obtain ⟨tr₁, hrun₁⟩ : Lts.Reach (FileStep true (pids ⟨4, 1, 2⟩)) (fileInit ⟨4, 1, 2⟩ 0 emptyTarget)
      (fourForks.foldl (fileNext true (pids ⟨4, 1, 2⟩)) (fileInit ⟨4, 1, 2⟩ 0 emptyTarget)) :=
    Lts.Reach.of_labels fourForks (by decide)
  obtain ⟨tr₂, f, hrun₂, hf⟩ := follows htpd hpid hrun₁ fourChildren (by decide) (by decide)
  have hend : f.st.parent = .exit0 := by
    rw [hf]
    decide
  have hiff := removed_eq_made_iff htpd hpid (hrun₁.trans hrun₂) hend
  have hdvd : (⟨4, 1, 2⟩ : Cfg).threadsPerDir ∣ (4 : ℕ) := by decide
  obtain ⟨hsame, hempty⟩ := hiff.1.mpr hdvd
  refine ⟨_, f, hrun₁.trans hrun₂, ?_, ?_, hsame, hempty, hiff.2.mpr hdvd⟩
  · rw [hf]
    decide
  · rw [hf]
    decide

/-- one child, two children to a directory -/
def oneChild : List (FileAct ⟨1, 0, 2⟩) :=
  [.proto .fork, .proto .forksDone, .proto (.writeSlot ⟨0, by decide⟩),
    .proto (.childExit ⟨0, by decide⟩), .proto .testLeft, .proto (.reap ⟨0, by decide⟩),
    .proto .scanSlot, .proto .scanSlot, .proto .testLeft, .proto .removeDir]

/-- The directory of the child stays. -/
theorem dir_left : ∃ (tr : List _) (f : FileSt ⟨1, 0, 2⟩),
    Lts.Run (FileStep true (pids ⟨1, 0, 2⟩)) (fileInit ⟨1, 0, 2⟩ 0 emptyTarget) tr f ∧
      f.st.parent = .exit0 ∧ f.st.removedDirs.toFinset ≠ f.st.madeDirs.toFinset := by
  have hreach : Lts.Reach (FileStep true (pids ⟨1, 0, 2⟩)) (fileInit ⟨1, 0, 2⟩ 0 emptyTarget)
      (oneChild.foldl (fileNext true (pids ⟨1, 0, 2⟩)) (fileInit ⟨1, 0, 2⟩ 0 emptyTarget)) :=
    Lts.Reach.of_labels oneChild (by decide)
  obtain ⟨tr, hrun⟩ := hreach
  exact ⟨tr, _, hrun, by decide, by decide⟩

end Examples

end Synctest
