import TestUnion.Synctest.Dirs
import TestUnion.Synctest.Schedule

/-!
# synctest: the directories are empty when they are removed

* `Busy`            a child in the middle of an iteration; only such a child holds files;
* `FileInv`         a directory holds what its children hold, and it is there until it is removed;
* `fileInv_step`    every step keeps this;
* `FileInv.emptied`   when the remove loop runs, the directories are empty;
* `reachable_of_files`   the system with files refines that of `Doit`.
-/

namespace Synctest

variable {cfg : Cfg} {t : ℕ} {s : St cfg}

/-! ## what is in the directories -/

/-- the child is in the middle of an iteration, or has failed -/
def Busy (s : St cfg) (i : Fin cfg.nThreads) : Prop :=
  (s.child i = .looping ∧ s.iter i < cfg.nIters) ∨ (s.child i).failed = true

theorem Inv.not_busy (h : Inv s) (hr : s.parent.removing = true) (i : Fin cfg.nThreads) :
    ¬ Busy s i := by
  obtain ⟨hiter, hfailed⟩ := h.finished i (h.removing hr i)
  intro hb
  rcases hb with ⟨-, hlt⟩ | hb
  · omega
  · rw [hfailed] at hb
    cases hb

theorem Inv.not_busy_unborn (h : Inv s) {i : Fin cfg.nThreads} (hi : s.thisChildIndex ≤ i) :
    ¬ Busy s i := by
  have hunborn := (h.unborn i).mpr hi
  intro hb
  rcases hb with ⟨hb, -⟩ | hb
  · rw [hunborn] at hb
    cases hb
  · rw [hunborn] at hb
    cases hb

/-- A child that starts or stops being looping was not in the middle of an iteration. -/
theorem Busy.update {s' : St cfg} {i j : Fin cfg.nThreads} {pc : ChildPc} (hb : Busy s i)
    (hchild : s'.child = Function.update s.child j pc) (hiter : s'.iter = s.iter)
    (hj : Busy s j → pc.failed = true) : Busy s' i := by
  by_cases hij : i = j
  · subst hij
    refine .inr ?_
    rw [hchild, Function.update_self]
    exact hj hb
  · unfold Busy
    rw [hchild, hiter, Function.update_of_ne hij]
    exact hb

theorem Inv.busy_next (h : Inv s) {a : Act cfg} (he : enabled s a) (ha : ∀ i, a ≠ .doChild i)
    {i : Fin cfg.nThreads} (hb : Busy s i) : Busy (next s a) i := by
  cases a with
  | fork =>
    simp only [next]
    unfold Synctest.forkRound
    split
    · exact hb
    · rw [dif_pos he.2]
      split
      · exact hb.update rfl rfl fun hj => absurd hj (h.not_busy_unborn (Nat.le_refl _))
      · exact hb.update rfl rfl fun hj => absurd hj (h.not_busy_unborn (Nat.le_refl _))
  | reap j =>
    simp only [next]
    split
    · next code hcode =>
      refine hb.update rfl rfl fun hj => ?_
      rcases hj with ⟨hj, -⟩ | hj
      · rw [hcode] at hj
        cases hj
      · rw [hcode] at hj
        cases code with
        | zero => cases hj
        | succ code =>
          cases code with
          | zero => rfl
          | succ code => cases hj
    · exact hb
  | testLeft =>
    simp only [next]
    split <;> exact hb
  | scanSlot =>
    simp only [next]
    split
    · unfold Synctest.scanRound
      split
      · split <;> exact hb
      · exact hb
    · exact hb
  | removeDir =>
    simp only [next]
    unfold Synctest.removeRound
    split <;> exact hb
  | mkdirFails => exact hb
  | forksDone => exact hb
  | eintr => exact hb
  | echild => exact hb
  | doChild j => exact absurd rfl (ha j)
  | childError j => exact hb.update rfl rfl fun _ => rfl
  | writeSlot j =>
    refine hb.update rfl rfl fun hj => ?_
    rcases hj with ⟨-, hj⟩ | hj
    · exact absurd hj he.2
    · rw [he.1] at hj
      cases hj
  | childExit j =>
    have hpc : s.child j = .exiting := he
    refine hb.update rfl rfl fun hj => ?_
    rcases hj with ⟨hj, -⟩ | hj
    · rw [hpc] at hj
      cases hj
    · rw [hpc] at hj
      cases hj

/-- Only a fork moves the index, and only the remove loop removes. -/
theorem next_frame (s : St cfg) {a : Act cfg} (hfork : a ≠ .fork) (hremove : a ≠ .removeDir) :
    (next s a).thisChildIndex = s.thisChildIndex ∧ (next s a).removedDirs = s.removedDirs := by
  cases a with
  | fork => exact absurd rfl hfork
  | removeDir => exact absurd rfl hremove
  | testLeft =>
    simp only [next]
    split <;> exact ⟨rfl, rfl⟩
  | reap j =>
    simp only [next]
    split <;> exact ⟨rfl, rfl⟩
  | scanSlot =>
    simp only [next]
    split
    · unfold scanRound
      split
      · split <;> exact ⟨rfl, rfl⟩
      · exact ⟨rfl, rfl⟩
    · exact ⟨rfl, rfl⟩
  | mkdirFails => exact ⟨rfl, rfl⟩
  | forksDone => exact ⟨rfl, rfl⟩
  | eintr => exact ⟨rfl, rfl⟩
  | echild => exact ⟨rfl, rfl⟩
  | doChild j => exact ⟨rfl, rfl⟩
  | childError j => exact ⟨rfl, rfl⟩
  | writeSlot j => exact ⟨rfl, rfl⟩
  | childExit j => exact ⟨rfl, rfl⟩

/-- Child `i` works in directory `i / t`; a directory holds what its children hold. -/
structure FileInv (pid : Fin cfg.nThreads → ℕ) (t : ℕ) (s : FileSt cfg) : Prop where
  inv : Inv s.st
  dirInv : DirInv t s.st
  group : ∀ i : Fin cfg.nThreads, (i : ℕ) < s.st.thisChildIndex → s.group i = (i / t : ℕ)
  busy : ∀ i, s.done i ≠ 0 → Busy s.st i
  files : ∀ g, g * t < s.st.thisChildIndex → ∀ x, x ∈ s.target.files (mkDirname g) ↔
    ∃ i : Fin cfg.nThreads, i / t = g ∧ x ∈ held true (pid i) (s.done i)
  dirs : ∀ g : ℕ, g * t < s.st.thisChildIndex →
    (mkDirname g ∈ s.target.dirs ↔ (g : ℤ) ∉ s.st.removedDirs)

section
variable {pid : Fin cfg.nThreads → ℕ} {f f' : FileSt cfg}

theorem fileInv_init (left : ℤ) (target : Target) (hpos : 0 < t) :
    FileInv pid t (fileInit cfg left target) where
  inv := inv_init left
  dirInv := dirInv_init left hpos
  group _ h := absurd h (Nat.not_lt_zero _)
  busy _ h := absurd rfl h
  files _ h := absurd h (Nat.not_lt_zero _)
  dirs _ h := absurd h (Nat.not_lt_zero _)

theorem FileInv.done_eq_zero (h : FileInv pid t f) {i : Fin cfg.nThreads} (hi : ¬ Busy f.st i) :
    f.done i = 0 := by
  by_contra hne
  exact hi (h.busy i hne)

/-- A child that holds a file has been forked. -/
theorem FileInv.born (h : FileInv pid t f) {i : Fin cfg.nThreads} {x : Name}
    (hx : x ∈ held true (pid i) (f.done i)) : (i : ℕ) < f.st.thisChildIndex := by
  by_contra hge
  rw [h.done_eq_zero (h.inv.not_busy_unborn (not_lt.mp hge)), held_zero] at hx
  cases hx

/-- When the remove loop runs, all children have come to the end of an iteration. -/
theorem FileInv.emptied (h : FileInv pid t f) (hr : f.st.parent.removing = true) {g : ℕ}
    (hg : g * t < f.st.thisChildIndex) : f.target.files (mkDirname g) = ∅ := by
  apply Finset.eq_empty_of_forall_notMem
  intro x hx
  obtain ⟨i, -, hheld⟩ := (h.files g hg x).mp hx
  rw [h.done_eq_zero (h.inv.not_busy hr i), held_zero] at hheld
  cases hheld

theorem FileInv.other (h : FileInv pid t f) (ht : cfg.threadsPerDir = t) (hpos : 0 < t)
    {a : Act cfg} (he : enabled f.st a) (hchild : ∀ i, a ≠ .doChild i) (hfork : a ≠ .fork)
    (hremove : a ≠ .removeDir) : FileInv pid t { f with st := next f.st a } := by
  obtain ⟨hidx, hremoved⟩ := next_frame f.st hfork hremove
  refine ⟨inv_step _ a _ h.inv ⟨he, rfl⟩, h.dirInv.step ht hpos h.inv he, ?_, ?_, ?_, ?_⟩
  · simpa only [hidx] using h.group
  · exact fun i hi => h.inv.busy_next he hchild (h.busy i hi)
  · simpa only [hidx] using h.files
  · simpa only [hidx, hremoved] using h.dirs

/-! ### a fork -/

theorem makesDir_iff (ht : cfg.threadsPerDir = t) (hpos : 0 < t) :
    makesDir s ↔ s.thisChildIndex % t = 0 := by
  unfold makesDir
  rw [newDir_iff ht]
  exact and_iff_right (by omega)

/-- The thread group of a new child. -/
theorem forkRound_group (ht : cfg.threadsPerDir = t) (hpos : 0 < t) (h : DirInv t s)
    (he : enabled s .fork) : (forkRound s).threadGroup = (s.thisChildIndex / t : ℕ) := by
  obtain ⟨-, -, hgroup, -, -⟩ := forkRound_dirs ht hpos h he.1 he.2
  rw [groups_succ_eq hpos] at hgroup
  push_cast at hgroup ⊢
  omega

theorem fileFork_target (ht : cfg.threadsPerDir = t) (hpos : 0 < t) (h : DirInv t f.st)
    (he : enabled f.st .fork) :
    (fileFork f).target = if f.st.thisChildIndex % t = 0 then
      f.target.mkdir (mkDirname (f.st.thisChildIndex / t : ℕ)) else f.target := by
  unfold fileFork
  simp only [makesDir_iff ht hpos, forkRound_group ht hpos h he]

theorem fileFork_group (hlt : f.st.thisChildIndex < cfg.nThreads) (i : Fin cfg.nThreads) :
    (fileFork f).group i = if (i : ℕ) = f.st.thisChildIndex then (forkRound f.st).threadGroup
      else f.group i := by
  unfold fileFork
  dsimp only
  rw [dif_pos hlt, Function.update_apply]
  simp only [Fin.ext_iff]

/-- A directory that is made was not there before. -/
theorem new_dir (ht : cfg.threadsPerDir = t) (hpos : 0 < t) (h : DirInv t f.st)
    (he : enabled f.st .fork)
    (hmkdir : makesDir f.st → mkDirname (f.st.threadGroup + 1) ∉ f.target.dirs)
    (hd : f.st.thisChildIndex % t = 0) :
    mkDirname (f.st.thisChildIndex / t : ℕ) ∉ f.target.dirs := by
  have hg := h.forking he.1
  have hsucc := groups_succ hpos f.st.thisChildIndex
  rw [groups_succ_eq hpos, if_pos hd] at hsucc
  have heq : f.st.threadGroup + 1 = (f.st.thisChildIndex / t : ℕ) := by omega
  rw [← heq]
  exact hmkdir ((makesDir_iff ht hpos).mpr hd)

/-- The first child of a group finds an empty directory. -/
theorem FileInv.fork_files (h : FileInv pid t f) (hpos : 0 < t)
    (hnew : f.st.thisChildIndex % t = 0 →
      mkDirname (f.st.thisChildIndex / t : ℕ) ∉ f.target.dirs) {g : ℕ}
    (hg : g * t < f.st.thisChildIndex + 1) (x : Name) : x ∈ f.target.files (mkDirname g) ↔
      ∃ i : Fin cfg.nThreads, i / t = g ∧ x ∈ held true (pid i) (f.done i) := by
  by_cases hold : g * t < f.st.thisChildIndex
  · exact h.files g hold x
  obtain ⟨hd, hdiv⟩ := first_of_group hpos hg hold
  have hempty := f.target.closed _ (hnew hd)
  rw [hdiv] at hempty
  rw [hempty]
  refine ⟨fun hmem => by simp at hmem, ?_⟩
  intro hex
  obtain ⟨i, hig, hheld⟩ := hex
  have hborn := h.born hheld
  have hle : g * t ≤ i := by
    rw [← hig]
    exact Nat.div_mul_le_self _ _
  omega

theorem FileInv.fork_dirs (h : FileInv pid t f) (ht : cfg.threadsPerDir = t) (hpos : 0 < t)
    (he : enabled f.st .fork) {g : ℕ} (hg : g * t < f.st.thisChildIndex + 1) :
    mkDirname g ∈ (fileFork f).target.dirs ↔ (g : ℤ) ∉ f.st.removedDirs := by
  rw [fileFork_target ht hpos h.dirInv he]
  by_cases hold : g * t < f.st.thisChildIndex
  · rw [← h.dirs g hold]
    split
    · next hd =>
      have hne : mkDirname g ≠ mkDirname (f.st.thisChildIndex / t : ℕ) := by
        intro e
        have heq : g = f.st.thisChildIndex / t := by exact_mod_cast mkDirname_inj e
        rw [heq, Nat.div_mul_cancel (Nat.dvd_of_mod_eq_zero hd)] at hold
        exact lt_irrefl _ hold
      exact Finset.mem_insert.trans (or_iff_right hne)
    · exact Iff.rfl
  · obtain ⟨hd, hdiv⟩ := first_of_group hpos hg hold
    have hnone : f.st.removedDirs = [] := h.dirInv.before (by rw [he.1]; rfl)
    rw [if_pos hd, hdiv, hnone]
    exact iff_of_true (Finset.mem_insert_self _ _) List.not_mem_nil

theorem FileInv.fork (h : FileInv pid t f) (ht : cfg.threadsPerDir = t) (hpos : 0 < t)
    (he : enabled f.st .fork)
    (hmkdir : makesDir f.st → mkDirname (f.st.threadGroup + 1) ∉ f.target.dirs) :
    FileInv pid t (fileFork f) := by
  obtain ⟨hp, hlt⟩ := he
  obtain ⟨-, hidx, -, -, hremoved⟩ := forkRound_dirs ht hpos h.dirInv hp hlt
  have hidx' : (fileFork f).st.thisChildIndex = f.st.thisChildIndex + 1 := hidx
  have hremoved' : (fileFork f).st.removedDirs = f.st.removedDirs := hremoved
  refine ⟨inv_step _ .fork _ h.inv ⟨⟨hp, hlt⟩, rfl⟩, h.dirInv.fork ht hpos hp hlt, ?_, ?_, ?_, ?_⟩
  · intro i hi
    rw [hidx'] at hi
    rw [fileFork_group hlt]
    split
    · next heq => rw [forkRound_group ht hpos h.dirInv ⟨hp, hlt⟩, heq]
    · exact h.group i (by omega)
  · intro i hi
    exact h.inv.busy_next (a := .fork) ⟨hp, hlt⟩ nofun (h.busy i hi)
  · intro g hg x
    have hfiles : (fileFork f).target.files = f.target.files := by
      rw [fileFork_target ht hpos h.dirInv ⟨hp, hlt⟩]
      split <;> rfl
    rw [hidx'] at hg
    rw [hfiles]
    exact h.fork_files hpos (new_dir ht hpos h.dirInv ⟨hp, hlt⟩ hmkdir) hg x
  · intro g hg
    rw [hidx'] at hg
    rw [hremoved']
    exact h.fork_dirs ht hpos ⟨hp, hlt⟩ hg

/-! ### a round of the remove loop -/

theorem Target.rmdir_of_empty {target : Target} {d : Name} (h : target.files d = ∅) :
    (target.rmdir d).dirs = target.dirs.erase d ∧ (target.rmdir d).files = target.files := by
  unfold rmdir
  rw [dif_pos h]
  exact ⟨rfl, rfl⟩

/-- `rmdir` removes the directory, since it is empty. -/
theorem FileInv.remove (h : FileInv pid t f) (ht : cfg.threadsPerDir = t) (hpos : 0 < t)
    (hp : f.st.parent = .removeLoop) : FileInv pid t (fileRemove f) := by
  obtain ⟨k, hk, -, -⟩ := h.dirInv.removing hp
  have hidxn : f.st.thisChildIndex = cfg.nThreads := h.inv.forked (by rw [hp]; rfl)
  have hidx : (fileRemove f).st.thisChildIndex = f.st.thisChildIndex := by
    unfold fileRemove removeRound
    split <;> rfl
  have htarget : (fileRemove f).target = if k < cfg.nThreads / t then
      f.target.rmdir (mkDirname k) else f.target := by
    unfold fileRemove
    rw [quotient_eq ht, hk]
    norm_cast
  have hempty : k < cfg.nThreads / t → f.target.files (mkDirname k) = ∅ := by
    intro hlt
    refine h.emptied (by rw [hp]; rfl) ?_
    rw [hidxn]
    exact (lt_groups hpos).mp (lt_of_lt_of_le hlt (div_le_groups _ _))
  refine ⟨inv_step _ .removeDir _ h.inv ⟨hp, rfl⟩, h.dirInv.remove ht hp, ?_, ?_, ?_, ?_⟩
  · rw [hidx]
    exact h.group
  · intro i hi
    exact absurd (h.busy i hi) (h.inv.not_busy (by rw [hp]; rfl) i)
  · rw [hidx]
    have hfiles : (fileRemove f).target.files = f.target.files := by
      rw [htarget]
      split
      · next hlt => exact (Target.rmdir_of_empty (hempty hlt)).2
      · rfl
    rw [hfiles]
    exact h.files
  · intro g hg
    rw [hidx] at hg
    have hst : (fileRemove f).st.removedDirs = if k < cfg.nThreads / t then
        f.st.removedDirs ++ [(k : ℤ)] else f.st.removedDirs := by
      unfold fileRemove removeRound
      rw [quotient_eq ht, hk]
      simp only [Nat.cast_lt]
      split <;> rfl
    rw [hst, htarget]
    split
    · next hlt =>
      have hname : mkDirname g = mkDirname k ↔ (g : ℤ) = k :=
        ⟨fun e => mkDirname_inj e, fun e => by rw [e]⟩
      rw [(Target.rmdir_of_empty (hempty hlt)).1, Finset.mem_erase, List.mem_append,
        List.mem_singleton, not_or, h.dirs g hg, ne_eq, hname]
      exact and_comm
    · exact h.dirs g hg

/-! ### a call of a child -/

theorem Call.possible_dir {target : Target} {d : Name} {c : Call} (h : c.possible target d) :
    d ∈ target.dirs := by
  have hfile : ∀ name, name ∈ target.files d → d ∈ target.dirs := by
    intro name hname
    by_contra hd
    rw [target.closed d hd] at hname
    cases hname
  cases c with
  | openDir => exact h
  | create name => exact h
  | rename name newname => exact hfile _ h
  | unlink name => exact hfile _ h

theorem fileCall_done (i : Fin cfg.nThreads) (c : Call) :
    (fileCall true pid f i c).done = Function.update f.done i
      (if f.done i + 1 < (doChild true (pid i)).length then f.done i + 1 else 0) := by
  unfold fileCall
  dsimp only
  split <;> rfl

theorem fileCall_st (i : Fin cfg.nThreads) (c : Call) : (fileCall true pid f i c).st =
    if f.done i + 1 < (doChild true (pid i)).length then f.st else next f.st (.doChild i) := by
  unfold fileCall
  dsimp only
  split <;> rfl

@[simp]
theorem fileCall_target (i : Fin cfg.nThreads) (c : Call) : (fileCall true pid f i c).target =
    f.target.call (mkDirname (f.group i)) c := by
  unfold fileCall
  dsimp only
  split <;> rfl

@[simp] theorem fileCall_group (i : Fin cfg.nThreads) (c : Call) :
    (fileCall true pid f i c).group = f.group := by
  unfold fileCall
  dsimp only
  split <;> rfl

/-- the names that the child holds after its next call -/
theorem held_fileCall {i : Fin cfg.nThreads} {c : Call} (hc : nextCall true pid f i = some c) :
    held true (pid i) ((fileCall true pid f i c).done i) =
      c.apply (held true (pid i) (f.done i)) := by
  unfold nextCall at hc
  rw [← held_succ hc, fileCall_done, Function.update_self]
  split
  · rfl
  · next hge =>
    have hlt := (List.getElem?_eq_some_iff.mp hc).1
    have hlast : f.done i + 1 = (doChild true (pid i)).length := by omega
    rw [held_zero, hlast, held_length]

theorem fileCall_done_other {i j : Fin cfg.nThreads} (hj : j ≠ i) (c : Call) :
    (fileCall true pid f i c).done j = f.done j := by
  rw [fileCall_done, Function.update_of_ne hj]

/-- Either the `do_child` goes on, or its iteration is over. -/
theorem fileCall_cases (i : Fin cfg.nThreads) (c : Call) :
    (fileCall true pid f i c).st = f.st ∨
      (fileCall true pid f i c).st = next f.st (.doChild i) ∧
        (fileCall true pid f i c).done i = 0 := by
  rw [fileCall_st, fileCall_done, Function.update_self]
  split
  · exact .inl rfl
  · exact .inr ⟨rfl, rfl⟩

theorem fileCall_busy {i j : Fin cfg.nThreads} {c : Call} (he : enabled f.st (.doChild i))
    (hb : f.done j ≠ 0 → Busy f.st j) (hj : (fileCall true pid f i c).done j ≠ 0) :
    Busy (fileCall true pid f i c).st j := by
  by_cases hji : j = i
  · subst hji
    rcases fileCall_cases (f := f) j c with e | ⟨-, e⟩
    · rw [e]
      exact .inl he
    · exact absurd e hj
  · rw [fileCall_done_other hji] at hj
    have hbusy := hb hj
    rcases fileCall_cases (f := f) i c with e | ⟨e, -⟩ <;> rw [e]
    · exact hbusy
    · unfold Busy next
      dsimp only
      rw [Function.update_of_ne hji]
      exact hbusy

theorem Target.call_of_possible {target : Target} {d : Name} {c : Call} (h : c.possible target d) :
    (target.call d c).dirs = target.dirs ∧
      (target.call d c).files = Function.update target.files d (c.apply (target.files d)) := by
  unfold call
  rw [dif_pos (Call.possible_dir h)]
  exact ⟨rfl, rfl⟩

/-- A name that a call of child `i` mentions is a name of no other child. -/
theorem nextCall_owner (hpid : Function.Injective pid) {i j : Fin cfg.nThreads} {c : Call} {x : Name}
    {k : ℕ} (hc : nextCall true pid f i = some c) (hx : x ∈ c.mentions)
    (hj : x ∈ held true (pid j) k) : j = i := by
  unfold nextCall at hc
  exact hpid ((held_owned hj).unique (doChild_mentions (List.mem_of_getElem? hc) hx))

/-- In its own directory a call changes the names of its own child and no others. -/
theorem call_own (hpid : Function.Injective pid) {i : Fin cfg.nThreads} {c : Call}
    (hc : nextCall true pid f i = some c) {names : Finset Name} {x : Name}
    (hnames : x ∈ names ↔ ∃ j : Fin cfg.nThreads, (j : ℕ) / t = i / t ∧
      x ∈ held true (pid j) (f.done j)) :
    x ∈ c.apply names ↔ ∃ j : Fin cfg.nThreads, (j : ℕ) / t = i / t ∧
      x ∈ held true (pid j) ((fileCall true pid f i c).done j) := by
  have hheld := held_fileCall (f := f) hc
  by_cases hx : x ∈ c.mentions
  · have hiff : x ∈ names ↔ x ∈ held true (pid i) (f.done i) := by
      rw [hnames]
      refine ⟨fun hex => ?_, fun hi => ⟨i, rfl, hi⟩⟩
      obtain ⟨j, -, hj⟩ := hex
      rwa [nextCall_owner hpid hc hx hj] at hj
    rw [c.apply_mem_iff hiff, ← hheld]
    refine ⟨fun hi => ⟨i, rfl, hi⟩, fun hex => ?_⟩
    obtain ⟨j, -, hj⟩ := hex
    rwa [nextCall_owner hpid hc hx hj] at hj
  · rw [Call.apply_mem_other hx, hnames]
    have hkeep : ∀ j, x ∈ held true (pid j) ((fileCall true pid f i c).done j) ↔
        x ∈ held true (pid j) (f.done j) := by
      intro j
      by_cases hji : j = i
      · subst hji
        rw [hheld, Call.apply_mem_other hx]
      · rw [fileCall_done_other hji]
    simp only [hkeep]

/-- In the other directories nothing changes. -/
theorem call_elsewhere {i : Fin cfg.nThreads} {g : ℕ} (hgi : ¬ (i : ℕ) / t = g) (c : Call) (x : Name) :
    (∃ j : Fin cfg.nThreads, (j : ℕ) / t = g ∧ x ∈ held true (pid j) (f.done j)) ↔
      ∃ j : Fin cfg.nThreads, (j : ℕ) / t = g ∧
        x ∈ held true (pid j) ((fileCall true pid f i c).done j) := by
  apply exists_congr
  intro j
  apply and_congr_right
  intro hj
  have hji : j ≠ i := fun e => hgi (by rw [← e, hj])
  rw [fileCall_done_other hji]

theorem FileInv.call (h : FileInv pid t f) (hpid : Function.Injective pid) (ht : cfg.threadsPerDir = t)
    (hpos : 0 < t) {i : Fin cfg.nThreads} (he : enabled f.st (.doChild i)) {c : Call}
    (hc : nextCall true pid f i = some c) (hposs : c.possible f.target (mkDirname (f.group i))) :
    FileInv pid t (fileCall true pid f i c) := by
  have hborn : (i : ℕ) < f.st.thisChildIndex := by
    by_contra hge
    exact h.inv.not_busy_unborn (not_lt.mp hge) (.inl he)
  have hst : (fileCall true pid f i c).st = f.st ∨
      (fileCall true pid f i c).st = next f.st (.doChild i) :=
    (fileCall_cases i c).imp_right And.left
  have hsame : (fileCall true pid f i c).st.thisChildIndex = f.st.thisChildIndex ∧
      (fileCall true pid f i c).st.removedDirs = f.st.removedDirs := by
    rcases hst with e | e <;> rw [e] <;> exact ⟨rfl, rfl⟩
  obtain ⟨hdirs, hfiles⟩ := Target.call_of_possible hposs
  refine ⟨?_, ?_, ?_, fun j => fileCall_busy he (h.busy j), ?_, ?_⟩
  · rcases hst with e | e <;> rw [e]
    · exact h.inv
    · exact inv_step _ _ _ h.inv ⟨he, rfl⟩
  · rcases hst with e | e <;> rw [e]
    · exact h.dirInv
    · exact h.dirInv.step ht hpos h.inv he
  · rw [hsame.1, fileCall_group]
    exact h.group
  · intro g hg x
    rw [hsame.1] at hg
    rw [fileCall_target, hfiles, h.group i hborn]
    by_cases hgi : i / t = g
    · subst hgi
      rw [Function.update_self]
      exact call_own hpid hc (h.files _ hg x)
    · have hne : mkDirname g ≠ mkDirname (i / t : ℕ) := by
        intro e
        exact hgi (by exact_mod_cast (mkDirname_inj e).symm)
      rw [Function.update_of_ne hne, h.files g hg x]
      exact call_elsewhere hgi c x
  · rw [hsame.1, hsame.2, fileCall_target, hdirs]
    exact h.dirs

/-! ## every step, every run -/

theorem fileInv_step (hpid : Function.Injective pid) (ht : cfg.threadsPerDir = t) (hpos : 0 < t)
    (f : FileSt cfg) (a : FileAct cfg) (f' : FileSt cfg) (h : FileInv pid t f)
    (hst : FileStep true pid f a f') : FileInv pid t f' := by
  obtain ⟨he, rfl⟩ := hst
  cases a with
  | call i =>
    obtain ⟨hi, c, hc, hposs⟩ := he
    have heq : nextCall true pid f i = some c := hc
    simp only [fileNext, heq]
    exact h.call hpid ht hpos hi heq hposs
  | proto a =>
    obtain ⟨hen, hchild, hmkdir⟩ := he
    by_cases hfork : a = .fork
    · subst hfork
      exact h.fork ht hpos hen (hmkdir rfl)
    by_cases hremove : a = .removeDir
    · subst hremove
      exact h.remove ht hpos hen
    have hnext : fileNext true pid f (.proto a) = { f with st := next f.st a } := by
      cases a <;> first | rfl | exact absurd rfl hfork | exact absurd rfl hremove
    rw [hnext]
    exact h.other ht hpos hen hchild hfork hremove

/-- The files at the end of a run with `-u`, and around each of its steps. -/
theorem exists_fileInv (htpd : 1 ≤ cfg.threadsPerDir) (hpid : Function.Injective pid) {left : ℤ}
    {target : Target} {tr : List (FileSt cfg × FileAct cfg × FileSt cfg)}
    (hrun : Lts.Run (FileStep true pid) (fileInit cfg left target) tr f) :
    ∃ t : ℕ, cfg.threadsPerDir = t ∧ 0 < t ∧ FileInv pid t f ∧
      ∀ x ∈ tr, FileInv pid t x.1 ∧ FileStep true pid x.1 x.2.1 x.2.2 ∧ FileInv pid t x.2.2 := by
  obtain ⟨t, ht⟩ : ∃ t : ℕ, cfg.threadsPerDir = t := ⟨_, (Int.toNat_of_nonneg (by omega)).symm⟩
  have hpos : 0 < t := by omega
  have hinit : FileInv pid t (fileInit cfg left target) := fileInv_init left target hpos
  have hstep := fileInv_step hpid ht hpos
  exact ⟨t, ht, hpos, hrun.inv hstep hinit, hrun.steps_inv hstep hinit⟩

/-- A step with files is a step of `doit` and its children, or a call inside a `do_child`. -/
theorem fileStep_sim (f : FileSt cfg) (a : FileAct cfg) (f' : FileSt cfg)
    (hst : FileStep true pid f a f') : f'.st = f.st ∨ ∃ b, Step f.st b f'.st := by
  obtain ⟨he, rfl⟩ := hst
  cases a with
  | call i =>
    obtain ⟨hi, c, hc, -⟩ := he
    have heq : nextCall true pid f i = some c := hc
    simp only [fileNext, heq]
    rcases fileCall_cases (f := f) i c with e | ⟨e, -⟩
    · exact .inl e
    · exact .inr ⟨.doChild i, hi, e⟩
  | proto a =>
    refine .inr ⟨a, he.1, ?_⟩
    cases a <;> rfl

/-- A run with files is a run of `doit` and its children. -/
theorem reachable_of_files {left : ℤ} {target : Target}
    {tr : List (FileSt cfg × FileAct cfg × FileSt cfg)}
    (hrun : Lts.Run (FileStep true pid) (fileInit cfg left target) tr f) : Reachable f.st :=
  ⟨left, hrun.reach_map FileSt.st fileStep_sim⟩

end

end Synctest
