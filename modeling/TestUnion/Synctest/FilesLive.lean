import TestUnion.Synctest.Emptied
import TestUnion.Synctest.Life

/-!
# synctest: the files of a child in a run

* `callsOf`, `callsOf_run`   the calls that a child made: those of one `do_child` after the other;
* `FileInv.mem_files_iff`    the files of a child in its directory are those that it holds;
* `FileInv.next_finds`, `FileInv.end_empty`   its next call, and the end of a `do_child`;
* `files_live`               what holds for the files of a child in every run.
-/

namespace Synctest

/-! ## the calls of a child -/

variable {x : Name} {cfg : Cfg} {pid : Fin cfg.nThreads → ℕ} {f f' : FileSt cfg} {i : Fin cfg.nThreads} {t : ℕ}

/-- the calls that child `i` made in a run -/
def callsOf (pid : Fin cfg.nThreads → ℕ) (i : Fin cfg.nThreads)
    (tr : List (FileSt cfg × FileAct cfg × FileSt cfg)) : List Call :=
  tr.filterMap fun x => if x.2.1 = .call i then nextCall true pid x.1 i else none

theorem next_iter {s : St cfg} {a : Act cfg} (ha : ∀ i, a ≠ .doChild i) :
    (next s a).iter = s.iter := by
  cases a with
  | fork =>
    simp only [next]
    unfold forkRound
    split
    · rfl
    · split
      · split <;> rfl
      · rfl
  | removeDir =>
    simp only [next]
    unfold removeRound
    split <;> rfl
  | testLeft =>
    simp only [next]
    split <;> rfl
  | reap j =>
    simp only [next]
    split <;> rfl
  | scanSlot =>
    simp only [next]
    split
    · unfold scanRound
      split
      · split <;> rfl
      · rfl
    · rfl
  | doChild j => exact absurd rfl (ha j)
  | mkdirFails => rfl
  | forksDone => rfl
  | eintr => rfl
  | echild => rfl
  | childError j => rfl
  | writeSlot j => rfl
  | childExit j => rfl

theorem fileNext_proto {a : Act cfg} (ha : ∀ i, a ≠ .doChild i) :
    (fileNext true pid f (.proto a)).st.iter = f.st.iter ∧
      (fileNext true pid f (.proto a)).done = f.done := by
  have hst : (fileNext true pid f (.proto a)).st = next f.st a := by
    cases a <;> rfl
  rw [hst, next_iter ha]
  refine ⟨rfl, ?_⟩
  cases a <;> rfl

/-- A call of a child is the next one of its `do_child`, or the last. -/
theorem fileCall_iter {c : Call} (hc : nextCall true pid f i = some c) :
    (((fileCall true pid f i c).st.iter i = f.st.iter i ∧
        (fileCall true pid f i c).done i = f.done i + 1) ∨
      ((fileCall true pid f i c).st.iter i = f.st.iter i + 1 ∧
        (fileCall true pid f i c).done i = 0 ∧ f.done i + 1 = (doChild true (pid i)).length)) ∧
    ∀ j, j ≠ i → (fileCall true pid f i c).st.iter j = f.st.iter j := by
  have hlt := (List.getElem?_eq_some_iff.mp hc).1
  rw [fileCall_st, fileCall_done, Function.update_self]
  by_cases hlast : f.done i + 1 < (doChild true (pid i)).length
  · rw [if_pos hlast, if_pos hlast]
    exact ⟨.inl ⟨rfl, rfl⟩, fun _ _ => rfl⟩
  · rw [if_neg hlast, if_neg hlast]
    refine ⟨.inr ⟨Function.update_self .., rfl, by omega⟩, ?_⟩
    intro j hj
    exact Function.update_of_ne hj ..

/-- What a step does to the calls of the children. -/
theorem fileStep_cases {a : FileAct cfg} (hstep : FileStep true pid f a f') :
    ((∃ b, a = .proto b) ∧ f'.st.iter = f.st.iter ∧ f'.done = f.done) ∨
      ∃ j c, a = .call j ∧ enabled f.st (.doChild j) ∧ nextCall true pid f j = some c ∧
        f' = fileCall true pid f j c := by
  obtain ⟨he, rfl⟩ := hstep
  cases a with
  | proto b => exact .inl ⟨⟨b, rfl⟩, fileNext_proto he.2.1⟩
  | call j =>
    obtain ⟨hen, c, hc, _⟩ := he
    have hc : nextCall true pid f j = some c := hc
    refine .inr ⟨j, c, rfl, hen, hc, ?_⟩
    simp only [fileNext, hc]

/-- One `do_child` after the other. -/
theorem callsOf_run {left : ℤ} {target : Target} {tr : List (FileSt cfg × FileAct cfg × FileSt cfg)}
    (hrun : Lts.Run (FileStep true pid) (fileInit cfg left target) tr f) (i : Fin cfg.nThreads) :
    callsOf pid i tr = (List.replicate (f.st.iter i) (doChild true (pid i))).flatten ++
      (doChild true (pid i)).take (f.done i) := by
  induction hrun with
  | nil => rfl
  | @snoc tr f a f' hrun hstep ih =>
    have hsnoc : callsOf pid i (tr ++ [(f, a, f')]) = callsOf pid i tr ++
        (if a = .call i then nextCall true pid f i else none).toList := by
      unfold callsOf
      rw [List.filterMap_append, List.filterMap_cons, List.filterMap_nil]
      split
      · next h =>
        rw [h]
        rfl
      · next h => rw [h, Option.toList_some]
    rw [hsnoc, ih]
    rcases fileStep_cases hstep with ⟨⟨b, rfl⟩, hiter, hdone⟩ | ⟨j, c, rfl, _, hc, rfl⟩
    · rw [hiter, hdone]
      exact List.append_nil _
    · obtain ⟨hown, hother⟩ := fileCall_iter hc
      by_cases hij : j = i
      · subst hij
        have htake : (doChild true (pid j)).take (f.done j) ++ [c] =
            (doChild true (pid j)).take (f.done j + 1) := by
          rw [List.take_add_one]
          unfold nextCall at hc
          rw [hc]
          rfl
        rw [if_pos rfl, hc, List.append_assoc, Option.toList_some, htake]
        rcases hown with ⟨hiter, hdone⟩ | ⟨hiter, hdone, hlen⟩
        · rw [hiter, hdone]
        · rw [hiter, hdone, hlen, List.take_length, List.replicate_succ', List.flatten_append,
            List.flatten_singleton, List.take_zero, List.append_nil]
      · have hne : FileAct.call j ≠ FileAct.call i := fun h => hij (FileAct.call.inj h)
        rw [hother i (Ne.symm hij), fileCall_done_other (Ne.symm hij), if_neg hne]
        exact List.append_nil _

theorem done_lt {left : ℤ} {target : Target} {tr : List (FileSt cfg × FileAct cfg × FileSt cfg)}
    (hrun : Lts.Run (FileStep true pid) (fileInit cfg left target) tr f) (i : Fin cfg.nThreads) :
    f.done i < (doChild true (pid i)).length := by
  have hpos (j : Fin cfg.nThreads) : 0 < (doChild true (pid j)).length := Nat.succ_pos _
  refine hrun.inv (I := fun f => ∀ i, f.done i < (doChild true (pid i)).length) ?_ hpos i
  intro f a f' hlt hstep i
  rcases fileStep_cases hstep with ⟨_, _, hdone⟩ | ⟨j, c, rfl, _, hc, rfl⟩
  · rw [hdone]
    exact hlt i
  · by_cases hij : i = j
    · subst hij
      rw [fileCall_done, Function.update_self]
      split
      · assumption
      · exact hpos i
    · rw [fileCall_done_other hij]
      exact hlt i

/-! ## the files of a child -/

theorem FileInv.forked (h : FileInv pid t f) (he : enabled f.st (.doChild i)) :
    (i : ℕ) < f.st.thisChildIndex := by
  by_contra hge
  exact h.inv.not_busy_unborn (not_lt.mp hge) (.inl he)

/-- The files of a child are those that it holds. -/
theorem FileInv.mem_files_iff (h : FileInv pid t f) (hpid : Function.Injective pid)
    (hi : (i : ℕ) < f.st.thisChildIndex) (hx : Owns (pid i) x) :
    x ∈ f.target.files (mkDirname (f.group i)) ↔ x ∈ held true (pid i) (f.done i) := by
  rw [h.group i hi, h.files _ (lt_of_le_of_lt (Nat.div_mul_le_self _ _) hi) x]
  refine ⟨?_, fun hheld => ⟨i, rfl, hheld⟩⟩
  rintro ⟨j, _, hj⟩
  rwa [hpid ((held_owned hj).unique hx)] at hj

theorem FileInv.next_finds (h : FileInv pid t f) (hpid : Function.Injective pid)
    (he : enabled f.st (.doChild i)) {c : Call} (hc : nextCall true pid f i = some c) :
    c.possible f.target (mkDirname (f.group i)) ∧
      c.finds (f.target.files (mkDirname (f.group i))) := by
  have hi := h.forked he
  unfold nextCall at hc
  have hfinds : c.finds (f.target.files (mkDirname (f.group i))) := by
    refine (Call.finds_congr fun x hx => ?_).mpr (held_finds hc)
    exact h.mem_files_iff hpid hi (doChild_mentions (List.mem_of_getElem? hc) hx)
  -- the remove loop waits for the child
  have hdir : mkDirname (f.group i) ∈ f.target.dirs := by
    have hnone : f.st.removedDirs = [] := h.dirInv.before (by
      by_contra hr
      exact h.inv.not_busy (by simpa using hr) i (.inl he))
    rw [h.group i hi, h.dirs _ (lt_of_le_of_lt (Nat.div_mul_le_self _ _) hi), hnone]
    exact List.not_mem_nil
  refine ⟨?_, hfinds⟩
  cases c with
  | openDir => exact hdir
  | create name => exact hdir
  | rename name newname => exact hfinds.1
  | unlink name => exact hfinds

/-- The end of a `do_child`. -/
theorem FileInv.end_empty (h : FileInv pid t f) (h' : FileInv pid t f') (hpid : Function.Injective pid)
    {a : FileAct cfg} (hstep : FileStep true pid f a f') (hiter : f.st.iter i ≠ f'.st.iter i) :
    ∀ x ∈ f'.target.files (mkDirname (f'.group i)), ¬ Owns (pid i) x := by
  intro x hx howns
  rcases fileStep_cases hstep with ⟨_, heq, _⟩ | ⟨j, c, rfl, hen, hc, rfl⟩
  · exact hiter (congrFun heq i).symm
  · obtain ⟨hown, hother⟩ := fileCall_iter hc
    by_cases hij : i = j
    · subst hij
      have hi : (i : ℕ) < (fileCall true pid f i c).st.thisChildIndex := by
        rcases fileCall_cases (f := f) i c with e | ⟨e, -⟩ <;> rw [e] <;> exact h.forked hen
      rcases hown with ⟨heq, _⟩ | ⟨_, hdone, _⟩
      · exact hiter heq.symm
      · rw [h'.mem_files_iff hpid hi howns, hdone, held_zero] at hx
        cases hx
    · exact hiter (hother i hij).symm

/-- **The files of a child, with `-u`.**  Its next call finds its file, and makes no name that is
taken; it has at most `unlinkLag + 1` files; of its calls those about one file are whole lives of the
file, one for each `do_child` that has ended, and the beginning of another; and at the end of a
`do_child` it has no file. -/
theorem files_live (htpd : 1 ≤ cfg.threadsPerDir) (hpid : Function.Injective pid) {left : ℤ}
    {target : Target} {tr : List (FileSt cfg × FileAct cfg × FileSt cfg)}
    (hrun : Lts.Run (FileStep true pid) (fileInit cfg left target) tr f) (i : Fin cfg.nThreads) :
    (enabled f.st (.doChild i) → ∃ c ∈ nextCall true pid f i,
      c.possible f.target (mkDirname (f.group i)) ∧
        c.finds (f.target.files (mkDirname (f.group i)))) ∧
    ((i : ℕ) < f.st.thisChildIndex → ∀ S ⊆ f.target.files (mkDirname (f.group i)),
      (∀ x ∈ S, Owns (pid i) x) → S.card ≤ unlinkLag + 1) ∧
    (∀ n < nFiles, ∃ m, (callsOf pid i tr).filter (Call.about (pid i) n) =
      (List.replicate (f.st.iter i) (life (pid i) n)).flatten ++ (life (pid i) n).take m) ∧
    ∀ x ∈ tr, x.1.st.iter i ≠ x.2.2.st.iter i →
      ∀ y ∈ x.2.2.target.files (mkDirname (x.2.2.group i)), ¬ Owns (pid i) y := by
  obtain ⟨t, _, _, hf, hsteps⟩ := exists_fileInv htpd hpid hrun
  refine ⟨?_, ?_, ?_, ?_⟩
  · intro he
    have hc := List.getElem?_eq_getElem (done_lt hrun i)
    exact ⟨_, hc, hf.next_finds hpid he hc⟩
  · intro hi S hS howns
    refine le_trans (Finset.card_le_card fun x hx => ?_) (card_held_le (pid i) (f.done i))
    exact (hf.mem_files_iff hpid hi (howns x hx)).mp (hS hx)
  · intro n hn
    rw [callsOf_run hrun, List.filter_append, List.filter_flatten, List.map_replicate,
      filter_doChild hn]
    have hprefix := (List.take_prefix (f.done i) (doChild true (pid i))).filter (Call.about (pid i) n)
    rw [filter_doChild hn, List.prefix_iff_eq_take] at hprefix
    exact ⟨_, by rw [← hprefix]⟩
  · intro x hx hiter
    obtain ⟨hx1, hxs, hx2⟩ := hsteps x hx
    exact hx1.end_empty hx2 hpid hxs hiter

/-! ## a run -/

section Examples

def emptyTarget : Target := ⟨∅, fun _ => ∅, fun _ _ => rfl⟩

def pids (cfg : Cfg) (i : Fin cfg.nThreads) : ℕ := 1000 + i

theorem pids_injective (cfg : Cfg) : Function.Injective (pids cfg) := by
  intro i j h
  unfold pids at h
  exact Fin.ext (by omega)

/-- two children of one directory in the middle of their first file -/
def firstFiles : List (FileAct ⟨2, 1, 2⟩) :=
  [.proto .fork, .call ⟨0, by decide⟩, .proto .fork, .call ⟨0, by decide⟩, .call ⟨1, by decide⟩,
    .call ⟨1, by decide⟩, .call ⟨0, by decide⟩]

theorem files_live_two : ∃ (tr : List _) (f : FileSt ⟨2, 1, 2⟩),
    Lts.Run (FileStep true (pids ⟨2, 1, 2⟩)) (fileInit ⟨2, 1, 2⟩ 0 emptyTarget) tr f ∧
      f.done ⟨0, by decide⟩ = 3 ∧ f.done ⟨1, by decide⟩ = 2 ∧
      (∃ c ∈ nextCall true (pids ⟨2, 1, 2⟩) f ⟨1, by decide⟩,
        c.possible f.target (mkDirname (f.group ⟨1, by decide⟩))) ∧
      ∃ m, (callsOf (pids ⟨2, 1, 2⟩) ⟨0, by decide⟩ tr).filter (Call.about 1000 0) =
        (life 1000 0).take m := by
  have hreach : Lts.Reach (FileStep true (pids ⟨2, 1, 2⟩)) (fileInit ⟨2, 1, 2⟩ 0 emptyTarget)
      (firstFiles.foldl (fileNext true (pids ⟨2, 1, 2⟩)) (fileInit ⟨2, 1, 2⟩ 0 emptyTarget)) :=
    Lts.Reach.of_labels firstFiles (by decide +kernel)
  obtain ⟨tr, hrun⟩ := hreach
  have h0 := files_live (by decide) (pids_injective _) hrun ⟨0, by decide⟩
  have h1 := files_live (by decide) (pids_injective _) hrun ⟨1, by decide⟩
  obtain ⟨c, hc, hposs, _⟩ := h1.1 (by decide +kernel)
  obtain ⟨m, hm⟩ := h0.2.2.1 0 (by decide)
  have hiter : (firstFiles.foldl (fileNext true (pids ⟨2, 1, 2⟩))
    (fileInit ⟨2, 1, 2⟩ 0 emptyTarget)).st.iter ⟨0, by decide⟩ = 0 := by decide +kernel
  rw [hiter] at hm
  exact ⟨tr, _, hrun, by decide +kernel, by decide +kernel, ⟨c, hc, hposs⟩, m, hm⟩

end Examples

end Synctest
