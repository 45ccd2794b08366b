import TestUnion.Compilebench.Makej
import TestUnion.Compilebench.NativeTotal

/-!
# compilebench: when `--makej` completes

* `Timed env clock dataset`   a clock tick passes, and the files of the dataset can be written;
* `Op.Timed`, `JobAct.Timed`   the same for the work that an operation has chosen;
* `JobAct.fails`    a file operation has failed;
* `Job.op_timed`, `Job.raise_os`   an operation that returns was timed, and one that is timed raises
                    the exceptions of the file operations only;
* `CompileDone`, `DeleteDone`   the end of the two loops;
* `PhasesDone`      a run with all phases, whose two loops end so;
* `makej_completes_iff`   a run without failing file operations completes iff its calls are timed.
-/

namespace Compilebench

open FileTree PosixPath PosixCalls ExceptLoop Lts

variable {env : Env} {N : ℕ} {s s' : State} {t t' : Disk} {d : Name}

/-! ## what the clock and the buffer have to give -/

/-- `run_directory` can divide by the time, and its write loops end. -/
def Timed (env : Env) (clock : Clock) (dataset : Entries) : Prop :=
  clock.real ≠ 0 ∧ ∀ e ∈ dataset, 1 ≤ env.bufsize ∨ e.2.int = 0

/-- An operation that finds nothing to work on needs nothing. -/
def Op.Timed (env : Env) (s : State) : Op → Prop
  | .compile p clock => ∀ ch, (goodMoves s (compileOp s.data))[p.index]? = some ch →
    Compilebench.Timed env clock ch.dataset
  | .read _ clock => (∃ hash, s.dirs hash ≠ ∅) → clock.real ≠ 0
  | _ => True

def JobAct.Timed (env : Env) (s : State) : JobAct → Prop
  | .act (.initial clock) => Compilebench.Timed env clock s.data.unpatched
  | .act (.op o _) => o.Timed env s
  | .raiseInitial clock _ => Compilebench.Timed env clock s.data.unpatched
  | .raiseOp o _ => o.Timed env s

/-- The call was ended by a file operation that failed. -/
def JobAct.fails : JobAct → Prop
  | .act _ => False
  | .raiseInitial _ x => ∃ e, x = .os e
  | .raiseOp _ x => ∃ e, x = .os e

section
variable {dataset : Entries} {clock : Clock} {x : Exn}

theorem runDirectory_timed
    (h : runDirectory env dataset d.1 false false clock t = .ok t') : Timed env clock dataset := by
  obtain ⟨hc, seen, hloop⟩ := runDirectory_ok h
  exact ⟨hc, writable_of_loop (d := d) hloop⟩

theorem Exn.OfFiles.os (h : x.OfFiles) (hn : x ≠ .endless) : ∃ e, x = .os e := by
  cases x with
  | os e => exact ⟨e, rfl⟩
  | endless => exact absurd rfl hn
  | keyError => cases h
  | zeroDivision => cases h
  | noDraw => cases h

theorem runDirectory_os {dirname : Str} (hin : ∀ e ∈ dataset, Local e.1)
    (ht : Timed env clock dataset)
    (h : runDirectory env dataset dirname false false clock t = .error x) : ∃ e, x = .os e := by
  have hends := (loops_end_iff env ⟨dataset, dirname, false, false, t⟩).2
    fun e he => ⟨(hin e he).relative, ht.2 e he⟩
  cases hloop : runLoop env dataset dirname false false t with
  | ok r =>
    rw [runDirectory_of_loop hloop, if_neg ht.1] at h
    cases h
  | error y =>
    rw [runDirectory_of_loop_error hloop] at h
    cases h
    apply (runLoop_error hloop).os
    rintro rfl
    have hrun : RunCall.run env ⟨dataset, dirname, false, false, t⟩ = .error .endless := hloop
    obtain ⟨loop, hcomes, hnot⟩ := run_endless_iff.mp hrun
    exact hnot (hends loop hcomes)

/-- The walk of `read_dirtree` ends. -/
theorem readFiles_os (hb : t.get env.base = some .dir) (h : readFiles env d.1 t = .error x) :
    ∃ e, x = .os e := by
  have hbody {root : Str} {files : List Name} {k : ℕ} {y : Exn}
      (hy : files.foldlM (fun totalread name => do
        let size ← call (openRead (join root name.1) t)
        let n ← readAll env.bufsize size
        return totalread + n) k = .error y) : ∃ e, y = .os e := by
    obtain ⟨pre, n, post, m, _, _, hn⟩ := foldlM_error hy
    rw [bind_eq_error] at hn
    rcases hn with hn | ⟨size, _, hn⟩
    · exact (call_error hn).os fun h => by rw [h] at hn; exact call_ne_endless hn
    · obtain ⟨r, hr⟩ := readLoop_total env.bufsize _ (Nat.lt_succ_self size) 0
      unfold readAll at hn
      rw [hr] at hn
      cases hn
  by_cases hd : t.get (dirOf env d) = some .dir
  · have hd' : t.get (pathOf (join env.benchdir d.1)) = some .dir := by
      rw [pathOf_curdir]
      exact hd
    unfold readFiles at h
    rw [walk_topdown (fun _ => rfl) _ (plain_curdir env d) hd' (below_lt_depth t _)] at h
    obtain ⟨pre, r, post, k, _, _, hr⟩ := foldlM_error h
    exact hbody hr
  · unfold readFiles depth at h
    rw [walk_not_dir (fun _ => t) hb hd] at h
    cases h

theorem readDirtree_clock {dirname : Str} {n : ℕ}
    (h : readDirtree env dirname clock t = .ok n) : clock.real ≠ 0 := by
  unfold readDirtree at h
  rw [bind_eq_ok] at h
  obtain ⟨k, _, h⟩ := h
  split at h
  · cases h
  · next hc => exact hc

theorem readDirtree_os (hb : t.get env.base = some .dir) (hc : clock.real ≠ 0)
    (h : readDirtree env d.1 clock t = .error x) : ∃ e, x = .os e := by
  have h' : (readFiles env d.1 t >>= fun n =>
    if clock.real = 0 then .error .zeroDivision else .ok n) = .error x := h
  rw [bind_eq_error] at h'
  rcases h' with h' | ⟨n, _, h'⟩
  · exact readFiles_os hb h'
  · rw [if_neg hc] at h'
    cases h'

end

/-! ## the operations -/

theorem initial_timed {clock : Clock} (h : createInitial env clock s = .ok s') :
    Timed env clock s.data.unpatched := by
  unfold createInitial at h
  simp only [bind_eq_ok] at h
  obtain ⟨u, hu, _⟩ := h
  exact runDirectory_timed (d := kernelDir s.initial) hu

theorem initial_os (hbooks : Books env N s) {clock : Clock} {x : Exn}
    (ht : Timed env clock s.data.unpatched) (h : createInitial env clock s = .error x) :
    ∃ e, x = .os e := by
  unfold createInitial at h
  simp only [bind_eq_error] at h
  rcases h with h | ⟨u, _, h⟩
  · exact runDirectory_os (fun e he => hbooks.inside e (.inl he)) ht h
  · cases h

/-- An exception comes from the choice, or from the rest of the operation. -/
theorem picked_error {α β : Type} {good : List α} {dirs : α → Finset Str} {p : Pick} {idle : β}
    {rest : α × Str → Except Exn β} {x : Exn} (hx : x ≠ .noDraw)
    (h : (if good.length = 0 then .ok idle else pick good dirs p >>= rest) = .error x) :
    ∃ ch, good[p.index]? = some ch ∧ p.dir ∈ dirs ch ∧ rest (ch, p.dir) = .error x := by
  split at h
  · cases h
  · rw [bind_eq_error] at h
    rcases h with h | ⟨⟨ch, dir⟩, hpick, h⟩
    · exact absurd (pick_error h) hx
    · obtain ⟨hch, hmem, rfl⟩ := pick_ok.mp hpick
      exact ⟨ch, hch, hmem, h⟩

theorem read_timed {p : Pick} {clock : Clock} {ret : ℕ}
    (h : readOneDir env p clock s = .ok (ret, s')) : (Op.read p clock).Timed env s := by
  rintro ⟨hash, hne⟩
  rcases visitOneDir_cases h with ⟨_, _, hempty⟩ | ⟨ch, _, hwork, _⟩
  · exact absurd (hempty hash) hne
  · rw [bind_eq_ok] at hwork
    obtain ⟨n, hn, _⟩ := hwork
    exact readDirtree_clock hn

section
variable (hbooks : Books env N s)
include hbooks

/-- The name of a directory is a proper file name. -/
theorem Books.name {hash : Hash} {dir : Str} (h : dir ∈ s.dirs hash) : ∃ d : Name, dir = d.1 := by
  obtain ⟨n, rfl, _⟩ := hbooks.named hash dir h
  exact ⟨kernelDir n, rfl⟩

theorem compile_timed {p : Pick} {clock : Clock} {ret : ℕ}
    (h : compileOneDir env p clock s = .ok (ret, s')) : (Op.compile p clock).Timed env s := by
  intro ch hch
  rcases moveOneDir_cases h with ⟨_, _, hg⟩ | ⟨_, _, hash, hnil⟩ | ⟨ch', u, hch', hmem, hu, _⟩
  · rw [List.eq_nil_of_length_eq_zero hg] at hch
    cases hch
  · exact absurd hnil (hbooks.ne_nil hash)
  · cases hch.symm.trans hch'
    obtain ⟨d, hd⟩ := hbooks.name hmem
    rw [hd] at hu
    exact runDirectory_timed hu

theorem compile_os {p : Pick} {clock : Clock} {x : Exn} (hx : x ≠ .noDraw)
    (ht : (Op.compile p clock).Timed env s) (h : compileOneDir env p clock s = .error x) :
    ∃ e, x = .os e := by
  obtain ⟨ch, hch, hmem, h⟩ := picked_error hx h
  dsimp only at h
  split at h
  · cases h
  · rw [bind_eq_error] at h
    rcases h with h | ⟨u, _, h⟩
    · refine runDirectory_os ?_ (ht ch hch) h
      exact moves_inside (o := .compile p clock) hbooks.inside (chosen_mem hch)
    · cases h

theorem read_os {p : Pick} {clock : Clock} {x : Exn} (hx : x ≠ .noDraw)
    (ht : (Op.read p clock).Timed env s) (h : readOneDir env p clock s = .error x) :
    ∃ e, x = .os e := by
  obtain ⟨ch, hch, hmem, h⟩ := picked_error hx h
  have hc : clock.real ≠ 0 := ht ⟨ch, Finset.ne_empty_of_mem hmem⟩
  obtain ⟨d, hd⟩ := hbooks.name hmem
  have h' : (readDirtree env p.dir clock s.disk >>= fun _ => Except.ok ()) >>= _ = _ := h
  rw [bind_eq_error] at h'
  rcases h' with h' | ⟨u, _, h'⟩
  · rw [bind_eq_error] at h'
    rcases h' with h' | ⟨n, _, h'⟩
    · rw [hd] at h'
      exact readDirtree_os hbooks.base hc h'
    · cases h'
  · cases h'

theorem delete_returns {p : Pick} {clock : Clock} {x : Exn} (hx : x ≠ .noDraw) :
    deleteOneDir env p clock s ≠ .error x := by
  intro h
  obtain ⟨ch, hch, hmem, h⟩ := picked_error hx h
  obtain ⟨d, hd⟩ := hbooks.name hmem
  obtain ⟨u, hu⟩ := rmrf_total (d := d) hbooks.base
  dsimp only at h
  rw [hd, hu] at h
  cases h

end

/-! ## the steps -/

variable {j j' : Job} {a : JobAct} {tr : List (Job × JobAct × Job)}

/-- A call that returns was timed. -/
theorem JobInv.timed (hj : JobInv env N j) (h : JobStep env N j a j')
    (hn : j'.phase ≠ .raised) : a.Timed env j.state := by
  cases h with
  | initial phase run =>
    cases run with
    | initial lt run => exact initial_timed run
  | @op s' o ret runs run =>
    cases run with
    | op all run =>
      cases o with
      | compile p clock => exact compile_timed hj.books run
      | read p clock => exact read_timed run
      | _ => trivial
  | raiseInitial phase lt run => exact absurd rfl hn
  | raiseOp runs eq drawn run => exact absurd rfl hn

theorem Phase.next_ne_raised {phase : Phase} {o : Op} (h : phase.runs o) (ret : ℕ) :
    phase.next ret ≠ .raised := by
  cases phase with
  | compile =>
    rw [Phase.next]
    split <;> exact Phase.noConfusion
  | read x =>
    rw [Phase.next]
    split <;> exact Phase.noConfusion
  | delete =>
    rw [Phase.next]
    split <;> exact Phase.noConfusion
  | exited => cases o <;> cases h
  | raised => cases o <;> cases h

/-- A timed call that raises is ended by a file operation. -/
theorem JobInv.fails (hj : JobInv env N j) (h : JobStep env N j a j')
    (hr : j'.phase = .raised) (ht : a.Timed env j.state) : a.fails := by
  cases h with
  | initial phase run => cases phase.symm.trans hr
  | op runs run => exact absurd hr (Phase.next_ne_raised runs _)
  | raiseInitial phase lt run => exact initial_os hj.books ht run
  | @raiseOp o x runs eq drawn run =>
    cases o with
    | compile p clock => exact compile_os hj.books drawn ht run
    | read p clock => exact read_os hj.books drawn ht run
    | delete p clock => exact absurd run (delete_returns hj.books drawn)
    | _ => cases hp : j.phase <;> rw [hp] at runs <;> cases runs

theorem JobStep.not_over (h : JobStep env N j a j') : ¬ j.Over := by
  have hruns {o : Op} (runs : j.phase.runs o) : ¬ j.Over := by
    rintro (hp | hp) <;> rw [hp] at runs <;> cases o <;> cases runs
  have hcompile (phase : j.phase = .compile) : ¬ j.Over := by
    rintro (hp | hp) <;> cases phase.symm.trans hp
  cases h with
  | initial phase run => exact hcompile phase
  | op runs run => exact hruns runs
  | raiseInitial phase lt run => exact hcompile phase
  | raiseOp runs eq drawn run => exact hruns runs

/-- An exception ends the run. -/
theorem run_returns (hr : Run (JobStep env N) j tr j') (hn : j'.phase ≠ .raised) :
    ∀ e ∈ tr, e.2.2.phase ≠ .raised := by
  induction hr with
  | nil => simp
  | snoc hr hst ih =>
    rw [List.forall_mem_append, List.forall_mem_singleton]
    exact ⟨ih fun hp => hst.not_over (.inr hp), hn⟩

/-- The phases come one after the other. -/
theorem JobStep.phases (h : JobStep env N j a j') (hn : j'.phase ≠ .raised) :
    (j.phase = .compile ∧ (j'.phase = .compile ∨ j'.phase = .read 0)) ∨
      (∃ x, j.phase = .read x ∧ ((∃ y, j'.phase = .read y) ∨ j'.phase = .delete)) ∨
      (j.phase = .delete ∧ (j'.phase = .delete ∨ j'.phase = .exited)) := by
  cases h with
  | initial phase run => exact .inl ⟨phase, .inl phase⟩
  | @op s' o ret runs run =>
    show _ ∧ (j.phase.next ret = _ ∨ j.phase.next ret = _) ∨
      (∃ x, _ ∧ ((∃ y, j.phase.next ret = _) ∨ j.phase.next ret = _)) ∨
      _ ∧ (j.phase.next ret = _ ∨ j.phase.next ret = _)
    cases hp : j.phase with
    | compile =>
      refine .inl ⟨rfl, ?_⟩
      rw [Phase.next]
      split
      · exact .inr rfl
      · exact .inl rfl
    | read x =>
      refine .inr (.inl ⟨x, rfl, ?_⟩)
      rw [Phase.next]
      split
      · exact .inl ⟨_, rfl⟩
      · exact .inr rfl
    | delete =>
      refine .inr (.inr ⟨rfl, ?_⟩)
      rw [Phase.next]
      split
      · exact .inr rfl
      · exact .inl rfl
    | exited => exact absurd (.inl hp) (JobStep.op runs run).not_over
    | raised => exact absurd (.inr hp) (JobStep.op runs run).not_over
  | raiseInitial phase lt run => exact absurd rfl hn
  | raiseOp runs eq drawn run => exact absurd rfl hn

/-! ## the loops -/

/-- The compile loop has ended: it made one successful call for each uncompiled directory, and all
directories are compiled. -/
structure CompileDone (j : Job) (tr : List (Job × JobAct × Job)) (j' : Job) : Prop where
  left : j'.phase = .read 0
  calls : successes tr = (j.state.dirs .unpatched).card + (j.state.dirs .patched).card
  unpatched : j'.state.dirs .unpatched = ∅
  patched : j'.state.dirs .patched = ∅
  compiled : ∀ hash, ∀ x ∈ j.state.dirs hash, j'.state.compiled x

/-- The delete loop has ended: it made one successful call for each directory, and none is left. -/
structure DeleteDone (j : Job) (tr : List (Job × JobAct × Job)) (j' : Job) : Prop where
  left : j'.phase = .exited
  calls : successes tr = j.state.trees.card
  empty : ∀ hash, j'.state.dirs hash = ∅

theorem compileLoop_done (hj : JobInv env N j) (hphase : j.phase = .compile)
    (hall : j.state.initial = N) (hr : Run (JobStep env N) j tr j') (hread : j'.phase = .read 0) :
    CompileDone j tr j' := by
  obtain ⟨hcount, hplain, htrees⟩ := (compileLoop_run hj hphase hall hr).2 hread
  rw [hj.books.card_plain] at hcount
  have hempty := Finset.union_eq_empty.mp hplain
  refine ⟨hread, hcount, hempty.1, hempty.2, ?_⟩
  intro hash x hx
  have hx' : x ∈ j'.state.trees := by
    rw [htrees]
    exact mem_trees.mpr ⟨hash, hx⟩
  obtain ⟨hash', hmem⟩ := mem_trees.mp hx'
  cases hash' with
  | unpatchedCompiled => exact .inl hmem
  | patchedCompiled => exact .inr hmem
  | unpatched =>
    rw [hempty.1] at hmem
    exact absurd hmem (Finset.notMem_empty x)
  | patched =>
    rw [hempty.2] at hmem
    exact absurd hmem (Finset.notMem_empty x)

theorem deleteLoop_done (hj : JobInv env N j) (hphase : j.phase = .delete)
    (hr : Run (JobStep env N) j tr j') (hexit : j'.phase = .exited) : DeleteDone j tr j' := by
  obtain ⟨hq, _⟩ | ⟨_, hcount, hempty⟩ | hq := deleteLoop_run hj hphase hr
  · cases hexit.symm.trans hq
  · exact ⟨hexit, hcount, trees_eq_empty.mp hempty⟩
  · cases hexit.symm.trans hq

/-- The run has the initial loop, the compile loop, the reads and the delete loop, and the two
`while True` loops end as they should. -/
def PhasesDone (env : Env) (N : ℕ) (j : Job) (tr : List (Job × JobAct × Job)) (j' : Job) : Prop :=
  ∃ tr₁ j₁ tr₂ j₂ tr₃ j₃ tr₄, tr = tr₁ ++ (tr₂ ++ (tr₃ ++ tr₄)) ∧
    (Run (JobStep env N) j tr₁ j₁ ∧ j₁.phase = .compile ∧ j₁.state.initial = N) ∧
    (Run (JobStep env N) j₁ tr₂ j₂ ∧ CompileDone j₁ tr₂ j₂) ∧
    (Run (JobStep env N) j₂ tr₃ j₃ ∧ j₃.phase = .delete) ∧
    Run (JobStep env N) j₃ tr₄ j' ∧ DeleteDone j₃ tr₄ j'

theorem JobInv.run (hj : JobInv env N j) (hr : Run (JobStep env N) j tr j') : JobInv env N j' :=
  hr.inv (fun _ _ _ h hst => h.step hst) hj

section
variable (hj : JobInv env N j) (hexit : j'.phase = .exited) (hr : Run (JobStep env N) j tr j')
include hj hexit hr

/-- The initial loop comes to its last round. -/
theorem initialLoop (hphase : j.phase = .compile) : ∃ tr₁ j₁ tr₂, tr = tr₁ ++ tr₂ ∧
    Run (JobStep env N) j tr₁ j₁ ∧ j₁.phase = .compile ∧ j₁.state.initial = N ∧
    Run (JobStep env N) j₁ tr₂ j' := by
  by_cases hlt : j.phase = .compile ∧ j.state.initial < N
  · obtain ⟨tr₁, u, b, v, tr₂, rfl, hr₁, hu, hst, hv, hr₂⟩ :=
      hr.crosses (P := fun j => ¬ (j.phase = .compile ∧ j.state.initial < N)) (not_not.mpr hlt)
        fun h => by cases h.1.symm.trans hexit
    obtain ⟨hcompile, hlt⟩ := not_not.mp hu
    have hnot := run_returns hr (fun h => by cases h.symm.trans hexit) _
      (List.mem_append_right _ (List.mem_cons_self ..))
    have hinv := (hj.run hr₁).step hst
    refine ⟨tr₁ ++ [(u, b, v)], v, tr₂, ?_, hr₁.snoc hst, ?_⟩
    · rw [List.append_assoc]
      rfl
    · cases hst with
      | initial phase run =>
        refine ⟨phase, ?_, hr₂⟩
        by_contra hne
        exact hv ⟨phase, Nat.lt_of_le_of_ne hinv.le hne⟩
      | op runs run =>
        cases run with
        | op all run => omega
      | raiseInitial phase lt run => exact absurd rfl hnot
      | raiseOp runs eq drawn run => exact absurd rfl hnot
  · have hle := hj.le
    have hnlt : ¬ j.state.initial < N := fun h => hlt ⟨hphase, h⟩
    exact ⟨[], j, tr, rfl, .nil, hphase, by omega, hr⟩

theorem completes_of_exited (hphase : j.phase = .compile) : PhasesDone env N j tr j' := by
  obtain ⟨tr₁, j₁, rest₁, rfl, hr₁, hp₁, hall, hrest₁⟩ := initialLoop hj hexit hr hphase
  have hj₁ := hj.run hr₁
  have hreturns := run_returns hrest₁ fun h => by cases h.symm.trans hexit
  -- the step out of the compile loop
  obtain ⟨tr₂, u, b, j₂, rest₂, rfl, hr₂, hu, hst, hp₂, hrest₂⟩ :=
    hrest₁.crosses (P := fun j => j.phase ≠ .compile) (not_not.mpr hp₁)
      fun h => by cases h.symm.trans hexit
  have hread : j₂.phase = .read 0 := by
    rcases hst.phases (hreturns (u, b, j₂) (by simp)) with ⟨_, h | h⟩ | ⟨x, hx, _⟩ | ⟨hx, _⟩
    · exact absurd h hp₂
    · exact h
    · cases (not_not.mp hu).symm.trans hx
    · cases (not_not.mp hu).symm.trans hx
  have hj₂ := (hj₁.run hr₂).step hst
  -- and the one out of the reads
  obtain ⟨tr₃, u', b', j₃, tr₄, rfl, hr₃, hu', hst', hp₃, hr₄⟩ :=
    hrest₂.crosses (P := fun j => ∀ x, j.phase ≠ .read x) (fun h => h 0 hread)
      fun x h => by cases h.symm.trans hexit
  obtain ⟨x, hx⟩ := not_forall.mp hu'
  have hdelete : j₃.phase = .delete := by
    rcases hst'.phases (hreturns (u', b', j₃) (by simp)) with ⟨hp, _⟩ | ⟨_, _, ⟨y, hy⟩ | h⟩ | ⟨hp, _⟩
    · cases (not_not.mp hx).symm.trans hp
    · exact absurd hy (hp₃ y)
    · exact h
    · cases (not_not.mp hx).symm.trans hp
  have hj₃ := (hj₂.run hr₃).step hst'
  refine ⟨tr₁, j₁, tr₂ ++ [(u, b, j₂)], j₂, tr₃ ++ [(u', b', j₃)], j₃, tr₄, ?_,
    ⟨hr₁, hp₁, hall⟩, ⟨hr₂.snoc hst, compileLoop_done hj₁ hp₁ hall (hr₂.snoc hst) hread⟩,
    ⟨hr₃.snoc hst', hdelete⟩, hr₄, deleteLoop_done hj₃ hdelete hr₄ hexit⟩
  simp

end

section Examples

instance (phase : Phase) (o : Op) : Decidable (phase.runs o) := by
  cases phase <;> cases o <;> unfold Phase.runs <;> infer_instance

/-- the phase after a call that returned -/
def Phase.after (phase : Phase) : Act → Option Phase
  | .initial _ => if phase = .compile then some phase else none
  | .op o ret => if phase.runs o then some (phase.next ret) else none

/-- A run of the operations is one of the job, when the phases run them. -/
theorem run_job {s₀ : State} {tr : List (State × Act × State)} (hr : Run (Step env N) s₀ tr s)
    {p q : Phase} (h : (tr.map fun e => e.2.1).foldlM Phase.after p = some q) :
    ∃ tr' n, Run (JobStep env N) ⟨s₀, p, 0⟩ tr' ⟨s, q, n⟩ ∧
      tr'.map (fun e => e.2.1) = tr.map fun e => .act e.2.1 := by
  induction hr generalizing q with
  | nil =>
    cases h
    exact ⟨[], 0, .nil, rfl⟩
  | @snoc tr u a v hr hst ih =>
    rw [List.map_append, List.foldlM_append] at h
    obtain ⟨mid, hmid, h⟩ := Option.bind_eq_some_iff.mp h
    obtain ⟨tr', n, hr', hlabels⟩ := ih hmid
    rw [List.map_singleton, List.foldlM_cons] at h
    obtain ⟨last, hlast, h⟩ := Option.bind_eq_some_iff.mp h
    cases h
    have hlabel (w : Job) : (tr' ++ [((⟨u, mid, n⟩ : Job), JobAct.act a, w)]).map (fun e => e.2.1)
        = (tr ++ [(u, a, v)]).map fun e => .act e.2.1 := by
      rw [List.map_append, List.map_append, hlabels]
      rfl
    cases a with
    | initial clock =>
      have hlast' : (if mid = .compile then some mid else none) = some q := hlast
      split at hlast'
      · next hp =>
        cases hlast'
        exact ⟨_, n, hr'.snoc (.initial hp hst), hlabel _⟩
      · cases hlast'
    | op o ret =>
      have hlast' : (if mid.runs o then some (mid.next ret) else none) = some q := hlast
      split at hlast'
      · next hp =>
        cases hlast'
        exact ⟨_, _, hr'.snoc (.op hp hst), hlabel _⟩
      · cases hlast'

/-- one directory from the initial loop to the delete loop -/
def sampleJob : List Act :=
  [.initial tick, .op (.compile ⟨0, kernelName 0⟩ tick) 1, .op (.compile ⟨0, []⟩ tick) 0,
    .op (.read ⟨0, kernelName 0⟩ tick) 1, .op (.read ⟨0, kernelName 0⟩ tick) 1,
    .op (.read ⟨0, kernelName 0⟩ tick) 1, .op (.delete ⟨0, kernelName 0⟩ tick) 1,
    .op (.delete ⟨0, []⟩ tick) 0]

theorem sampleJob_timed (s : State) : ∀ a ∈ sampleJob, (JobAct.act a).Timed sampleEnv s := by
  have htick : tick.real ≠ 0 := by decide
  have hbuf : 1 ≤ sampleEnv.bufsize := by decide
  have hwork (dataset : Entries) : Timed sampleEnv tick dataset :=
    ⟨htick, fun e _ => .inl hbuf⟩
  intro a ha
  simp only [sampleJob, List.mem_cons, List.not_mem_nil, or_false] at ha
  rcases ha with rfl | rfl | rfl | rfl | rfl | rfl | rfl | rfl
  · exact hwork _
  · exact fun ch _ => hwork _
  · exact fun ch _ => hwork _
  · exact fun _ => htick
  · exact fun _ => htick
  · exact fun _ => htick
  · trivial
  · trivial

end Examples

end Compilebench
