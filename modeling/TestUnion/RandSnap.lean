import Mathlib.Data.Fin.VecNotation
import TestUnion.Interleaved
import TestUnion.Threads

/-!
# rand-snap: snapshots and deletions until NOMORESNAPS

* `Args`            the options of a process; any number of processes runs in one directory;
* `Pc`, `Work`      where a process is, and its next step;
* `commands i tr`   how many `btrfs` commands process `i` gave in a run;
* `stopped`         once the file `NOMORESNAPS` is there each process gives at most one more
                    command, and all come to their end; the other names of the directory stay.
-/

namespace RandSnap

open Interleaved Lts Threads

abbrev Word := List Char

inductive Entry where
  | file
  | dir
  | subvol
  deriving DecidableEq

/-- the directory that the processes run in -/
abbrev Dir := Word → Option Entry

/-- The pattern is the beginning of a name in this directory, and no option. -/
structure Args where
  /-- `-d` -/
  delete : Bool
  pattern : Word
  noSlash : '/' ∉ pattern
  noOption : pattern.head? ≠ some '-'
  /-- `-z` -/
  touch : Bool

/-- `ok` is what `ret` says. -/
inductive Pc where
  | touch
  | loop
  | chosen (snap : Word)
  | sleep (ok : Bool)
  | test (ok : Bool)
  | deletedelay
  | exited
  deriving DecidableEq

def noMoreSnaps : Word := "NOMORESNAPS".toList

/-- `"$pattern"[0-9]*` -/
def Globs (pattern w : Word) : Prop := ∃ d rest, d.isDigit = true ∧ w = pattern ++ d :: rest

section
variable {ι : Type*} (args : ι → Args)

/-- A snapshot goes below the name when that is a directory, and any command may fail.  A pattern
that nothing matches stays as it is; without an entry of that name `ls` prints nothing.  `head` takes one
line of the output, which is part of a name when that has newlines. -/
inductive Work (i : ι) : Pc → Dir → Pc → Dir → Prop
  | noTouch {m} : Work i .touch m .loop m
  | touch {m} (z : (args i).touch = true) (new : m noMoreSnaps = none) :
    Work i .touch m .loop (Function.update m noMoreSnaps (some .file))
  | snapshot {m random} (d : (args i).delete = false) (digits : ∀ c ∈ random, c.isDigit = true)
      (new : m ((args i).pattern ++ random) = none) :
    Work i .loop m (.sleep true) (Function.update m ((args i).pattern ++ random) (some .subvol))
  | noSnapshot {m} (d : (args i).delete = false) : Work i .loop m (.sleep true) m
  | choose {m w snap} (d : (args i).delete = true) (entry : m w ≠ none)
      (glob : Globs (args i).pattern w) (line : snap ∈ w.splitOn '\n') :
    Work i .loop m (.chosen snap) m
  | chooseName {m snap} (d : (args i).delete = true)
      (none : ∀ w, Globs (args i).pattern w → m w = none)
      (entry : m ((args i).pattern ++ "[0-9]*".toList) ≠ .none)
      (line : snap ∈ ((args i).pattern ++ "[0-9]*".toList).splitOn '\n') :
    Work i .loop m (.chosen snap) m
  | chooseNone {m} (d : (args i).delete = true) (none : ∀ w, Globs (args i).pattern w → m w = none)
      (entry : m ((args i).pattern ++ "[0-9]*".toList) = .none) : Work i .loop m (.chosen []) m
  | delete {m snap} (name : snap ≠ []) (entry : m snap = some .subvol) :
    Work i (.chosen snap) m (.sleep true) (Function.update m snap none)
  | deleteFails {m snap} : Work i (.chosen snap) m (.sleep false) m
  | wake {m ok} : Work i (.sleep ok) m (.test ok) m
  | exit {m ok} (file : m noMoreSnaps = some .file) : Work i (.test ok) m .exited m
  | again {m} (noFile : m noMoreSnaps ≠ some .file) : Work i (.test true) m .loop m
  | late {m} (noFile : m noMoreSnaps ≠ some .file) : Work i (.test false) m .deletedelay m
  | deletedelay {m} : Work i .deletedelay m .loop m

/-- The step is a `btrfs` command. -/
def isCommand (i : ι) : Pc → Bool
  | .loop => !(args i).delete
  | .chosen _ => true
  | _ => false

abbrev State (ι : Type*) := Shared ι Pc Word (Option Entry)

def commands [DecidableEq ι] (i : ι) (tr : List (State ι × ι × State ι)) : ℕ :=
  tr.countP fun x => x.2.1 = i && isCommand args i (x.1.pc i)

end

/-- the commands that are to come once the file is there -/
def Pc.owed : Pc → ℕ
  | .touch | .loop | .chosen _ | .deletedelay => 1
  | _ => 0

theorem Pc.owed_le (c : Pc) : c.owed ≤ 1 := by cases c <;> simp [Pc.owed]

/-- and the steps -/
def Pc.rank : Pc → ℕ
  | .touch => 6
  | .deletedelay => 6
  | .loop => 5
  | .chosen _ => 4
  | .sleep _ => 3
  | .test _ => 2
  | .exited => 0

section
variable {ι : Type*} {args : ι → Args} {i : ι} {c c' : Pc} {m m' : Dir} {s s' : State ι}
  {tr : List (State ι × ι × State ι)} {w : Word}

/-- No command removes or replaces a file. -/
theorem Work.file (hw : Work args i c m c' m') (h : m w = some .file) : m' w = some .file := by
  have hput {v : Word} (x : Option Entry) (hv : m v ≠ some .file) :
      Function.update m v x w = some .file := by
    have hne : w ≠ v := by
      rintro rfl
      exact hv h
    rw [Function.update_of_ne hne]
    exact h
  cases hw with
  | touch z new => exact hput _ (by rw [new]; exact nofun)
  | snapshot d digits new => exact hput _ (by rw [new]; exact nofun)
  | delete name entry => exact hput _ (by rw [entry]; exact nofun)
  | _ => exact h

theorem Work.owed (hw : Work args i c m c' m') (h : m noMoreSnaps = some .file) :
    (isCommand args i c).toNat + c'.owed ≤ c.owed := by
  cases hw with
  | snapshot d digits new => simp [isCommand, Pc.owed, d]
  | noSnapshot d => simp [isCommand, Pc.owed, d]
  | choose d entry glob line => simp [isCommand, Pc.owed, d]
  | chooseName d none entry line => simp [isCommand, Pc.owed, d]
  | chooseNone d none entry => simp [isCommand, Pc.owed, d]
  | again noFile => exact absurd h noFile
  | late noFile => exact absurd h noFile
  | _ => exact Nat.le_refl _

theorem Work.rank (hw : Work args i c m c' m') (h : m noMoreSnaps = some .file) :
    c'.rank < c.rank := by
  cases hw with
  | again noFile => exact absurd h noFile
  | late noFile => exact absurd h noFile
  | _ => exact Nat.lt_of_sub_pos (Nat.succ_pos _)

theorem exists_line (w : Word) : ∃ line, line ∈ w.splitOn '\n' :=
  List.exists_mem_of_ne_nil _ (List.splitOn_ne_nil '\n' w)

/-- A process that is not done has a next step. -/
theorem Work.exists_of_ne (hc : c ≠ .exited) (h : m noMoreSnaps = some .file) :
    ∃ c' m', Work args i c m c' m' := by
  cases c with
  | touch => exact ⟨_, _, .noTouch⟩
  | loop =>
    cases hd : (args i).delete with
    | false => exact ⟨_, _, .noSnapshot hd⟩
    | true =>
      by_cases hglob : ∃ w, Globs (args i).pattern w ∧ m w ≠ none
      · obtain ⟨w, hw, hentry⟩ := hglob
        obtain ⟨snap, hsnap⟩ := exists_line w
        exact ⟨_, _, .choose hd hentry hw hsnap⟩
      · have hnone : ∀ w, Globs (args i).pattern w → m w = none := by
          intro w hw
          by_contra hentry
          exact hglob ⟨w, hw, hentry⟩
        by_cases hname : m ((args i).pattern ++ "[0-9]*".toList) = none
        · exact ⟨_, _, .chooseNone hd hnone hname⟩
        · obtain ⟨snap, hsnap⟩ := exists_line ((args i).pattern ++ "[0-9]*".toList)
          exact ⟨_, _, .chooseName hd hnone hname hsnap⟩
  | chosen snap => exact ⟨_, _, .deleteFails⟩
  | sleep ok => exact ⟨_, _, .wake⟩
  | test ok => exact ⟨_, _, .exit h⟩
  | deletedelay => exact ⟨_, _, .deletedelay⟩
  | exited => exact absurd rfl hc

/-! ## what the processes do to the directory -/

/-- No name of the directory has a newline. -/
def OneLine (m : Dir) : Prop := ∀ w, m w ≠ none → '\n' ∉ w

theorem line_eq {line : Word} (h : '\n' ∉ w) (hline : line ∈ w.splitOn '\n') : line = w := by
  rw [List.splitOn_eq_singleton h] at hline
  exact List.mem_singleton.mp hline

theorem OneLine.step (h : OneLine m) (hpattern : '\n' ∉ (args i).pattern)
    (hw : Work args i c m c' m') : OneLine m' := by
  have hput {v : Word} (x : Option Entry) (hv : '\n' ∉ v) : OneLine (Function.update m v x) := by
    intro w hw
    by_cases hwv : w = v
    · rw [hwv]
      exact hv
    · rw [Function.update_of_ne hwv] at hw
      exact h w hw
  cases hw with
  | touch z new => exact hput _ (by decide)
  | snapshot d digits new =>
    apply hput
    rw [List.mem_append]
    rintro (hmem | hmem)
    · exact hpattern hmem
    · exact absurd (digits _ hmem) (by decide)
  | delete name entry => exact hput _ (h _ (by rw [entry]; exact nofun))
  | _ => exact h

/-- What a process is about to delete starts with its pattern. -/
def Names (args : ι → Args) (s : State ι) : Prop :=
  ∀ i snap, s.pc i = .chosen snap → snap = [] ∨ (args i).pattern <+: snap

theorem Work.names {snap : Word} (h : OneLine m)
    (hw : Work args i c m (.chosen snap) m') : snap = [] ∨ (args i).pattern <+: snap := by
  cases hw with
  | choose d entry glob line =>
    rw [line_eq (h _ entry) line]
    obtain ⟨d, rest, -, rfl⟩ := glob
    exact .inr (List.prefix_append _ _)
  | chooseName d none entry line =>
    rw [line_eq (h _ entry) line]
    exact .inr (List.prefix_append _ _)
  | chooseNone d none entry => exact .inl rfl

theorem Work.other (hw : Work args i c m c' m')
    (hnames : ∀ snap, c = .chosen snap → snap = [] ∨ (args i).pattern <+: snap)
    (hne : w ≠ noMoreSnaps) (hpattern : ¬ (args i).pattern <+: w) : m' w = m w := by
  have hput {v : Word} (x : Option Entry) (hv : (args i).pattern <+: v) :
      Function.update m v x w = m w := by
    apply Function.update_of_ne
    rintro rfl
    exact hpattern hv
  cases hw with
  | touch z new => exact Function.update_of_ne hne _ _
  | snapshot d digits new => exact hput _ (List.prefix_append _ _)
  | delete name entry =>
    rcases hnames _ rfl with hnil | hsnap
    · exact absurd hnil name
    · exact hput _ hsnap
  | _ => rfl

theorem Names.step (h : Names args s) (hone : OneLine s.mem)
    (hst : Interleave (Work args) s i s') : Names args s' := by
  obtain ⟨hw, hrest⟩ := hst
  intro j snap hj
  by_cases hji : j = i
  · subst hji
    rw [hj] at hw
    exact hw.names hone
  · exact h j snap (by rw [← hrest j hji]; exact hj)

variable [DecidableEq ι]

theorem commands_step (hr : Run (Interleave (Work args)) s tr s')
    (h : s.mem noMoreSnaps = some .file) :
    s'.mem noMoreSnaps = some .file ∧ ∀ i, commands args i tr + (s'.pc i).owed ≤ (s.pc i).owed := by
  induction hr with
  | nil => exact ⟨h, fun i => Nat.le_of_eq (Nat.zero_add _)⟩
  | @snoc tr t j u _ hst ih =>
    obtain ⟨hfile, hcommands⟩ := ih
    obtain ⟨hwork, hrest⟩ := hst
    refine ⟨hwork.file hfile, fun i => ?_⟩
    have hi := hcommands i
    have hcount : commands args i (tr ++ [(t, j, u)]) =
        commands args i tr + if j = i && isCommand args i (t.pc i) then 1 else 0 := by
      unfold commands
      rw [List.countP_append, List.countP_singleton]
    rw [hcount]
    by_cases hij : i = j
    · subst hij
      have howed := hwork.owed hfile
      cases hcommand : isCommand args i (t.pc i) with
      | false =>
        rw [hcommand, Bool.toNat_false] at howed
        simp only [decide_true, Bool.true_and, Bool.false_eq_true, if_false]
        omega
      | true =>
        rw [hcommand, Bool.toNat_true] at howed
        simp only [decide_true, Bool.true_and, if_true]
        omega
    · rw [hrest i hij]
      simpa [Ne.symm hij] using hi

variable [Fintype ι]

theorem all_exit (h : s.mem noMoreSnaps = some .file) :
    Inev (Interleave (Work args)) (fun t => ∀ i, t.pc i = .exited) s := by
  apply Inev.of_measure (I := fun t => t.mem noMoreSnaps = some .file) (fun t => total Pc.rank t.pc)
    _ s h
  intro t ht hleft
  refine ⟨?_, ?_⟩
  · obtain ⟨i, hi⟩ := not_forall.mp hleft
    obtain ⟨c', m', hw⟩ := @Work.exists_of_ne _ args i _ _ hi ht
    refine ⟨i, ⟨Function.update t.pc i c', m'⟩, ?_, fun j hj => Function.update_of_ne hj _ _⟩
    show Work args i (t.pc i) t.mem (Function.update t.pc i c' i) m'
    rw [Function.update_self]
    exact hw
  · intro i u hst
    obtain ⟨hw, hrest⟩ := hst
    refine ⟨hw.file ht, ?_⟩
    have hpc : u.pc = Function.update t.pc i (u.pc i) := by
      funext j
      by_cases hj : j = i
      · rw [hj, Function.update_self]
      · rw [Function.update_of_ne hj, hrest j hj]
    rw [hpc]
    exact total_update_lt (hw.rank ht)

end

/-! one process that takes snapshots, and one that deletes them -/

section Examples

theorem snap_noSlash : '/' ∉ "snap".toList := by decide

theorem snap_noOption : "snap".toList.head? ≠ some '-' := by decide

def snapper : Args := ⟨false, "snap".toList, snap_noSlash, snap_noOption, false⟩

def deleter : Args := ⟨true, "snap".toList, snap_noSlash, snap_noOption, true⟩

def twoArgs : Fin 2 → Args := ![snapper, deleter]

/-- a directory with a subvolume `home` -/
def homeDir : Dir := Function.update (fun _ => none) "home".toList (some .subvol)

theorem homeDir_oneLine : OneLine homeDir := by
  intro w hw
  by_cases hhome : w = "home".toList
  · rw [hhome]
    decide
  · exact absurd (Function.update_of_ne hhome _ _) hw

end Examples

end RandSnap
