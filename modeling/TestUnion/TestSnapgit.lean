import TestUnion.Splits
import Mathlib.Data.Finset.Insert
import Mathlib.Tactic.Common

/-!
# test-snapgit

* `resolve`         where a relative path leads to, from the directory of the process;
* `Env`, `State`    the clone with a commit checked out, the directories beside it and the branches;
* `step`, `startme` one round of the loop, and the loop over the list of commits;
* `isDir_inside`, `hasSnapshot_eq`   the tested path is in the clone, the snapshot beside it;
* `ran`             the commits that are checked out and snapshotted;
* `Incremental`     these are the ones without a snapshot from before;
* `incremental_iff` this is so when the clone has the directories that are beside it;
* `incremental_fresh`   without such directories in the clone: when there is no snapshot yet.
-/

namespace TestSnapgit

open Splits

abbrev Name := String
abbrev Commit := String

/-- paths start at the directory in which the script is started -/
def resolve (cwd : List Name) (rel : List Name) : List Name :=
  rel.foldl (fun p c => if c = ".." then p.dropLast else p ++ [c]) cwd

def dir : Name := "linux-3.git-clone"

def snapName (i : Commit) : Name := "snap-" ++ i

def branchName (i : Commit) : Name := "test-" ++ i

/-- the directories of the clone when a commit is checked out, and the commands that succeed -/
structure Env where
  tree : Option Commit → List Name → Bool
  canCheckout : Commit → Bool
  canSnap : Commit → Bool

inductive Cmd where
  | checkout (i : Commit)
  | snap (i : Commit)
  deriving DecidableEq

/-- `dirs` are the directories outside the clone. -/
structure State where
  head : Option Commit
  branches : Finset Name
  dirs : Finset (List Name)
  log : List Cmd

section
variable (env : Env)

def isDir (s : State) (p : List Name) : Bool :=
  if [dir].isPrefixOf p = true ∧ p ≠ [dir] then env.tree s.head p.tail else decide (p ∈ s.dirs)

/-- A branch that is there is not made again. -/
def checkout (s : State) (i : Commit) : State :=
  let s := { s with log := s.log ++ [.checkout i] }
  if env.canCheckout i = true ∧ branchName i ∉ s.branches then
    { s with head := some i, branches := insert (branchName i) s.branches }
  else s

/-- What comes into a snapshot, or into a directory that is there instead of it, is left out. -/
def snap (s : State) (i : Commit) : State :=
  let s := { s with log := s.log ++ [.snap i] }
  if env.canSnap i = true then { s with dirs := insert (resolve [dir] ["..", snapName i]) s.dirs }
  else s

/-- The loop is run in the clone. -/
def step (skipexisting : Bool) (s : State) (i : Commit) : State :=
  if skipexisting = true ∧ isDir env s (resolve [dir] [snapName i]) = true then s
  else snap env (checkout env s i) i

def startme (skipexisting : Bool) (s : State) (revs : List Commit) : State :=
  revs.foldl (step env skipexisting) s

def hasSnapshot (s : State) (i : Commit) : Bool := isDir env s (resolve [dir] ["..", snapName i])

def cmds (i : Commit) : List Cmd := [.checkout i, .snap i]

/-- The loop runs for the commits without a snapshot from before. -/
def Incremental (s : State) (revs : List Commit) : Prop :=
  (startme env true s revs).log =
    s.log ++ (revs.filter fun i => !hasSnapshot env s i).flatMap cmds

end

section
variable {env : Env} {s : State} {revs : List Commit} {i j : Commit} {n : Name}

/-! ## the two paths -/

theorem snapName_ne (h : n.toList.head? ≠ some 's') : snapName i ≠ n := by
  rintro rfl
  apply h
  unfold snapName
  rw [String.toList_append]
  rfl

theorem resolve_inside : resolve [dir] [snapName i] = [dir, snapName i] := by
  show (if snapName i = ".." then [] else [dir] ++ [snapName i]) = _
  exact if_neg (snapName_ne (by decide))

theorem resolve_beside : resolve [dir] ["..", snapName i] = [snapName i] := by
  show (if snapName i = ".." then [] else [] ++ [snapName i]) = _
  exact if_neg (snapName_ne (by decide))

theorem isDir_inside : isDir env s (resolve [dir] [snapName i]) = env.tree s.head [snapName i] := by
  rw [resolve_inside]
  unfold isDir
  rw [if_pos ⟨by simp, by simp⟩]
  rfl

theorem hasSnapshot_eq : hasSnapshot env s i = decide ([snapName i] ∈ s.dirs) := by
  unfold hasSnapshot
  rw [resolve_beside]
  unfold isDir
  refine if_neg fun h => ?_
  have hname : dir = snapName i := by simpa using h.1
  exact snapName_ne (by decide) hname.symm

/-! ## the commits that are run -/

theorem step_log : (step env true s i).log =
    s.log ++ if env.tree s.head [snapName i] = true then [] else cmds i := by
  unfold step
  rw [isDir_inside]
  split
  · next h => rw [if_pos h.2, List.append_nil]
  · next h =>
    rw [if_neg fun ht => h ⟨rfl, ht⟩]
    unfold snap checkout cmds
    dsimp only
    split
    · split
      · exact List.append_assoc ..
      · exact List.append_assoc ..
    · split
      · exact List.append_assoc ..
      · exact List.append_assoc ..

def ran (env : Env) : State → List Commit → List Commit
  | _, [] => []
  | s, i :: revs =>
    (if env.tree s.head [snapName i] = true then [] else [i]) ++ ran env (step env true s i) revs

theorem ran_cons : ran env s (i :: revs) =
    (if env.tree s.head [snapName i] = true then [] else [i]) ++
      ran env (step env true s i) revs := rfl

theorem startme_log : (startme env true s revs).log = s.log ++ (ran env s revs).flatMap cmds := by
  induction revs generalizing s with
  | nil => exact (List.append_nil _).symm
  | cons i revs ih =>
    show (startme env true (step env true s i) revs).log = _
    rw [ih, step_log, List.append_assoc, ran_cons, List.flatMap_append]
    split
    · rfl
    · rfl

theorem ran_subset : ran env s revs ⊆ revs := by
  induction revs generalizing s with
  | nil => exact fun _ h => h
  | cons i revs ih =>
    rw [ran_cons]
    refine List.append_subset.mpr ⟨?_, List.subset_cons_of_subset i ih⟩
    split
    · exact List.nil_subset _
    · exact List.cons_subset_cons i (List.nil_subset _)

theorem cmds_inj {as bs : List Commit} (h : as.flatMap cmds = bs.flatMap cmds) : as = bs := by
  induction as generalizing bs with
  | nil =>
    cases bs with
    | nil => rfl
    | cons b bs => cases h
  | cons a as ih =>
    cases bs with
    | nil => cases h
    | cons b bs =>
      change Cmd.checkout a :: Cmd.snap a :: as.flatMap cmds =
        Cmd.checkout b :: Cmd.snap b :: bs.flatMap cmds at h
      obtain ⟨hab, htail⟩ := List.cons.inj h
      rw [Cmd.checkout.inj hab, ih (List.cons.inj htail).2]

/-- Each commit is listed once, so that what is run of it is seen where it is listed. -/
theorem ran_eq_iff {had : Commit → Bool} (hnodup : revs.Nodup) :
    ran env s revs = revs.filter (fun i => !had i) ↔
      ∀ before i after, revs = before ++ i :: after →
        env.tree (startme env true s before).head [snapName i] = had i := by
  induction revs generalizing s with
  | nil => exact iff_of_true rfl forall_splits_nil
  | cons i revs ih =>
    obtain ⟨hi, hnodup⟩ := List.nodup_cons.mp hnodup
    have hsplit : (∀ before j after, i :: revs = before ++ j :: after →
        env.tree (startme env true s before).head [snapName j] = had j) ↔
        env.tree s.head [snapName i] = had i ∧ ran env (step env true s i) revs =
          revs.filter fun i => !had i := by
      rw [ih hnodup]
      exact forall_splits_cons
        (P := fun before j _ => env.tree (startme env true s before).head [snapName j] = had j)
    have hnot : i ∉ ran env (step env true s i) revs := fun h => hi (ran_subset h)
    have hnot' : i ∉ revs.filter fun i => !had i := fun h => hi (List.mem_of_mem_filter h)
    rw [hsplit, ran_cons]
    cases htree : env.tree s.head [snapName i] with
    | true =>
      rw [if_pos rfl, List.nil_append]
      cases hhad : had i with
      | true =>
        rw [List.filter_cons_of_neg (by rw [hhad]; exact nofun)]
        exact (and_iff_right rfl).symm
      | false =>
        rw [List.filter_cons_of_pos (by rw [hhad]; rfl)]
        refine iff_of_false (fun h => hnot ?_) nofun
        rw [h]
        exact List.mem_cons_self
    | false =>
      rw [if_neg nofun, List.singleton_append]
      cases hhad : had i with
      | true =>
        rw [List.filter_cons_of_neg (by rw [hhad]; exact nofun)]
        refine iff_of_false (fun h => hnot' ?_) nofun
        rw [← h]
        exact List.mem_cons_self
      | false =>
        rw [List.filter_cons_of_pos (by rw [hhad]; rfl), List.cons_inj_right]
        exact (and_iff_right rfl).symm

theorem incremental_iff_ran : Incremental env s revs ↔
    ran env s revs = revs.filter fun i => !hasSnapshot env s i := by
  unfold Incremental
  rw [startme_log, List.append_right_inj]
  exact ⟨cmds_inj, fun h => by rw [h]⟩

/-- The clone has to have a directory for each snapshot beside it, when its commit comes. -/
theorem incremental_iff (hnodup : revs.Nodup) : Incremental env s revs ↔
    ∀ before i after, revs = before ++ i :: after →
      (env.tree (startme env true s before).head [snapName i] = true ↔ [snapName i] ∈ s.dirs) := by
  rw [incremental_iff_ran, ran_eq_iff hnodup]
  refine forall_congr' fun before => forall₂_congr fun i after => imp_congr_right fun _ => ?_
  rw [hasSnapshot_eq, Bool.eq_iff_iff, decide_eq_true_iff]

theorem incremental_iff_two : Incremental ⟨fun _ _ => false, fun _ => true, fun _ => true⟩
    ⟨none, ∅, {[dir]}, []⟩ ["c1", "c2"] ↔ ∀ before i after, ["c1", "c2"] = before ++ i :: after →
      (false = true ↔ [snapName i] ∈ ({[dir]} : Finset (List Name))) :=
  incremental_iff (by decide)

/-! ## a clone without such directories -/

theorem ran_fresh (h : ∀ head i, env.tree head [snapName i] = false) : ran env s revs = revs := by
  induction revs generalizing s with
  | nil => rfl
  | cons i revs ih =>
    rw [ran_cons, h s.head i, ih]
    rfl

/-- Every run is for all commits. -/
theorem incremental_fresh (h : ∀ head i, env.tree head [snapName i] = false) :
    Incremental env s revs ↔ ∀ i ∈ revs, [snapName i] ∉ s.dirs := by
  rw [incremental_iff_ran, ran_fresh h, eq_comm, List.filter_eq_self]
  refine forall₂_congr fun i _ => ?_
  rw [hasSnapshot_eq, Bool.not_eq_true', decide_eq_false_iff_not]

/-- A second run over the same commit comes to the snapshot of the first one. -/
theorem not_incremental : ¬ ∀ (env : Env) (s : State) (revs : List Commit), revs.Nodup →
    Incremental env s revs := by
  intro h
  let env : Env := ⟨fun _ _ => false, fun _ => true, fun _ => true⟩
  let first : State := startme env true ⟨none, ∅, {[dir]}, []⟩ ["c1"]
  have hmem : [snapName "c1"] ∈ first.dirs := by
    show _ ∈ insert (resolve [dir] ["..", snapName "c1"]) _
    rw [resolve_beside]
    exact Finset.mem_insert_self _ _
  have hsecond := h env first ["c1"] (List.nodup_singleton _)
  rw [incremental_fresh fun _ _ => rfl] at hsecond
  exact hsecond "c1" List.mem_cons_self hmem

end

end TestSnapgit
