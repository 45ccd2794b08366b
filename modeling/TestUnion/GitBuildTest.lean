import Mathlib.Data.List.Basic
import Mathlib.Data.List.Nodup
import Mathlib.Tactic.Common

/-!
# git-build-test

* `Id`              the name of a commit, or the start of one;
* `Config`, `Env`   the three switches, and the checkouts and builds that succeed;
* `revision`, `loop`, `gitBuildTest`   the loop over the revisions and the program;
* `upToFailure`, `failure`   the revisions that are built when none is skipped, and what stops this;
* `loop_noskip`, `loop_skip`   the loop builds just these, from the first one that has the start id;
* `resume`          a second run goes on with the revision at which the first one has stopped.
-/

namespace GitBuildTest

/-- hexadecimal digits, so that a start id is a pattern for itself only -/
abbrev Id := {w : List Char // ∀ c ∈ w, c ∈ "0123456789abcdef".toList}

structure Config where
  dryrun : Bool
  fullbuild : Bool
  progressive : Bool

/-- the commands that succeed -/
structure Env where
  checkout : Id → Bool
  make : Id → Bool

inductive Cmd where
  | clean
  | checkout (id : Id)
  | tag (id : Id)
  | make (id : Id)
  | untag
  deriving DecidableEq

inductive Death where
  | cannotCheckout (id : Id)
  | buildFailure (id : Id)
  deriving DecidableEq

/-- `tag` is where `buildtest-last` is, `log` the commands that were run. -/
structure State where
  noskip : Bool
  tag : Option Id
  log : List Cmd

section
variable (cfg : Config) (env : Env) (start : Option Id)

def State.run (s : State) (c : Cmd) : State :=
  if cfg.dryrun = true then s else { s with log := s.log ++ [c] }

def doclean (s : State) : State := s.run cfg .clean

/-- `/^$from/` -/
def matchesFrom (id : Id) : Bool :=
  match start with
  | none => false
  | some from' => from'.1.isPrefixOf id.1

/-- what is done with a revision that is not skipped -/
def build (s : State) (id : Id) : State × Option Death :=
  let s := s.run cfg (.checkout id)
  if cfg.dryrun = false ∧ env.checkout id = false then (s, some (.cannotCheckout id))
  else
    let s := s.run cfg (.tag id)
    let s := if cfg.dryrun = true then s else { s with tag := some id }
    let s := if cfg.fullbuild = true then doclean cfg s else s
    let s := s.run cfg (.make id)
    if cfg.progressive = false ∧ cfg.dryrun = false ∧ env.make id = false then
      (s, some (.buildFailure id))
    else ({ s with noskip := true }, none)

def revision (s : State) (id : Id) : State × Option Death :=
  if s.noskip = true ∨ matchesFrom start id = true then build cfg env s id else (s, none)

/-- `die` ends the loop. -/
def loop : State → List Id → State × Option Death
  | s, [] => (s, none)
  | s, id :: revs =>
    match revision cfg env start s id with
    | (s, some d) => (s, some d)
    | (s, none) => loop s revs

structure Result where
  tag : Option Id
  log : List Cmd
  death : Option Death

/-- a run for the revisions that `git rev-list` gives, with the tag where the run before left it -/
def gitBuildTest (revs : List Id) (tag : Option Id) : Result :=
  match loop cfg env start (doclean cfg ⟨start.isNone, tag, []⟩) revs with
  | (s, some d) => ⟨s.tag, s.log, some d⟩
  | (s, none) => ⟨if cfg.dryrun = true then s.tag else none, (s.run cfg .untag).log, none⟩

end

/-! ## what is built -/

def Cmd.built : Cmd → Option Id
  | .make id => some id
  | _ => none

def built (log : List Cmd) : List Id := log.filterMap Cmd.built

/-- the revisions up to the first one that cannot be checked out or built -/
def upToFailure (env : Env) : List Id → List Id
  | [] => []
  | id :: revs =>
    if env.checkout id = false then []
    else if env.make id = false then [id]
    else id :: upToFailure env revs

def failure (env : Env) : List Id → Option Death
  | [] => none
  | id :: revs =>
    if env.checkout id = false then some (.cannotCheckout id)
    else if env.make id = false then some (.buildFailure id)
    else failure env revs

section
variable {env : Env} {start : Option Id} {fullbuild : Bool} {s : State} {id r : Id}
  {revs before after : List Id} {log : List Cmd}

theorem built_append (a b : List Cmd) : built (a ++ b) = built a ++ built b := List.filterMap_append

/-- Nothing is pretended, and the first failure ends the run. -/
abbrev strict (fullbuild : Bool) : Config := ⟨false, fullbuild, false⟩

def buildCmds (fullbuild : Bool) (id : Id) : List Cmd :=
  [.checkout id, .tag id] ++ (if fullbuild = true then [.clean] else []) ++ [.make id]

theorem built_buildCmds : built (buildCmds fullbuild id) = [id] := by
  cases fullbuild
  · rfl
  · rfl

/-- the step of the loop -/
theorem build_strict : build (strict fullbuild) env s id =
    if env.checkout id = false then
      ({ s with log := s.log ++ [.checkout id] }, some (.cannotCheckout id))
    else if env.make id = false then
      (⟨s.noskip, some id, s.log ++ buildCmds fullbuild id⟩, some (.buildFailure id))
    else (⟨true, some id, s.log ++ buildCmds fullbuild id⟩, none) := by
  unfold build buildCmds doclean State.run
  cases env.checkout id with
  | false => rfl
  | true =>
    cases env.make id with
    | false =>
      cases fullbuild with
      | false => simp
      | true => simp
    | true =>
      cases fullbuild with
      | false => simp
      | true => simp

theorem loop_cons (cfg : Config) : loop cfg env start s (id :: revs) =
    match revision cfg env start s id with
    | (s, some d) => (s, some d)
    | (s, none) => loop cfg env start s revs := rfl

theorem upToFailure_cons : upToFailure env (id :: revs) =
    if env.checkout id = false then []
    else if env.make id = false then [id] else id :: upToFailure env revs := rfl

theorem failure_cons : failure env (id :: revs) =
    if env.checkout id = false then some (.cannotCheckout id)
    else if env.make id = false then some (.buildFailure id) else failure env revs := rfl

/-- what the loop has done when it has skipped nothing -/
structure Builds (env : Env) (s : State) (revs : List Id) (out : State × Option Death) : Prop where
  log : built out.1.log = built s.log ++ upToFailure env revs
  death : out.2 = failure env revs
  tag : ∀ r, failure env revs = some (.buildFailure r) → out.1.tag = some r

theorem Builds.cons (h : s.noskip = true ∨ matchesFrom start id = true)
    (ih : ∀ s : State, s.noskip = true →
      Builds env s revs (loop (strict fullbuild) env start s revs)) :
    Builds env s (id :: revs) (loop (strict fullbuild) env start s (id :: revs)) := by
  have hrev : revision (strict fullbuild) env start s id = build (strict fullbuild) env s id :=
    if_pos h
  rw [loop_cons, hrev, build_strict]
  by_cases hout : env.checkout id = false
  · rw [if_pos hout]
    refine ⟨?_, ?_, ?_⟩
    · rw [upToFailure_cons, if_pos hout, List.append_nil]
      exact (built_append _ _).trans (List.append_nil _)
    · rw [failure_cons, if_pos hout]
    · intro r hr
      rw [failure_cons, if_pos hout] at hr
      cases hr
  · rw [if_neg hout]
    by_cases hmake : env.make id = false
    · rw [if_pos hmake]
      refine ⟨?_, ?_, ?_⟩
      · rw [upToFailure_cons, if_neg hout, if_pos hmake]
        exact (built_append _ _).trans (congrArg _ built_buildCmds)
      · rw [failure_cons, if_neg hout, if_pos hmake]
      · intro r hr
        rw [failure_cons, if_neg hout, if_pos hmake] at hr
        cases hr
        rfl
    · rw [if_neg hmake]
      obtain ⟨hlog, hdeath, htag⟩ := ih ⟨true, some id, s.log ++ buildCmds fullbuild id⟩ rfl
      refine ⟨?_, ?_, ?_⟩
      · rw [upToFailure_cons, if_neg hout, if_neg hmake]
        refine hlog.trans ?_
        rw [built_append, built_buildCmds, List.append_assoc, List.singleton_append]
      · rw [failure_cons, if_neg hout, if_neg hmake]
        exact hdeath
      · rw [failure_cons, if_neg hout, if_neg hmake]
        exact htag

theorem loop_noskip (h : s.noskip = true) :
    Builds env s revs (loop (strict fullbuild) env start s revs) := by
  induction revs generalizing s with
  | nil => exact ⟨(List.append_nil _).symm, rfl, fun r hr => by cases hr⟩
  | cons id revs ih => exact .cons (.inl h) fun _ => ih

theorem loop_skip (hno : s.noskip = false) (hbefore : ∀ id ∈ before, matchesFrom start id = false)
    (cfg : Config) : loop cfg env start s (before ++ revs) = loop cfg env start s revs := by
  induction before with
  | nil => rfl
  | cons id before ih =>
    have hskip : revision cfg env start s id = (s, none) := by
      unfold revision
      rw [hno, hbefore id List.mem_cons_self]
      rfl
    rw [List.cons_append, loop_cons, hskip]
    exact ih fun i hi => hbefore i (List.mem_cons_of_mem _ hi)

/-- A failed build ends the list of what is built. -/
theorem failure_build (h : failure env revs = some (.buildFailure r)) :
    ∃ before after, revs = before ++ r :: after ∧ upToFailure env revs = before ++ [r] := by
  induction revs with
  | nil => cases h
  | cons id revs ih =>
    rw [failure_cons] at h
    rw [upToFailure_cons]
    split at h
    · cases h
    · next hout =>
      split at h
      · next hmake =>
        cases h
        exact ⟨[], revs, rfl, by rw [if_neg hout, if_pos hmake]; rfl⟩
      · next hmake =>
        obtain ⟨before, after, hrevs, hbuilt⟩ := ih h
        refine ⟨id :: before, after, by rw [hrevs]; rfl, ?_⟩
        rw [if_neg hout, if_neg hmake, hbuilt]
        rfl

theorem upToFailure_none (h : failure env revs = none) : upToFailure env revs = revs := by
  induction revs with
  | nil => rfl
  | cons id revs ih =>
    rw [failure_cons] at h
    rw [upToFailure_cons]
    split at h
    · cases h
    · next hout =>
      split at h
      · cases h
      · next hmake => rw [if_neg hout, if_neg hmake, ih h]

/-! ## the runs -/

/-- a run that has built the revisions `revs` up to the first failure -/
structure Built (env : Env) (revs : List Id) (run : Result) : Prop where
  log : built run.log = upToFailure env revs
  death : run.death = failure env revs
  tag_failed : ∀ r, failure env revs = some (.buildFailure r) → run.tag = some r
  tag_done : failure env revs = none → run.tag = none

theorem built_of_builds {rest : List Id} {tag : Option Id}
    (h : Builds env (doclean (strict fullbuild) ⟨start.isNone, tag, []⟩) rest
      (loop (strict fullbuild) env start (doclean (strict fullbuild) ⟨start.isNone, tag, []⟩) revs)) :
    Built env rest (gitBuildTest (strict fullbuild) env start revs tag) := by
  obtain ⟨hlog, hdeath, htag⟩ := h
  unfold gitBuildTest
  cases hout : loop (strict fullbuild) env start
      (doclean (strict fullbuild) ⟨start.isNone, tag, []⟩) revs with
  | mk s death =>
    rw [hout] at hlog hdeath htag
    cases death with
    | some d => exact ⟨hlog, hdeath, htag, fun hnone => by rw [hnone] at hdeath; cases hdeath⟩
    | none =>
      refine ⟨?_, hdeath, fun r hr => ?_, fun _ => rfl⟩
      · exact (built_append s.log [.untag]).trans ((List.append_nil _).trans hlog)
      · rw [hr] at hdeath
        cases hdeath

theorem run_first (tag : Option Id) :
    Built env revs (gitBuildTest (strict fullbuild) env none revs tag) :=
  built_of_builds (loop_noskip rfl)

theorem run_from {from' : Id} (tag : Option Id) (hr : from'.1 <+: r.1)
    (hbefore : ∀ id ∈ before, ¬ from'.1 <+: id.1) : Built env (r :: after)
      (gitBuildTest (strict fullbuild) env (some from') (before ++ r :: after) tag) := by
  apply built_of_builds
  rw [loop_skip rfl]
  · exact .cons (.inr (List.isPrefixOf_iff_prefix.mpr hr)) fun _ => loop_noskip
  · intro id hid
    exact Bool.eq_false_iff.mpr fun h => hbefore id hid (List.isPrefixOf_iff_prefix.mp h)

theorem count_twice (hnodup : (before ++ r :: after).Nodup) (id : Id) :
    (before ++ [r] ++ (r :: after)).count id =
      if id = r then 2 else if id ∈ before ++ r :: after then 1 else 0 := by
  have hcount : (before ++ [r] ++ (r :: after)).count id =
      (before ++ r :: after).count id + [r].count id := by
    rw [List.count_append, List.count_append, List.count_append]
    omega
  rw [hcount]
  by_cases hid : id = r
  · rw [if_pos hid, hid, List.count_eq_one_of_mem hnodup (by simp), List.count_singleton_self]
  · have hother : [r].count id = 0 :=
      List.count_eq_zero.mpr fun h => hid (List.mem_singleton.mp h)
    rw [if_neg hid, hother, Nat.add_zero]
    exact hnodup.count

/-- what the second run makes of the first one, which has stopped at `r` -/
structure Resumes (env : Env) (before : List Id) (r : Id) (after : List Id)
    (first second : Result) : Prop where
  log : built second.log = upToFailure env (r :: after)
  death : second.death = failure env (r :: after)
  twice : second.death = none → ∀ id, (built first.log ++ built second.log).count id =
    if id = r then 2 else if id ∈ before ++ r :: after then 1 else 0
  untagged : second.death = none → second.tag = none

/-- The second run begins with the revision that has failed. -/
theorem resume {tag : Option Id} (hnodup : (before ++ r :: after).Nodup)
    (hstop : (gitBuildTest (strict fullbuild) env none (before ++ r :: after) tag).death =
      some (.buildFailure r)) :
    (gitBuildTest (strict fullbuild) env none (before ++ r :: after) tag).tag = some r ∧
      ∀ (env' : Env) (from' : Id), from'.1 <+: r.1 → (∀ id ∈ before, ¬ from'.1 <+: id.1) →
        Resumes env' before r after
          (gitBuildTest (strict fullbuild) env none (before ++ r :: after) tag)
          (gitBuildTest (strict fullbuild) env' (some from') (before ++ r :: after)
            (gitBuildTest (strict fullbuild) env none (before ++ r :: after) tag).tag) := by
  have hfirst : Built env (before ++ r :: after)
      (gitBuildTest (strict fullbuild) env none (before ++ r :: after) tag) := run_first tag
  rw [hfirst.death] at hstop
  obtain ⟨before', after', hrevs, hbuilt⟩ := failure_build hstop
  have hr : r ∉ before ∧ r ∉ after := by
    simpa using (List.nodup_middle.mp hnodup).notMem
  obtain ⟨rfl, -, rfl⟩ := (List.append_cons_inj_of_notMem hr.1 hr.2).mp hrevs
  refine ⟨hfirst.tag_failed r hstop, fun env' from' hprefix hbefore => ?_⟩
  have hsecond : Built env' (r :: after)
      (gitBuildTest (strict fullbuild) env' (some from') (before ++ r :: after)
        (gitBuildTest (strict fullbuild) env none (before ++ r :: after) tag).tag) :=
    run_from _ hprefix hbefore
  refine ⟨hsecond.log, hsecond.death, fun hdone id => ?_, fun hdone => ?_⟩
  · rw [hsecond.death] at hdone
    rw [hfirst.log, hbuilt, hsecond.log, upToFailure_none hdone, count_twice hnodup]
  · rw [hsecond.death] at hdone
    exact hsecond.tag_done hdone

def revA : Id := ⟨['a', '1'], by simp⟩
def revB : Id := ⟨['b', '2'], by simp⟩
def revC : Id := ⟨['c', '3'], by simp⟩

theorem resume_three : built (gitBuildTest (strict false) ⟨fun _ => true, fun _ => true⟩
    (some ⟨['b'], by simp⟩) ([revA] ++ revB :: [revC])
    (gitBuildTest (strict false) ⟨fun _ => true, fun id => decide (id ≠ revB)⟩ none
      ([revA] ++ revB :: [revC]) none).tag).log = [revB, revC] :=
  ((resume (by decide) (by decide)).2 ⟨fun _ => true, fun _ => true⟩ ⟨['b'], by simp⟩ (by decide)
    (by decide)).log

end

end GitBuildTest
