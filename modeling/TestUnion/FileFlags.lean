import TestUnion.LowestFree
import Mathlib.Algebra.Order.Group.Nat
import Mathlib.Data.Finset.Range

/-!
# fileflags

* `FlagsName`       the rows of `flags`; the values of the flags are those of the system;
* `Opts`, `options` `to_set`, `to_unset` and `modify` from the command line;
* `Env`, `State`    what the calls answer, and the open descriptors with what has been printed;
* `iteration`, `loop`, `main`   the loop over the files and the program;
* `iteration_fds`   a file that can be opened leaves a descriptor open;
* `processed_range` the first files are processed, as many as there is room for;
* `Handles`         no descriptor is left over at the next file, and all good files are processed;
* `handles_iff`     this is so when no file but the last can be opened.
-/

namespace FileFlags

open LowestFree

abbrev Path := List Char

structure FlagsName where
  flag : UInt64
  shortName : Char
  longName : String

inductive Line where
  | usage
  | warning (c : Char)
  | set (c : Char)
  | unset (c : Char)
  | openError
  | getFlagsError
  | setFlagsError
  | file (path : Path) (names : List (Char × String))
  deriving DecidableEq

/-! ## the options -/

structure Opts where
  toSet : UInt64
  toUnset : UInt64
  modify : Bool

section
variable (flags : List FlagsName)

def c2val (c : Char) : UInt64 × List Line :=
  match flags.find? fun f => f.shortName = c with
  | some f => (f.flag, [])
  | none => (0, [.warning c])

def setFlag (opts : Opts) (chars : List Char) : Opts × List Line :=
  chars.foldl (fun (opts, out) c =>
    ({ opts with toSet := opts.toSet ||| (c2val flags c).1 },
      out ++ (c2val flags c).2 ++ [.set c])) ({ opts with modify := true }, [])

def unsetFlag (opts : Opts) (chars : List Char) : Opts × List Line :=
  chars.foldl (fun (opts, out) c =>
    ({ opts with toUnset := opts.toUnset ||| (c2val flags c).1 },
      out ++ (c2val flags c).2 ++ [.unset c])) ({ opts with modify := true }, [])

/-- The options end at `--` or at the first word that is none. -/
def options (opts : Opts) (out : List Line) : List (List Char) → Opts × List Line × List Path
  | [] => (opts, out, [])
  | ('-' :: '-' :: _) :: files => (opts, out, files)
  | ('-' :: chars) :: args =>
    options (unsetFlag flags opts chars).1 (out ++ (unsetFlag flags opts chars).2) args
  | ('+' :: chars) :: args =>
    options (setFlag flags opts chars).1 (out ++ (setFlag flags opts chars).2) args
  | file :: files => (opts, out, file :: files)

/-! ## the loop -/

/-- what the calls answer for a file -/
structure Env where
  canOpen : Path → Bool
  canGet : Path → Bool
  canSet : Path → Bool

structure State where
  fds : Finset ℕ
  attrs : Path → UInt64
  out : List Line

def listFlags (fflags : UInt64) : List (Char × String) :=
  (flags.filter fun f => fflags &&& f.flag ≠ 0).map fun f => (f.shortName, f.longName)

/-- `fd` is a new variable in each pass, and the `close` at its top never runs. -/
def iteration (opts : Opts) (env : Env) (limit : ℕ) (s : State) (path : Path) : State :=
  let fd : Option ℕ := none
  let s := match fd with
    | some fd => { s with fds := s.fds.erase fd }
    | none => s
  if env.canOpen path = true ∧ lowest s.fds < limit then
    let s := { s with fds := insert (lowest s.fds) s.fds }
    if env.canGet path = true then
      let fflags := s.attrs path
      if opts.modify = true then
        let fflags := (fflags ||| opts.toSet) &&& ~~~opts.toUnset
        if env.canSet path = true then
          { s with
            attrs := Function.update s.attrs path fflags
            out := s.out ++ [.file path (listFlags flags fflags)] }
        else { s with out := s.out ++ [.setFlagsError] }
      else { s with out := s.out ++ [.file path (listFlags flags fflags)] }
    else { s with out := s.out ++ [.getFlagsError] }
  else { s with out := s.out ++ [.openError] }

def loop (opts : Opts) (env : Env) (limit : ℕ) (s : State) (files : List Path) : State :=
  files.foldl (iteration flags opts env limit) s

/-- the program with the words behind its name -/
def main (env : Env) (limit : ℕ) (s : State) (args : List (List Char)) : State :=
  if args = [] then { s with out := s.out ++ [.usage] }
  else
    let (opts, out, files) := options flags ⟨0, 0, false⟩ [] args
    loop flags opts env limit { s with out := s.out ++ out } files

end

/-! ## what is asked -/

/-- The file can be opened and has its flags read and set. -/
def Env.Good (env : Env) (path : Path) : Prop :=
  env.canOpen path = true ∧ env.canGet path = true ∧ env.canSet path = true

def Line.path : Line → Option Path
  | .file path _ => some path
  | _ => none

def processed (out : List Line) : List Path := out.filterMap Line.path

/-- for every limit that lets a first file be opened -/
structure Handles (flags : List FlagsName) (opts : Opts) (env : Env) (s : State)
    (files : List Path) : Prop where
  same : ∀ limit, lowest s.fds < limit → ∀ before f after, files = before ++ f :: after →
    (loop flags opts env limit s before).fds.card = s.fds.card
  all : (∀ f ∈ files, env.Good f) → ∀ limit, lowest s.fds < limit →
    processed (loop flags opts env limit s files).out = processed s.out ++ files

section
variable {flags : List FlagsName} {opts : Opts} {env : Env} {limit n : ℕ} {s : State} {path : Path}
  {files : List Path}

theorem iteration_fds : (iteration flags opts env limit s path).fds =
    if env.canOpen path = true ∧ lowest s.fds < limit then insert (lowest s.fds) s.fds
    else s.fds := by
  unfold iteration
  dsimp only
  split
  · split
    · split
      · split
        · rfl
        · rfl
      · rfl
    · rfl
  · rfl

theorem iteration_processed (h : env.Good path) :
    processed (iteration flags opts env limit s path).out =
      processed s.out ++ if lowest s.fds < limit then [path] else [] := by
  obtain ⟨hopen, hget, hset⟩ := h
  unfold iteration processed
  dsimp only
  rw [hopen, hget, hset]
  by_cases hroom : lowest s.fds < limit
  · rw [if_pos ⟨rfl, hroom⟩, if_pos rfl, if_pos rfl, if_pos hroom]
    split
    · exact List.filterMap_append
    · exact List.filterMap_append
  · rw [if_neg fun h => hroom h.2, if_neg hroom]
    exact List.filterMap_append

theorem lowest_range (n : ℕ) : lowest (Finset.range n) = n := by
  have hle := lowest_le_card (Finset.range n)
  rw [Finset.card_range] at hle
  have hnot := lowest_notMem (Finset.range n)
  rw [Finset.mem_range] at hnot
  omega

/-- Every file takes one of the descriptors that are left. -/
theorem processed_range (hfds : s.fds = Finset.range n) (hgood : ∀ f ∈ files, env.Good f) :
    processed (loop flags opts env limit s files).out
      = processed s.out ++ files.take (limit - n) := by
  induction files generalizing s n with
  | nil =>
    rw [List.take_nil, List.append_nil]
    rfl
  | cons f files ih =>
    have hrest : ∀ f ∈ files, env.Good f := fun g hg => hgood g (List.mem_cons_of_mem _ hg)
    have hstep : processed (iteration flags opts env limit s f).out =
        processed s.out ++ if lowest s.fds < limit then [f] else [] :=
      iteration_processed (hgood f List.mem_cons_self)
    show processed (loop flags opts env limit (iteration flags opts env limit s f) files).out = _
    rw [hfds, lowest_range] at hstep
    by_cases hroom : n < limit
    · have hnext : (iteration flags opts env limit s f).fds = Finset.range (n + 1) := by
        rw [iteration_fds, hfds, lowest_range, if_pos ⟨(hgood f List.mem_cons_self).1, hroom⟩,
          Finset.range_add_one]
      rw [ih hnext hrest, hstep, if_pos hroom, List.append_assoc,
        show limit - n = limit - (n + 1) + 1 by omega, List.take_succ_cons]
      rfl
    · have hnext : (iteration flags opts env limit s f).fds = Finset.range n := by
        rw [iteration_fds, hfds, lowest_range, if_neg fun h => hroom h.2]
      rw [ih hnext hrest, hstep, if_neg hroom, List.append_nil, show limit - n = 0 by omega,
        List.take_zero, List.take_zero]

theorem iteration_closed (h : env.canOpen path = false) :
    iteration flags opts env limit s path = { s with out := s.out ++ [.openError] } := by
  unfold iteration
  dsimp only
  rw [h]
  exact if_neg nofun

theorem loop_fds (h : ∀ f ∈ files, env.canOpen f = false) :
    (loop flags opts env limit s files).fds = s.fds := by
  induction files generalizing s with
  | nil => rfl
  | cons f files ih =>
    show (loop flags opts env limit (iteration flags opts env limit s f) files).fds = _
    rw [ih fun g hg => h g (List.mem_cons_of_mem _ hg), iteration_closed (h f List.mem_cons_self)]

/-- A file that is opened before another one has its descriptor left over there. -/
theorem dropLast_closed (h : ∀ limit, lowest s.fds < limit → ∀ before f after,
    files = before ++ f :: after →
    (loop flags opts env limit s before).fds.card = s.fds.card) :
    ∀ f ∈ files.dropLast, env.canOpen f = false := by
  induction files generalizing s with
  | nil => exact nofun
  | cons f files ih =>
    cases files with
    | nil => exact nofun
    | cons g files =>
      have hclosed : env.canOpen f = false := by
        have hcard := h (lowest s.fds + 1) (Nat.lt_succ_self _) [f] g files rfl
        change (iteration flags opts env _ s f).fds.card = _ at hcard
        rw [iteration_fds] at hcard
        cases hopen : env.canOpen f with
        | false => rfl
        | true =>
          rw [if_pos ⟨hopen, Nat.lt_succ_self _⟩, card_insert_lowest] at hcard
          omega
      rw [List.dropLast_cons_cons, List.forall_mem_cons]
      refine ⟨hclosed, ih (s := { s with out := s.out ++ [.openError] }) ?_⟩
      intro limit hlimit before i after hsplit
      have hcard := h limit hlimit (f :: before) i after (by rw [hsplit]; rfl)
      change (loop flags opts env limit (iteration flags opts env limit s f) before).fds.card = _
        at hcard
      rwa [iteration_closed hclosed] at hcard

/-- Nothing is left over when no file before the last one can be opened. -/
theorem handles_iff :
    Handles flags opts env s files ↔ ∀ f ∈ files.dropLast, env.canOpen f = false := by
  refine ⟨fun h => dropLast_closed h.same, fun h => ⟨?_, ?_⟩⟩
  · intro limit _ before f after hsplit
    rw [loop_fds fun g hg => h g ?_]
    rw [hsplit, List.dropLast_append_of_ne_nil (List.cons_ne_nil f after)]
    exact List.mem_append_left _ hg
  · intro hgood limit hlimit
    cases files with
    | nil => exact (List.append_nil _).symm
    | cons f files =>
      cases files with
      | nil =>
        show processed (iteration flags opts env limit s f).out = _
        rw [iteration_processed (hgood f List.mem_cons_self), if_pos hlimit]
      | cons g files =>
        have hclosed := h f List.mem_cons_self
        rw [(hgood f List.mem_cons_self).1] at hclosed
        cases hclosed

theorem not_handles : ¬ ∀ (flags : List FlagsName) (opts : Opts) (env : Env) (s : State)
    (files : List Path), Handles flags opts env s files := by
  intro h
  have hgood := (h [] ⟨0, 0, false⟩ ⟨fun _ => true, fun _ => true, fun _ => true⟩
    ⟨Finset.range 3, fun _ => 0, []⟩ [['a'], ['b']]).all (fun _ _ => ⟨rfl, rfl, rfl⟩) 4
    (by rw [lowest_range]; decide)
  rw [processed_range rfl fun _ _ => ⟨rfl, rfl, rfl⟩] at hgood
  exact absurd hgood (by decide)

end

end FileFlags
