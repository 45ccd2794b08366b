import TestUnion.LowestFree
import TestUnion.Synctest.Files

/-!
# synctest: the descriptors of a child

* `Sys`             the calls of a child, with those that open and close descriptors;
* `doOneFile`, `unlinkOneFile`, `doChild`   the calls of the functions of these names, and
                    `filterMap_call_doChild`, those of them that change a name;
* `Fds`, `Sys.apply`   the open descriptors, `dir_fd` and the `fd` of `do_one_file`;
* `Child`, `IterStep`   the iterations of a child, under a limit of descriptors;
* `Steady`          the calls of `do_child` all start with as many open descriptors, and no `open` of
                    them fails if none of the first one does;
* `steady_iff`      this is so when there is one iteration at most: `dir_fd` is never closed.
-/

namespace Synctest.Descriptors

open LowestFree

structure Opts where
  useFsync : Bool
  fsyncDir : Bool
  doUnlink : Bool

inductive Sys where
  | openDir
  | create (name : Name)
  | write
  | fsync
  | close
  | fsyncDirFd
  | rename (name newname : Name)
  | unlink (name : Name)
  deriving DecidableEq

/-- the call as a change of names -/
def Sys.call : Sys → Option Call
  | .openDir => some .openDir
  | .create name => some (.create name)
  | .rename name newname => some (.rename name newname)
  | .unlink name => some (.unlink name)
  | .write => none
  | .fsync => none
  | .close => none
  | .fsyncDirFd => none

/-! ## the calls of a child -/

section
variable (opts : Opts) (pid : ℕ)

def syncDir : List Sys := if opts.fsyncDir = true then [.fsyncDirFd] else []

def renameLoop (fileno : ℕ) : Name → List ℕ → List Sys
  | _, [] => []
  | name, pass :: passes =>
    .rename name (mkNewFilename pid fileno pass) ::
      (syncDir opts ++ renameLoop fileno (mkNewFilename pid fileno pass) passes)

def doOneFile (fileno : ℕ) : List Sys :=
  [.create (mkFilename pid fileno), .write] ++
    ((if opts.useFsync = true then [.fsync] else []) ++
      ([.close] ++ (syncDir opts ++
        renameLoop opts pid fileno (mkFilename pid fileno) (List.range renamePasses))))

def unlinkOneFile (fileno pass : ℕ) : List Sys :=
  if opts.doUnlink = true then .unlink (mkNewFilename pid fileno pass) :: syncDir opts else []

/-- one round of the first loop of `do_child` -/
def fileRound (fileno : ℕ) : List Sys :=
  doOneFile opts pid fileno ++
    if unlinkLag ≤ fileno then unlinkOneFile opts pid (fileno - unlinkLag) (renamePasses - 1) else []

def doChild : List Sys :=
  .openDir :: ((List.range nFiles).flatMap (fileRound opts pid) ++
    (List.range' (nFiles - unlinkLag) unlinkLag).flatMap fun fileno =>
      unlinkOneFile opts pid fileno (renamePasses - 1))

end

/-! ## the descriptors -/

/-- `dirFd` and `fd` are the variables of these names. -/
structure Fds where
  fds : Finset ℕ
  dirFd : ℕ
  fd : ℕ

def Sys.opens : Sys → Bool
  | .openDir => true
  | .create _ => true
  | _ => false

/-- what a call that succeeds does; it opens the lowest descriptor that is free -/
def Sys.apply (s : Fds) : Sys → Fds
  | .openDir => { s with fds := insert (lowest s.fds) s.fds, dirFd := lowest s.fds }
  | .create _ => { s with fds := insert (lowest s.fds) s.fds, fd := lowest s.fds }
  | .close => { s with fds := s.fds.erase s.fd }
  | _ => s

/-- the call does not end with `EMFILE` -/
def Sys.admitted (limit : ℕ) (s : Fds) (c : Sys) : Prop := c.opens = true → lowest s.fds < limit

/-! ## the iterations -/

inductive Pc where
  | test
  | inChild (todo : List Sys)
  | exited
  deriving DecidableEq

structure Child where
  iter : ℤ
  pc : Pc
  st : Fds

inductive Act where
  | begin
  | finish
  | call
  | fail
  | back
  deriving DecidableEq

section
variable (opts : Opts) (pid limit : ℕ) (nIters : ℤ)

/-- Any call may fail, for a reason of its own or at the limit; then the child exits. -/
inductive IterStep : Child → Act → Child → Prop
  | begin {iter s} (more : iter < nIters) :
    IterStep ⟨iter, .test, s⟩ .begin ⟨iter, .inChild (doChild opts pid), s⟩
  | finish {iter s} (done : ¬ iter < nIters) : IterStep ⟨iter, .test, s⟩ .finish ⟨iter, .exited, s⟩
  | call {iter c cs s} (room : c.admitted limit s) :
    IterStep ⟨iter, .inChild (c :: cs), s⟩ .call ⟨iter, .inChild cs, c.apply s⟩
  | fail {iter c cs s} : IterStep ⟨iter, .inChild (c :: cs), s⟩ .fail ⟨iter, .exited, s⟩
  | back {iter s} : IterStep ⟨iter, .inChild [], s⟩ .back ⟨iter + 1, .test, s⟩

def Reached (start : Fds) (child : Child) : Prop :=
  Lts.Reach (IterStep opts pid limit nIters) ⟨0, .test, start⟩ child

/-- No `open` of the iteration is at the limit. -/
def AdmitsIter (start : Fds) (k : ℤ) : Prop :=
  ∀ child, Reached opts pid limit nIters start child → child.iter = k →
    ∀ c cs, child.pc = .inChild (c :: cs) → c.admitted limit child.st

end

/-- for the descriptors `start` that the child inherits -/
structure Steady (opts : Opts) (pid : ℕ) (start : Fds) (nIters : ℤ) : Prop where
  same : ∀ limit child child', Reached opts pid limit nIters start child →
    Reached opts pid limit nIters start child' →
    child.pc = .test → child.iter < nIters → child'.pc = .test → child'.iter < nIters →
      child.st.fds.card = child'.st.fds.card
  admits : ∀ limit, AdmitsIter opts pid limit nIters start 0 →
    ∀ k, AdmitsIter opts pid limit nIters start k

section
variable {opts : Opts} {pid limit fileno : ℕ} {nIters : ℤ} {start s : Fds} {child : Child}

/-! ## the calls that change a name -/

theorem filterMap_syncDir : (syncDir opts).filterMap Sys.call = [] := by
  unfold syncDir
  split <;> rfl

theorem filterMap_renameLoop (name : Name) (passes : List ℕ) :
    (renameLoop opts pid fileno name passes).filterMap Sys.call =
      Synctest.renameLoop pid fileno name passes := by
  induction passes generalizing name with
  | nil => rfl
  | cons pass passes ih =>
    rw [renameLoop, List.filterMap_cons_some (f := Sys.call) rfl, List.filterMap_append,
      filterMap_syncDir, ih]
    rfl

theorem filterMap_doOneFile :
    (doOneFile opts pid fileno).filterMap Sys.call = Synctest.doOneFile pid fileno := by
  unfold doOneFile
  have hfsync : (if opts.useFsync = true then [Sys.fsync] else []).filterMap Sys.call = [] := by
    split <;> rfl
  rw [List.filterMap_append, List.filterMap_append, List.filterMap_append, List.filterMap_append,
    hfsync, filterMap_syncDir, filterMap_renameLoop]
  rfl

theorem filterMap_unlinkOneFile (pass : ℕ) :
    (unlinkOneFile opts pid fileno pass).filterMap Sys.call =
      Synctest.unlinkOneFile opts.doUnlink pid fileno pass := by
  unfold unlinkOneFile Synctest.unlinkOneFile
  split
  · rw [List.filterMap_cons_some (f := Sys.call) rfl, filterMap_syncDir]
  · rfl

theorem filterMap_fileRound :
    (fileRound opts pid fileno).filterMap Sys.call =
      Synctest.fileRound opts.doUnlink pid fileno := by
  unfold fileRound Synctest.fileRound
  rw [List.filterMap_append, filterMap_doOneFile]
  split
  · rw [filterMap_unlinkOneFile]
  · rfl

/-- The calls that `Files` has are those of a child that change a name. -/
theorem filterMap_call_doChild :
    (doChild opts pid).filterMap Sys.call = Synctest.doChild opts.doUnlink pid := by
  unfold doChild Synctest.doChild
  rw [List.filterMap_cons_some (f := Sys.call) rfl, List.filterMap_append, List.filterMap_flatMap,
    List.filterMap_flatMap]
  simp only [filterMap_fileRound, filterMap_unlinkOneFile]

/-! ## what they do to the descriptors -/

theorem foldl_syncDir : (syncDir opts).foldl Sys.apply s = s := by
  unfold syncDir
  split <;> rfl

theorem foldl_renameLoop (name : Name) (passes : List ℕ) :
    (renameLoop opts pid fileno name passes).foldl Sys.apply s = s := by
  induction passes generalizing name with
  | nil => rfl
  | cons pass passes ih =>
    rw [renameLoop, List.foldl_cons, List.foldl_append, foldl_syncDir]
    exact ih _

/-- The file is closed again. -/
theorem foldl_doOneFile : ((doOneFile opts pid fileno).foldl Sys.apply s).fds = s.fds := by
  have hfsync (s : Fds) :
      (if opts.useFsync = true then [Sys.fsync] else []).foldl Sys.apply s = s := by
    split <;> rfl
  unfold doOneFile
  rw [List.foldl_append, List.foldl_append, hfsync, List.foldl_append, List.foldl_append,
    foldl_syncDir, foldl_renameLoop]
  exact erase_insert_lowest s.fds

theorem foldl_unlinkOneFile (pass : ℕ) :
    (unlinkOneFile opts pid fileno pass).foldl Sys.apply s = s := by
  unfold unlinkOneFile
  split
  · rw [List.foldl_cons, foldl_syncDir]
    rfl
  · rfl

theorem foldl_fileRound : ((fileRound opts pid fileno).foldl Sys.apply s).fds = s.fds := by
  unfold fileRound
  rw [List.foldl_append]
  split
  · rw [foldl_unlinkOneFile]
    exact foldl_doOneFile
  · exact foldl_doOneFile

theorem foldl_flatMap_fds {g : ℕ → List Sys} (hg : ∀ k s, ((g k).foldl Sys.apply s).fds = s.fds)
    (ks : List ℕ) : ((ks.flatMap g).foldl Sys.apply s).fds = s.fds := by
  induction ks generalizing s with
  | nil => rfl
  | cons k ks ih =>
    rw [List.flatMap_cons, List.foldl_append, ih]
    exact hg k s

/-- A `do_child` leaves the descriptor of the directory open. -/
theorem foldl_doChild :
    ((doChild opts pid).foldl Sys.apply s).fds = insert (lowest s.fds) s.fds := by
  have hunlink (k : ℕ) (s : Fds) :
      ((unlinkOneFile opts pid k (renamePasses - 1)).foldl Sys.apply s).fds = s.fds := by
    rw [foldl_unlinkOneFile]
  unfold doChild
  rw [List.foldl_cons, List.foldl_append, foldl_flatMap_fds hunlink,
    foldl_flatMap_fds fun k s => foldl_fileRound]
  rfl

/-! ## one descriptor more with every iteration -/

/-- `first` is where the running iteration began. -/
structure InChildInv (opts : Opts) (pid : ℕ) (nIters : ℤ) (start : Fds) (iter : ℤ) (todo : List Sys)
    (s : Fds) : Prop where
  more : iter < nIters
  calls : ∃ first before, first.fds.card = start.fds.card + iter.toNat ∧
    doChild opts pid = before ++ todo ∧ s = before.foldl Sys.apply first

def IterInv (opts : Opts) (pid : ℕ) (nIters : ℤ) (start : Fds) (child : Child) : Prop :=
  0 ≤ child.iter ∧
    (child.pc = .test → child.st.fds.card = start.fds.card + child.iter.toNat) ∧
    ∀ todo, child.pc = .inChild todo → InChildInv opts pid nIters start child.iter todo child.st

theorem iterInv_step {a : Act} {child' : Child} (h : IterInv opts pid nIters start child)
    (hstep : IterStep opts pid limit nIters child a child') :
    IterInv opts pid nIters start child' := by
  obtain ⟨hnonneg, htest, hin⟩ := h
  cases hstep with
  | @begin iter s more =>
    refine ⟨hnonneg, nofun, fun todo h => ?_⟩
    cases h
    exact ⟨more, s, [], htest rfl, rfl, rfl⟩
  | finish done => exact ⟨hnonneg, nofun, nofun⟩
  | @call iter c cs s room =>
    obtain ⟨more, first, before, hcard, hcalls, hst⟩ := hin _ rfl
    refine ⟨hnonneg, nofun, fun todo h => ?_⟩
    cases h
    refine ⟨more, first, before ++ [c], hcard, ?_, ?_⟩
    · rw [hcalls, List.append_assoc]
      rfl
    · rw [List.foldl_append, ← show s = _ from hst]
      rfl
  | fail => exact ⟨hnonneg, nofun, nofun⟩
  | @back iter s =>
    obtain ⟨-, first, before, hcard, hcalls, hst⟩ := hin _ rfl
    rw [List.append_nil] at hcalls
    have hnonneg : 0 ≤ iter := hnonneg
    have hcard : first.fds.card = start.fds.card + iter.toNat := hcard
    refine ⟨by show 0 ≤ iter + 1; omega, fun _ => ?_, nofun⟩
    show s.fds.card = start.fds.card + (iter + 1).toNat
    rw [show s = _ from hst, ← hcalls, foldl_doChild, card_insert_lowest, hcard]
    omega

theorem Reached.inv (h : Reached opts pid limit nIters start child) :
    IterInv opts pid nIters start child :=
  Lts.Reach.inv (I := IterInv opts pid nIters start) (fun _ _ _ hi hstep => iterInv_step hi hstep) h
    ⟨le_refl 0, fun _ => rfl, nofun⟩

/-! ## a whole iteration -/

theorem card_apply_le (c : Sys) : (c.apply s).fds.card ≤ s.fds.card + 1 := by
  cases c with
  | openDir => exact (card_insert_lowest s.fds).le
  | create name => exact (card_insert_lowest s.fds).le
  | close => exact (Finset.card_erase_le).trans (Nat.le_succ _)
  | write => exact Nat.le_succ _
  | fsync => exact Nat.le_succ _
  | fsyncDirFd => exact Nat.le_succ _
  | rename name newname => exact Nat.le_succ _
  | unlink name => exact Nat.le_succ _

/-- With room for a descriptor more for every call none of them fails. -/
theorem reach_calls {iter : ℤ} (cs : List Sys) (hroom : s.fds.card + cs.length ≤ limit) :
    Lts.Reach (IterStep opts pid limit nIters) ⟨iter, .inChild cs, s⟩
      ⟨iter, .inChild [], cs.foldl Sys.apply s⟩ := by
  induction cs generalizing s with
  | nil => exact .refl _
  | cons c cs ih =>
    rw [List.length_cons] at hroom
    have hadmitted : c.admitted limit s := by
      intro _
      have hlow := lowest_le_card s.fds
      omega
    have hcard := card_apply_le (s := s) c
    have hrest := ih (s := c.apply s) (by omega)
    obtain ⟨tr, hrun⟩ := hrest
    exact ⟨_, (Lts.Run.single (.call hadmitted)).trans hrun⟩

/-- The second iteration can begin. -/
theorem reached_second (hmore : 1 ≤ nIters)
    (hroom : start.fds.card + (doChild opts pid).length ≤ limit) :
    Reached opts pid limit nIters start ⟨1, .test, (doChild opts pid).foldl Sys.apply start⟩ := by
  have hbegin : Reached opts pid limit nIters start ⟨0, .inChild (doChild opts pid), start⟩ :=
    (Lts.Reach.refl _).tail (.begin (by omega))
  obtain ⟨tr, hrun⟩ := hbegin
  obtain ⟨tr', hrun'⟩ : Lts.Reach (IterStep opts pid limit nIters)
      ⟨0, .inChild (doChild opts pid), start⟩ _ := reach_calls (doChild opts pid) hroom
  exact Lts.Reach.tail ⟨_, hrun.trans hrun'⟩ .back

theorem Steady.le_one (h : Steady opts pid start nIters) : nIters ≤ 1 := by
  by_contra hmore
  have hfirst : 0 < nIters := by omega
  have hnext : 1 < nIters := by omega
  have hsecond : Reached opts pid _ nIters start _ := reached_second hfirst le_rfl
  have hsame : start.fds.card = ((doChild opts pid).foldl Sys.apply start).fds.card :=
    h.same _ _ _ (.refl _) hsecond rfl hfirst rfl hnext
  rw [foldl_doChild, card_insert_lowest] at hsame
  omega

theorem Steady.of_le_one (h : nIters ≤ 1) : Steady opts pid start nIters := by
  refine ⟨?_, ?_⟩
  · intro limit child child' hreach hreach' hpc hiter hpc' hiter'
    obtain ⟨hnonneg, hcard, -⟩ := hreach.inv
    obtain ⟨hnonneg', hcard', -⟩ := hreach'.inv
    have hzero : child.iter = child'.iter := by omega
    rw [hcard hpc, hcard' hpc', hzero]
  · intro limit hadmits k child hreach hiter c cs hpc
    obtain ⟨hnonneg, -, hin⟩ := hreach.inv
    have hmore := (hin _ hpc).more
    exact hadmits child hreach (by omega) c cs hpc

end

/-- Only with a single iteration, or none, are there always as many descriptors. -/
theorem steady_iff (opts : Opts) (pid : ℕ) (start : Fds) (nIters : ℤ) :
    Steady opts pid start nIters ↔ nIters ≤ 1 :=
  ⟨fun h => h.le_one, fun h => .of_le_one h⟩

/-- `-n 2` with the descriptors that a shell gives -/
theorem not_steady : ¬ Steady ⟨false, false, false⟩ 4711 ⟨{0, 1, 2}, 0, 0⟩ 2 := by
  intro h
  exact absurd h.le_one (by decide)

end Synctest.Descriptors
