import TestUnion.Compilebench.Exec
import TestUnion.Compilebench.Raises

/-!
# compilebench: the inner loops of `run_directory`

* `Loop`, `Loop.Ends`   the two inner loops with the state they start in, and that one ends after
                    some number of rounds;
* `Loop.ends_iff`   the ancestor loop ends for a relative name only, the write loop with a buffer
                    or with nothing to write;
* `RunCall`, `RunCall.Comes`   a call of `run_directory` and the inner loops it comes to;
* `loops_end_iff`   when all of them end.
-/

namespace Compilebench

open FileTree PosixPath PosixCalls ExceptLoop

/-! ## the two loops -/

inductive Loop where
  | ancestors (dname : Str) (seendirs : Finset Str)
  | chunks (sz : Size) (size : ℕ)

/-- The write loop starts with a file of `size` bytes, and has to append `sz` bytes. -/
def Loop.Ends (bufsize : ℤ) : Loop → Prop
  | .ancestors dname seendirs => ∃ fuel seen, noteDirs fuel dname seendirs = .ok seen
  | .chunks sz size => ∃ fuel, writeLoop bufsize fuel sz.int size = .ok (size + sz.int)

def Loop.Fine (bufsize : ℤ) : Loop → Prop
  | .ancestors dname _ => dname.head? ≠ some '/'
  | .chunks sz _ => 1 ≤ bufsize ∨ sz.int = 0

theorem noteDirs_total (fuel : ℕ) {dname : Str} (hrel : dname.head? ≠ some '/')
    (hfuel : dname.length < fuel) (seen : Finset Str) : ∃ seen', noteDirs fuel dname seen = .ok seen' := by
  induction fuel generalizing dname seen with
  | zero => omega
  | succ fuel ih =>
    unfold noteDirs
    split
    · exact ⟨seen, rfl⟩
    · next hne =>
      have hlt := dirname_lt hne hrel
      exact ih (dirname_relative hrel) (by omega) _

/-- Above an absolute name there is always another one. -/
theorem noteDirs_endless (fuel : ℕ) {dname : Str} (habs : dname.head? = some '/')
    (seen : Finset Str) : noteDirs fuel dname seen = .error .endless := by
  induction fuel generalizing dname seen with
  | zero => rfl
  | succ fuel ih =>
    unfold noteDirs
    rw [if_neg]
    · exact ih (dirname_absolute habs) _
    · rintro rfl
      cases habs

/-- The loop notes relative names only. -/
theorem noteDirs_relative (fuel : ℕ) {dname : Str} {seen seen' : Finset Str}
    (hseen : ∀ x ∈ seen, x.head? ≠ some '/') (h : noteDirs fuel dname seen = .ok seen') :
    ∀ x ∈ seen', x.head? ≠ some '/' := by
  induction fuel generalizing dname seen with
  | zero => cases h
  | succ fuel ih =>
    have hrel : dname.head? ≠ some '/' := by
      intro habs
      rw [noteDirs_endless _ habs] at h
      cases h
    unfold noteDirs at h
    split at h
    · cases h
      exact hseen
    · apply ih _ h
      intro x hx
      rcases Finset.mem_insert.mp hx with rfl | hx
      · exact hrel
      · exact hseen x hx

theorem writeLoop_total {bufsize : ℤ} {sz : Size} (h : 1 ≤ bufsize ∨ sz.int = 0) (size : ℕ) :
    writeLoop bufsize sz.int sz.int size = .ok (size + sz.int) := by
  rcases h with h | h
  · exact writeLoop_eq h _ _ _ (Nat.le_refl _)
  · rw [h]
    rfl

theorem Loop.ends_iff {bufsize : ℤ} {loop : Loop} : loop.Ends bufsize ↔ loop.Fine bufsize := by
  cases loop with
  | ancestors dname seen =>
    refine ⟨?_, ?_⟩
    · rintro ⟨fuel, seen', h⟩ habs
      rw [noteDirs_endless _ habs] at h
      cases h
    · intro hrel
      exact ⟨_, noteDirs_total _ hrel (Nat.lt_succ_self _) seen⟩
  | chunks sz size =>
    refine ⟨?_, ?_⟩
    · rintro ⟨fuel, h⟩
      by_contra hn
      obtain ⟨hbuf, hsz⟩ := not_or.mp hn
      rw [writeLoop_endless (by omega) _ _ (by omega)] at h
      cases h
    · intro hfine
      exact ⟨_, writeLoop_total hfine size⟩

theorem readLoop_total (bufsize : ℤ) (fuel : ℕ) {left : ℕ} (hfuel : left < fuel) (totalread : ℕ) :
    ∃ n, readLoop bufsize fuel left totalread = .ok n := by
  induction fuel generalizing left totalread with
  | zero => omega
  | succ fuel ih =>
    unfold readLoop
    dsimp only
    generalize hbuf : (if bufsize < 0 then left else min bufsize.toNat left) = readbuf
    have hle : readbuf ≤ left := by
      rw [← hbuf]
      split
      · exact Nat.le_refl _
      · exact Nat.min_le_right _ _
    by_cases h0 : readbuf = 0
    · rw [if_pos h0]
      exact ⟨_, rfl⟩
    · rw [if_neg h0]
      exact ih (by omega) _

/-! ## a call -/

structure RunCall where
  dataset : Entries
  dirname : Str
  unlinkFirst : Bool
  readfirst : Bool
  disk : Disk

section
variable (env : Env) (c : RunCall)

/-- `run_directory` without the throughput -/
def RunCall.run : Except Exn (Finset Str × Disk) :=
  runLoop env c.dataset c.dirname c.unlinkFirst c.readfirst c.disk

/-- The loop over the dataset comes to the entry `(x, sz)`. -/
def RunCall.Reached (x : Str) (sz : Size) (seen : Finset Str) (t : Disk) : Prop :=
  ∃ pre post, c.dataset = pre ++ (x, sz) :: post ∧
    runLoop env pre c.dirname c.unlinkFirst c.readfirst c.disk = .ok (seen, t)

/-- the path of an entry, and the tree in which it is opened -/
def RunCall.fname (x : Str) : Str := join (join env.benchdir c.dirname) x

def RunCall.before (x : Str) (t : Disk) : Disk :=
  if c.unlinkFirst then unlinkQuiet (c.fname env x) t else t

end

/-- the inner loops that the call comes to -/
inductive RunCall.Comes (env : Env) (c : RunCall) : Loop → Prop
  | ancestors {x sz seen t} (reached : c.Reached env x sz seen t) (dir : PosixPath.dirname x ≠ [])
      (new : PosixPath.dirname x ∉ seen) : RunCall.Comes env c (.ancestors (PosixPath.dirname x) seen)
  | chunks {x sz seen t seen' t' n p u} (reached : c.Reached env x sz seen t)
      (dirs : ensureDir (join env.benchdir c.dirname) (PosixPath.dirname x) seen t
        = .ok (seen', t'))
      (opened : openAppend (c.fname env x) (c.before env x t') = .ok ((n, p), u)) :
    RunCall.Comes env c
      (.chunks sz (((if c.readfirst then setSize n p 0 u else u).size (n :: p)).getD 0))

variable {env : Env} {c : RunCall} {x : Str} {sz : Size} {seen : Finset Str} {t : Disk}

/-- Absolute names are never seen. -/
theorem RunCall.Reached.relative (h : c.Reached env x sz seen t) :
    ∀ y ∈ seen, y.head? ≠ some '/' := by
  obtain ⟨pre, post, _, hrun⟩ := h
  apply foldlM_inv (I := fun _ (s : Finset Str × Disk) => ∀ y ∈ s.1, y.head? ≠ some '/')
    (fun y hy => absurd hy (Finset.notMem_empty y)) _ hrun
  rintro pre ⟨y, sz'⟩ post ⟨seen, t⟩ ⟨seen', t'⟩ - hseen hstep
  unfold runFile at hstep
  simp only [bind_eq_ok] at hstep
  obtain ⟨⟨seen1, t1⟩, h1, _, _, _, _, hlast⟩ := hstep
  cases hlast
  unfold ensureDir at h1
  split at h1
  · simp only [bind_eq_ok] at h1
    obtain ⟨seen2, h2, h1⟩ := h1
    cases h1
    exact noteDirs_relative _ hseen h2
  · cases h1
    exact hseen

/-- The ancestor loop of an absolute path is come to. -/
theorem RunCall.Reached.comes (h : c.Reached env x sz seen t) (habs : x.head? = some '/') :
    c.Comes env (.ancestors (PosixPath.dirname x) seen) := by
  have hdir := dirname_absolute habs
  refine .ancestors h ?_ ?_
  · intro hnil
    rw [hnil] at hdir
    cases hdir
  · intro hmem
    exact h.relative _ hmem hdir

/-! ## the bounds of the model -/

/-- The loop over the dataset stops at an entry that raises an exception. -/
theorem RunCall.Reached.run_error (h : c.Reached env x sz seen t) {e : Exn}
    (he : runFile env (join env.benchdir c.dirname) c.unlinkFirst c.readfirst (seen, t) (x, sz)
      = .error e) : c.run env = .error e := by
  obtain ⟨pre, post, hdata, hrun⟩ := h
  unfold RunCall.run
  rw [hdata]
  unfold runLoop at hrun ⊢
  rw [List.foldlM_append, hrun]
  show (runFile env _ _ _ (seen, t) (x, sz) >>= fun s => post.foldlM _ s) = _
  rw [he]
  rfl

theorem runFile_eq (curdir : Str) (unlinkFirst readfirst : Bool) :
    runFile env curdir unlinkFirst readfirst (seen, t) (x, sz) =
      ensureDir curdir (dirname x) seen t >>= fun r =>
        call (openAppend (join curdir x)
          (if unlinkFirst then unlinkQuiet (join curdir x) r.2 else r.2)) >>= fun f =>
            rewrite env readfirst f.1.1 f.1.2 sz f.2 >>= fun u => .ok (r.1, u) := rfl

theorem rewrite_eq (readfirst : Bool) (n : Name) (p : Path) (u : Disk) :
    rewrite env readfirst n p sz u =
      writeLoop env.bufsize sz.int sz.int
        (((if readfirst then setSize n p 0 u else u).size (n :: p)).getD 0) >>= fun size =>
          .ok (setSize n p size (if readfirst then setSize n p 0 u else u)) := by
  cases readfirst with
  | false => rfl
  | true =>
    obtain ⟨k, hk⟩ := readLoop_total env.bufsize _
      (Nat.lt_succ_self ((u.size (n :: p)).getD 0)) 0
    show (readAll env.bufsize ((u.size (n :: p)).getD 0) >>= fun _ => _) = _
    unfold readAll
    rw [hk]
    rfl

theorem call_ne_endless {α : Type} {y : Except Errno α} : call y ≠ .error .endless := by
  cases y with
  | ok a => exact fun h => by cases h
  | error e => exact fun h => by cases h

theorem ensureDir_endless {curdir dname : Str}
    (h : ensureDir curdir dname seen t = .error .endless) :
    dname ≠ [] ∧ dname ∉ seen ∧ dname.head? = some '/' := by
  unfold ensureDir at h
  split at h
  · next hc =>
    refine ⟨hc.1, hc.2, ?_⟩
    by_contra hrel
    obtain ⟨seen', hs⟩ := noteDirs_total _ hrel (Nat.lt_succ_self _) seen
    dsimp only at h
    rw [hs] at h
    cases h
  · cases h

theorem RunCall.Comes.run_endless {loop : Loop} (h : c.Comes env loop)
    (hnot : ¬ loop.Fine env.bufsize) : c.run env = .error .endless := by
  cases h with
  | @ancestors x sz seen t reached dir new =>
    apply reached.run_error
    have habs : (PosixPath.dirname x).head? = some '/' := not_not.mp hnot
    rw [runFile_eq]
    unfold ensureDir
    rw [if_pos ⟨dir, new⟩, noteDirs_endless _ habs]
    rfl
  | @chunks x sz seen t seen' t' n p u reached dirs opened =>
    apply reached.run_error
    obtain ⟨hbuf, hsz⟩ := not_or.mp hnot
    rw [runFile_eq, dirs]
    show (call (openAppend (c.fname env x) (c.before env x t')) >>= _) = _
    rw [opened]
    show (rewrite env c.readfirst n p sz u >>= _) = _
    rw [rewrite_eq, writeLoop_endless (by omega) _ _ (by omega)]
    rfl

/-- A bounded loop of the model that gives up is a loop that does not end. -/
theorem run_endless_iff :
    c.run env = .error .endless ↔ ∃ loop, c.Comes env loop ∧ ¬ loop.Ends env.bufsize := by
  refine ⟨?_, ?_⟩
  · intro h
    obtain ⟨pre, ⟨x, sz⟩, post, ⟨seen, t⟩, hdata, hpre, he⟩ := foldlM_error h
    have hreach : c.Reached env x sz seen t := ⟨pre, post, hdata, hpre⟩
    rw [runFile_eq, bind_eq_error] at he
    rcases he with he | ⟨⟨seen', t'⟩, hdirs, he⟩
    · obtain ⟨hdir, hnew, habs⟩ := ensureDir_endless he
      refine ⟨_, .ancestors hreach hdir hnew, ?_⟩
      rw [Loop.ends_iff]
      exact fun hrel => hrel habs
    · rw [bind_eq_error] at he
      rcases he with he | ⟨⟨⟨n, p⟩, u⟩, hopen, he⟩
      · exact absurd he call_ne_endless
      · rw [bind_eq_error] at he
        rcases he with he | ⟨v, _, he⟩
        · refine ⟨_, .chunks hreach hdirs (call_ok.mp hopen), ?_⟩
          rw [Loop.ends_iff]
          intro hfine
          rw [rewrite_eq, writeLoop_total hfine] at he
          cases he
        · cases he
  · rintro ⟨loop, hcomes, hnot⟩
    rw [Loop.ends_iff] at hnot
    exact hcomes.run_endless hnot

/-- All inner loops of a call end iff no path it comes to is absolute and each file it opens can be
written. -/
theorem loops_end_iff (env : Env) (c : RunCall) :
    ((∀ loop, c.Comes env loop → loop.Ends env.bufsize) ↔
      (∀ x sz seen t, c.Reached env x sz seen t → x.head? ≠ some '/') ∧
        ∀ sz size, c.Comes env (.chunks sz size) → 1 ≤ env.bufsize ∨ sz.int = 0) ∧
    ((∀ e ∈ c.dataset, e.1.head? ≠ some '/' ∧ (1 ≤ env.bufsize ∨ e.2.int = 0)) →
      ∀ loop, c.Comes env loop → loop.Ends env.bufsize) := by
  have hiff : (∀ loop, c.Comes env loop → loop.Ends env.bufsize) ↔
      (∀ x sz seen t, c.Reached env x sz seen t → x.head? ≠ some '/') ∧
        ∀ sz size, c.Comes env (.chunks sz size) → 1 ≤ env.bufsize ∨ sz.int = 0 := by
    refine ⟨?_, ?_⟩
    · intro hall
      refine ⟨?_, fun sz size hcomes => Loop.ends_iff.mp (hall _ hcomes)⟩
      intro x sz seen t hreach habs
      exact Loop.ends_iff.mp (hall _ (hreach.comes habs)) (dirname_absolute habs)
    · rintro ⟨hrel, hwrite⟩ loop hcomes
      rw [Loop.ends_iff]
      cases hcomes with
      | ancestors reached dir new => exact dirname_relative (hrel _ _ _ _ reached)
      | chunks reached dirs opened => exact hwrite _ _ (.chunks reached dirs opened)
  have hmem {x : Str} {sz : Size} {seen : Finset Str} {t : Disk} (h : c.Reached env x sz seen t) :
      (x, sz) ∈ c.dataset := by
    obtain ⟨pre, post, hdata, _⟩ := h
    rw [hdata]
    simp
  refine ⟨hiff, fun hfine => hiff.mpr ⟨?_, ?_⟩⟩
  · exact fun x sz seen t h => (hfine _ (hmem h)).1
  · intro sz size hcomes
    cases hcomes with
    | chunks reached dirs opened => exact (hfine _ (hmem reached)).2

/-- A dataset with an absolute path: its ancestors are `/` for ever. -/
theorem not_loops_end :
    ¬ ∀ c : RunCall, ∀ loop, c.Comes sampleEnv loop → loop.Ends sampleEnv.bufsize := by
  intro hall
  have hreach : RunCall.Reached sampleEnv ⟨[(['/', 'a'], Size.ofNat 1)], kernelName 0, false, false,
    sampleDisk⟩ ['/', 'a'] (Size.ofNat 1) _ _ := ⟨[], [], rfl, rfl⟩
  have hfine := Loop.ends_iff.mp (hall _ _ (hreach.comes rfl))
  exact hfine (dirname_absolute rfl)

end Compilebench
