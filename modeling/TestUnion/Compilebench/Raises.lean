import TestUnion.Compilebench.OpsSpec

/-!
# compilebench: the exceptions of the functions that work on a tree

* `Exn.OfFiles`     an exception of a system call, or a loop that does not end;
* `runLoop`, `readFiles`   the part of `run_directory` and of `read_dirtree` before the throughput
                    is computed, as `cleanLoop` is for `clean_directory`;
* `runDirectory_error`, `readDirtree_error`   an exception comes from this part, or the throughput is
                    divided by zero;
* `rmrf_error`      `rmrf` divides by nothing.
-/

namespace Compilebench

open FileTree PosixPath PosixCalls ExceptLoop

variable {env : Env} {t t' : Disk} {dataset : Entries} {dirname : Str} {clock : Clock} {x : Exn}

def Exn.OfFiles : Exn → Prop
  | .os _ => True
  | .endless => True
  | _ => False

theorem call_error {α : Type} {y : Except Errno α} (h : call y = .error x) : x.OfFiles := by
  cases y with
  | ok a => cases h
  | error e =>
    cases h
    trivial

/-- An exception of a walk comes from its body. -/
theorem walk_error {σ : Type} {L : Listing Name} {tree : σ → Disk} {topdown : Bool}
    {body : Str → List Name → List Name → σ → Except Exn σ}
    (hbody : ∀ root dirs files s x, body root dirs files s = .error x → x.OfFiles)
    (fuel : ℕ) {top : Str} {s : σ} (h : walk L tree .endless topdown body fuel top s = .error x) :
    x.OfFiles := by
  induction fuel generalizing top s x with
  | zero =>
    cases h
    trivial
  | succ fuel ih =>
    rw [walk] at h
    split at h
    · cases h
    · next names _ =>
      have hdirs (dirs : List Name) (u : σ) (h : dirs.foldlM
          (fun s n => walk L tree .endless topdown body fuel (join top n.1) s) u = .error x) :
          x.OfFiles := by
        obtain ⟨pre, n, post, w, _, _, hn⟩ := foldlM_error h
        exact ih hn
      cases topdown with
      | true =>
        have h' : (body top _ _ s >>= fun u => List.foldlM _ u _ >>= fun v => .ok v) = .error x := h
        rw [bind_eq_error] at h'
        rcases h' with h' | ⟨u, _, h'⟩
        · exact hbody _ _ _ _ _ h'
        · rw [bind_eq_error] at h'
          rcases h' with h' | ⟨v, _, h'⟩
          · exact hdirs _ u h'
          · cases h'
      | false =>
        have h' : (List.foldlM _ s _ >>= fun v => body top _ _ v) = .error x := h
        rw [bind_eq_error] at h'
        rcases h' with h' | ⟨v, _, h'⟩
        · exact hdirs _ s h'
        · exact hbody _ _ _ _ _ h'

/-! ## run_directory -/

theorem writeLoop_error {bufsize : ℤ} (fuel : ℕ) {sz : ℤ} {size : ℕ}
    (h : writeLoop bufsize fuel sz size = .error x) : x = .endless := by
  induction fuel generalizing sz size with
  | zero =>
    unfold writeLoop at h
    split at h
    · cases h
      rfl
    · cases h
  | succ fuel ih =>
    unfold writeLoop at h
    split at h
    · exact ih h
    · cases h

theorem readLoop_error {bufsize : ℤ} (fuel : ℕ) {left totalread : ℕ}
    (h : readLoop bufsize fuel left totalread = .error x) : x = .endless := by
  induction fuel generalizing left totalread with
  | zero =>
    cases h
    rfl
  | succ fuel ih =>
    unfold readLoop at h
    dsimp only at h
    split at h
    · split at h
      · cases h
      · exact ih h
    · split at h
      · cases h
      · exact ih h

theorem noteDirs_error (fuel : ℕ) {dname : Str} {seen : Finset Str}
    (h : noteDirs fuel dname seen = .error x) : x = .endless := by
  induction fuel generalizing dname seen with
  | zero =>
    cases h
    rfl
  | succ fuel ih =>
    unfold noteDirs at h
    split at h
    · cases h
    · exact ih h

theorem rewrite_error {readfirst : Bool} {n : Name} {p : Path} {sz : Size}
    (h : rewrite env readfirst n p sz t = .error x) : x.OfFiles := by
  have hwrite (u : Disk) (h : (writeLoop env.bufsize sz.int sz.int ((u.size (n :: p)).getD 0) >>=
      fun size => .ok (setSize n p size u)) = .error x) : x.OfFiles := by
    rw [bind_eq_error] at h
    rcases h with h | ⟨k, _, h⟩
    · rw [writeLoop_error _ h]
      trivial
    · cases h
  cases readfirst with
  | false => exact hwrite t h
  | true =>
    have h' : (readAll env.bufsize ((t.size (n :: p)).getD 0) >>= fun _ =>
      writeLoop env.bufsize sz.int sz.int (((setSize n p 0 t).size (n :: p)).getD 0) >>= fun size =>
        .ok (setSize n p size (setSize n p 0 t))) = .error x := h
    rw [bind_eq_error] at h'
    rcases h' with h' | ⟨k, _, h'⟩
    · rw [readLoop_error _ h']
      trivial
    · exact hwrite _ h'

theorem runFile_error {curdir : Str} {unlinkFirst readfirst : Bool} {state : Finset Str × Disk}
    {e : Str × Size} (h : runFile env curdir unlinkFirst readfirst state e = .error x) :
    x.OfFiles := by
  unfold runFile at h
  dsimp only at h
  rw [bind_eq_error] at h
  rcases h with h | ⟨r, _, h⟩
  · unfold ensureDir at h
    split at h
    · dsimp only at h
      rw [bind_eq_error] at h
      rcases h with h | ⟨s, _, h⟩
      · rw [noteDirs_error _ h]
        trivial
      · cases h
    · cases h
  · rw [bind_eq_error] at h
    rcases h with h | ⟨r, _, h⟩
    · exact call_error h
    · rw [bind_eq_error] at h
      rcases h with h | ⟨u, _, h⟩
      · exact rewrite_error h
      · cases h

/-- the loop of `run_directory` over the dataset, with the `mkdir` before it -/
def runLoop (env : Env) (dataset : Entries) (dirname : Str) (unlinkFirst readfirst : Bool)
    (t : Disk) : Except Exn (Finset Str × Disk) :=
  dataset.foldlM (runFile env (join env.benchdir dirname) unlinkFirst readfirst)
    (∅, (mkdirKeep (join env.benchdir dirname) t).2)

section
variable {unlinkFirst readfirst : Bool}

theorem runLoop_error (h : runLoop env dataset dirname unlinkFirst readfirst t = .error x) :
    x.OfFiles := by
  obtain ⟨pre, e, post, s, _, _, he⟩ := foldlM_error h
  exact runFile_error he

theorem runDirectory_of_loop {r : Finset Str × Disk}
    (h : runLoop env dataset dirname unlinkFirst readfirst t = .ok r) :
    runDirectory env dataset dirname unlinkFirst readfirst clock t
      = if clock.real = 0 then .error .zeroDivision else .ok r.2 := by
  show (runLoop env dataset dirname unlinkFirst readfirst t >>= fun r =>
    if clock.real = 0 then .error .zeroDivision else .ok r.2) = _
  rw [h]
  rfl

theorem runDirectory_of_loop_error
    (h : runLoop env dataset dirname unlinkFirst readfirst t = .error x) :
    runDirectory env dataset dirname unlinkFirst readfirst clock t = .error x := by
  show (runLoop env dataset dirname unlinkFirst readfirst t >>= fun r =>
    if clock.real = 0 then .error .zeroDivision else .ok r.2) = _
  rw [h]
  rfl

theorem runDirectory_error
    (h : runDirectory env dataset dirname unlinkFirst readfirst clock t = .error x) :
    x.OfFiles ∨ (x = .zeroDivision ∧ clock.real = 0) := by
  cases hloop : runLoop env dataset dirname unlinkFirst readfirst t with
  | error y =>
    rw [runDirectory_of_loop_error hloop] at h
    cases h
    exact .inl (runLoop_error hloop)
  | ok r =>
    rw [runDirectory_of_loop hloop] at h
    split at h
    · next hc =>
      cases h
      exact .inr ⟨rfl, hc⟩
    · cases h

end

/-! ## clean_directory, read_dirtree, rmrf -/

theorem cleanDirectory_of_loop (h : cleanLoop env dataset dirname t = .ok t') :
    cleanDirectory env dataset dirname clock t
      = if clock.real = 0 then .error .zeroDivision else .ok t' := by
  show (cleanLoop env dataset dirname t >>= fun t =>
    if clock.real = 0 then .error .zeroDivision else .ok t) = _
  rw [h]
  rfl

/-- the walk of `read_dirtree` -/
def readFiles (env : Env) (dirname : Str) (t : Disk) : Except Exn ℕ :=
  walk env.ls (fun _ => t) .endless true (fun root _ files totalread =>
    files.foldlM (fun totalread name => do
      let size ← call (openRead (join root name.1) t)
      let n ← readAll env.bufsize size
      return totalread + n) totalread) (depth t) (join env.benchdir dirname) 0

theorem readFiles_error (h : readFiles env dirname t = .error x) : x.OfFiles := by
  apply walk_error _ _ h
  intro root dirs files s y hy
  obtain ⟨pre, n, post, k, _, _, hn⟩ := foldlM_error hy
  rw [bind_eq_error] at hn
  rcases hn with hn | ⟨size, _, hn⟩
  · exact call_error hn
  · rw [bind_eq_error] at hn
    rcases hn with hn | ⟨m, _, hn⟩
    · rw [readLoop_error _ hn]
      trivial
    · cases hn

theorem readDirtree_of_files {n : ℕ} (h : readFiles env dirname t = .ok n) :
    readDirtree env dirname clock t = if clock.real = 0 then .error .zeroDivision else .ok n := by
  show (readFiles env dirname t >>= fun n =>
    if clock.real = 0 then .error .zeroDivision else .ok n) = _
  rw [h]
  rfl

theorem readDirtree_error (h : readDirtree env dirname clock t = .error x) :
    x.OfFiles ∨ (x = .zeroDivision ∧ clock.real = 0) := by
  cases hfiles : readFiles env dirname t with
  | error y =>
    have h' : (readFiles env dirname t >>= fun n =>
      if clock.real = 0 then .error .zeroDivision else .ok n) = .error x := h
    rw [hfiles] at h'
    cases h'
    exact .inl (readFiles_error hfiles)
  | ok n =>
    rw [readDirtree_of_files hfiles] at h
    split at h
    · next hc =>
      cases h
      exact .inr ⟨rfl, hc⟩
    · cases h

theorem rmrf_error (h : rmrf env dirname t = .error x) : x.OfFiles := by
  apply walk_error _ _ h
  intro root dirs files s y hy
  rw [bind_eq_error] at hy
  rcases hy with hy | ⟨u, _, hy⟩
  · obtain ⟨pre, n, post, v, _, _, hn⟩ := foldlM_error hy
    exact call_error hn
  · obtain ⟨pre, n, post, v, _, _, hn⟩ := foldlM_error hy
    exact call_error hn

end Compilebench
