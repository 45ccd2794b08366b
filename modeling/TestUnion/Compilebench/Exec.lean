import Mathlib.Data.Char
import Mathlib.Data.List.Lex
import TestUnion.Compilebench.Ops
import TestUnion.ExceptLoop

/-!
# compilebench: runs that are given by their draws

* `Act.next`        the state after an act, when the act is possible; `Act.next_ok` says that this
                    is `Step`;
* `boot`, `exec`    the state before the initial loop, and the run of a list of acts;
* `sampleEnv`, `sampleData`, `sampleRun`   a working directory `b` and a small quadruple in which a
                    file `x` goes away with the patch and comes back when the patched tree is
                    compiled, and `o` is the same in both compiled states.
-/

namespace Compilebench

open FileTree PosixPath PosixCalls ExceptLoop Lts

section
variable (env : Env) (N : ℕ)

def Act.next (s : State) : Act → Except Exn State
  | .initial clock => if s.initial < N then createInitial env clock s else .error .noDraw
  | .op o ret =>
    if s.initial = N then do
      let (r, s') ← o.run env s
      if r = ret then return s' else .error .noDraw
    else .error .noDraw

theorem Act.next_ok {s s' : State} {a : Act} :
    a.next env N s = .ok s' ↔ Step env N s a s' := by
  cases a with
  | initial clock =>
    unfold Act.next
    refine ⟨?_, ?_⟩
    · intro h
      simp only at h
      split at h
      · next hlt => exact .initial hlt h
      · cases h
    · intro hex
      obtain ⟨hlt, h⟩ := hex
      exact (if_pos hlt).trans h
  | op o ret =>
    unfold Act.next
    refine ⟨?_, ?_⟩
    · intro h
      simp only at h
      split at h
      · next hall =>
        rw [bind_eq_ok] at h
        obtain ⟨⟨r, u⟩, hrun, h⟩ := h
        simp only at h
        split at h
        · next hr =>
          cases h
          rw [hr] at hrun
          exact .op hall hrun
        · cases h
      · cases h
    · rintro (_ | ⟨hall, h⟩)
      simp only
      rw [if_pos hall, h]
      exact if_pos rfl

/-- the run of the acts, with its steps -/
def exec (s : State) (acts : List Act) : Except Exn (List (State × Act × State) × State) :=
  acts.foldlM (fun (tr, s) a => do
    let s' ← a.next env N s
    return (tr ++ [(s, a, s')], s')) ([], s)

theorem exec_run {s s' : State} {acts : List Act} {tr : List (State × Act × State)}
    (h : exec env N s acts = .ok (tr, s')) :
    Run (Step env N) s tr s' ∧ tr.map (fun e => e.2.1) = acts := by
  apply foldlM_inv (I := fun pre (r : List (State × Act × State) × State) =>
    Run (Step env N) s r.1 r.2 ∧ r.1.map (fun e => e.2.1) = pre) ⟨.nil, rfl⟩ _ h
  rintro pre a post ⟨tr, u⟩ ⟨tr', u'⟩ - ⟨hrun, hacts⟩ hstep
  simp only [bind_eq_ok] at hstep
  obtain ⟨v, hv, hstep⟩ := hstep
  cases hstep
  refine ⟨hrun.snoc ((Act.next_ok env N).mp hv), ?_⟩
  rw [List.map_append, hacts]
  rfl

def boot (q : Quadruple) (clocks : Clock × Clock × Clock) (t : Disk) : Except Exn State := do
  let (data, t) ← init env q clocks t
  return ⟨t, data, fun _ => ∅, fun _ => [], 0⟩

theorem boot_start {q : Quadruple} {clocks : Clock × Clock × Clock} {t : Disk} {s : State}
    (h : boot env q clocks t = .ok s) : Start env q t s := by
  unfold boot at h
  rw [bind_eq_ok] at h
  obtain ⟨⟨data, t'⟩, hinit, h⟩ := h
  cases h
  exact ⟨⟨clocks, hinit⟩, fun _ => rfl, fun _ => rfl, rfl⟩

end

/-! ## a sample -/

def sampleEnv : Env where
  bufsize := 4
  benchdir := ['b']
  plain := ⟨by decide, by decide⟩
  ls := Listing.ordered Name
  keys d := inOrder d.keys
  keys_nodup d := nodup_inOrder _
  mem_keys d x := by simp [Finmap.mem_keys]
  sort _ l := l
  sort_perm _ l := List.Perm.refl l
  shuffle l := l
  shuffle_perm l := List.Perm.refl l

def Size.ofNat (n : ℕ) : Size :=
  ⟨Nat.toDigits 10 n, Nat.toDigits_ne_nil, fun _ h => Nat.isDigit_of_mem_toDigits (by decide)
    (by decide) h⟩

/-- `lines[words[0]] = words[1]` for one line after the other -/
def dict (lines : List (Str × ℕ)) : Dataset :=
  lines.foldl (fun d e => d.insert e.1 (Size.ofNat e.2)) ∅

theorem mem_dict {lines : List (Str × ℕ)} {x : Str} : x ∈ dict lines ↔ x ∈ lines.map Prod.fst := by
  have key : ∀ d : Dataset, x ∈ lines.foldl (fun d e => d.insert e.1 (Size.ofNat e.2)) d ↔
      x ∈ d ∨ x ∈ lines.map Prod.fst := by
    induction lines with
    | nil => simp
    | cons e lines ih =>
      intro d
      rw [List.foldl_cons, ih, Finmap.mem_insert, List.map_cons, List.mem_cons]
      tauto
  rw [dict, key]
  simp [Finmap.notMem_empty]

def sampleLines : List (Str × ℕ) × List (Str × ℕ) × List (Str × ℕ) × List (Str × ℕ) :=
  ([(['a'], 1), (['x'], 1)], [(['a'], 2)], [(['a'], 1), (['o'], 3), (['x'], 1)],
    [(['a'], 2), (['o'], 3), (['x'], 5)])

theorem sample_name {x : Str} (h : x ∈ dict sampleLines.1 ∨ x ∈ dict sampleLines.2.1 ∨
    x ∈ dict sampleLines.2.2.1 ∨ x ∈ dict sampleLines.2.2.2) : x ∈ [['a'], ['o'], ['x']] := by
  simp only [mem_dict, sampleLines, List.map_cons, List.map_nil, List.mem_cons,
    List.not_mem_nil, or_false] at h ⊢
  tauto

theorem sample_normal {x : Str} (h : x ∈ dict sampleLines.1 ∨ x ∈ dict sampleLines.2.1 ∨
    x ∈ dict sampleLines.2.2.1 ∨ x ∈ dict sampleLines.2.2.2) : Normal x := by
  have hall : ∀ x ∈ [['a'], ['o'], ['x']], Normal x := by decide
  exact hall x (sample_name h)

def sampleData : Quadruple where
  unpatched := dict sampleLines.1
  patched := dict sampleLines.2.1
  unpatchedCompiled := dict sampleLines.2.2.1
  compiled := dict sampleLines.2.2.2
  inside _ h := (sample_normal h).local

def sampleDisk : Disk :=
  Tree.put ⟨Finmap.singleton [] .dir, rfl, by
    intro n p h
    exact absurd ((Finmap.mem_singleton _ _ _).mp h) (List.cons_ne_nil n p)⟩
    ⟨['b'], by decide⟩ [] .dir rfl (by decide +kernel)

def sampleRun (initialDirs : ℕ) (acts : List Act) :
    Except Exn (State × List (State × Act × State) × State) := do
  let clock : Clock := ⟨0, 0, 1⟩
  let s ← boot sampleEnv sampleData (clock, clock, clock) sampleDisk
  let (tr, s') ← exec sampleEnv initialDirs s acts
  return (s, tr, s')

/-- A computed run is a run of its acts, whatever is checked of its end. -/
theorem sample_acts (initialDirs : ℕ) (acts : List Act) (check : State → Bool)
    (h : (match sampleRun initialDirs acts with
      | .ok (_, _, s) => check s
      | .error _ => false) = true) :
    ∃ s₀ tr s, Start sampleEnv sampleData sampleDisk s₀ ∧
      Run (Step sampleEnv initialDirs) s₀ tr s ∧ tr.map (fun e => e.2.1) = acts ∧
      check s = true := by
  cases hrun : sampleRun initialDirs acts with
  | error e =>
    rw [hrun] at h
    cases h
  | ok r =>
    obtain ⟨s₀, tr, s⟩ := r
    rw [hrun] at h
    unfold sampleRun at hrun
    simp only [bind_eq_ok] at hrun
    obtain ⟨u, hu, ⟨tr', u'⟩, hexec, hrun⟩ := hrun
    cases hrun
    obtain ⟨hr, hacts⟩ := exec_run _ _ hexec
    exact ⟨_, _, _, boot_start _ hu, hr, hacts, h⟩

theorem sample_run (initialDirs : ℕ) (acts : List Act) (check : State → Bool)
    (h : (match sampleRun initialDirs acts with
      | .ok (_, _, s) => check s
      | .error _ => false) = true) :
    ∃ s₀ tr s, Start sampleEnv sampleData sampleDisk s₀ ∧
      Run (Step sampleEnv initialDirs) s₀ tr s ∧ check s = true := by
  obtain ⟨s₀, tr, s, hs, hr, _, hc⟩ := sample_acts initialDirs acts check h
  exact ⟨s₀, tr, s, hs, hr, hc⟩

/-- A computed run with one more step. -/
theorem sample_step (initialDirs : ℕ) (acts : List Act) (a : Act) (check : State → State → Bool)
    (h : (match sampleRun initialDirs acts with
      | .ok (_, _, s) =>
        match a.next sampleEnv initialDirs s with
        | .ok s' => check s s'
        | .error _ => false
      | .error _ => false) = true) :
    ∃ s₀ tr s s', Start sampleEnv sampleData sampleDisk s₀ ∧
      Run (Step sampleEnv initialDirs) s₀ tr s ∧ tr.map (fun e => e.2.1) = acts ∧
      Step sampleEnv initialDirs s a s' ∧ check s s' = true := by
  obtain ⟨s₀, tr, s, hs, hr, hacts, hc⟩ := sample_acts initialDirs acts (fun s =>
    match a.next sampleEnv initialDirs s with
    | .ok s' => check s s'
    | .error _ => false) h
  cases hnext : a.next sampleEnv initialDirs s with
  | error e =>
    rw [hnext] at hc
    cases hc
  | ok s' =>
    rw [hnext] at hc
    exact ⟨s₀, tr, s, s', hs, hr, hacts, (Act.next_ok _ _).mp hnext, hc⟩

end Compilebench
