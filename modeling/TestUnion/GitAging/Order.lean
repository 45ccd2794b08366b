import TestUnion.GitAging.Workers
import Mathlib.Tactic.Common

/-!
# stress-subvol-git-aging: the order of the snapshots

The test of the polling loop has one argument that is not empty, so it never fails and no worker waits.

* `Ready s k`       worker `k` has made `stress/$k`, and `init-done` is in it; it stays so;
* `Ordered tr`      in the run, a snapshot of `stress/$(p-1)` is taken when that is ready;
* `Safe`            the options and the directories at the start under which every run is ordered;
* `Waits`           the condition on a step that the test was written for;
* `snapshots_ordered_iff`   every run is ordered exactly when the start is safe, and a run in which
                    the workers wait is ordered.
-/

namespace GitAging

variable {cfg : Cfg} {s t : St} {a : Act} {sub : ℕ → Option Sub} {p k : ℕ}

@[simp]
theorem goto_pc (s : St) (p : ℕ) (pc : Pc) : (s.goto p pc).pc p = pc := Function.update_self ..

/-- The path of the test is never empty. -/
theorem testWord_path (prev : ℕ) : testWord (initDonePath cfg prev) = true := by
  unfold testWord initDonePath
  simp

theorem next_test (s : St) (p : ℕ) : next cfg s (.test p) = s.goto p .snap := by
  simp only [next, testWord_path, if_true]

/-! ## what the steps do to the directories -/

def Ready (s : St) (k : ℕ) : Prop :=
  s.created k = true ∧ ∃ b, s.sub k = some b ∧ b.initDone = true

/-- Directories, marks of creation and `init-done` stay. -/
structure Grows (s t : St) : Prop where
  created : ∀ k, s.created k = true → t.created k = true
  sub : ∀ k b, s.sub k = some b → ∃ b', t.sub k = some b' ∧ (b.initDone = true → b'.initDone = true)

theorem Grows.refl (s : St) : Grows s s := ⟨fun _ h => h, fun _ b h => ⟨b, h, id⟩⟩

theorem Grows.ready (h : Grows s t) (hr : Ready s k) : Ready t k := by
  obtain ⟨hc, b, hb, hdone⟩ := hr
  obtain ⟨b', hb', himp⟩ := h.sub k b hb
  exact ⟨h.created k hc, b', hb', himp hdone⟩

theorem grows_snapshot (s : St) (p : ℕ) : Grows s (snapshot s p) := by
  unfold snapshot
  split
  · next b hprev hnone =>
    refine ⟨fun k hk => ?_, fun k b' hb' => ?_⟩
    · by_cases hkp : k = p
      · subst hkp
        exact Function.update_self ..
      · simpa only [Function.update_of_ne hkp] using hk
    · have hkp : k ≠ p := by
        intro e
        rw [e, hnone] at hb'
        cases hb'
      exact ⟨b', by simpa only [Function.update_of_ne hkp] using hb', id⟩
  · exact .refl s

theorem grows_changeDir (s : St) (p : ℕ) : Grows s (changeDir s p) := by
  unfold changeDir
  split
  · exact .refl s
  · exact ⟨fun _ h => h, fun _ b h => ⟨b, h, id⟩⟩

theorem grows_touch (s : St) (p : ℕ) : Grows s (touchInitDone s p) := by
  unfold touchInitDone
  split
  · exact .refl s
  · next j _ =>
    split
    · exact .refl s
    · refine ⟨fun _ h => h, fun k b' hb' => ?_⟩
      by_cases hkj : k = j
      · subst hkj
        exact ⟨_, Function.update_self .., fun _ => rfl⟩
      · exact ⟨b', by simpa only [Function.update_of_ne hkj] using hb', id⟩

theorem grows_next (s : St) (a : Act) : Grows s (next cfg s a) := by
  have hgoto : ∀ {u : St} (q : ℕ) (pc : Pc), Grows s u → Grows s (u.goto q pc) :=
    fun _ _ h => ⟨h.created, h.sub⟩
  cases a with
  | fork => exact ⟨fun _ h => h, fun _ b h => ⟨b, h, id⟩⟩
  | test p => exact hgoto p _ (.refl s)
  | wake p => exact hgoto p _ (.refl s)
  | snap p ok =>
    refine hgoto p _ ?_
    split
    · exact grows_snapshot s p
    · exact .refl s
  | cd p => exact hgoto p _ (grows_changeDir s p)
  | readList p => exact hgoto p _ (.refl s)
  | readHead p =>
    simp only [next]
    split
    · exact hgoto p _ (.refl s)
    · exact hgoto p _ (.refl s)
    · exact .refl s
  | checkout p =>
    simp only [next]
    split
    · exact hgoto p _ (.refl s)
    · exact .refl s
  | touch p =>
    simp only [next]
    split
    · exact hgoto p _ (grows_touch s p)
    · exact .refl s
  | kill p => exact hgoto p _ (.refl s)

/-! ## when the workers wait -/

/-- Worker `p` leaves the polling loop only when `stress/$(p-1)` is ready. -/
def Waits (s : St) (a : Act) (t : St) : Prop :=
  ∀ p, a = .test p → t.pc p = .snap → Ready s (p - 1)

/-- A worker other than the first that is about to take its snapshot has waited. -/
def Waited (s : St) : Prop := ∀ p, 1 < p → s.pc p = .snap → Ready s (p - 1)

theorem snap_of_goto {u : St} {q : ℕ} {pc : Pc} (h : (u.goto q pc).pc p = .snap)
    (hpc : pc ≠ .snap) (hu : u.pc = s.pc) : s.pc p = .snap := by
  unfold St.goto at h
  dsimp only at h
  by_cases hq : p = q
  · subst hq
    rw [Function.update_self] at h
    exact absurd h hpc
  · rwa [Function.update_of_ne hq, hu] at h

theorem pc_snapshot (s : St) (q : ℕ) : (snapshot s q).pc = s.pc := by
  unfold snapshot
  split <;> rfl

theorem pc_changeDir (s : St) (q : ℕ) : (changeDir s q).pc = s.pc := by
  unfold changeDir
  split <;> rfl

theorem pc_touchInitDone (s : St) (q : ℕ) : (touchInitDone s q).pc = s.pc := by
  unfold touchInitDone
  split
  · rfl
  · split <;> rfl

/-- With `stagger=yes` only a test brings a worker other than the first to its snapshot. -/
theorem snap_of_next (hstagger : cfg.stagger = true) (hp : 1 < p)
    (h : (next cfg s a).pc p = .snap) : s.pc p = .snap ∨ a = .test p := by
  cases a with
  | fork =>
    refine .inl ?_
    simp only [next] at h
    by_cases hq : p = s.p
    · rw [← hq, Function.update_self] at h
      unfold firstPc at h
      rw [if_pos ⟨by omega, hstagger⟩] at h
      cases h
    · rwa [Function.update_of_ne hq] at h
  | test q =>
    by_cases hq : p = q
    · exact .inr (by rw [hq])
    · refine .inl ?_
      rw [next_test] at h
      unfold St.goto at h
      simpa only [Function.update_of_ne hq] using h
  | wake q =>
    simp only [next] at h
    exact .inl (snap_of_goto h nofun rfl)
  | snap q ok =>
    simp only [next] at h
    refine .inl (snap_of_goto h nofun ?_)
    split
    · exact pc_snapshot s q
    · rfl
  | cd q =>
    simp only [next] at h
    exact .inl (snap_of_goto h nofun (pc_changeDir s q))
  | readList q =>
    simp only [next] at h
    exact .inl (snap_of_goto h nofun rfl)
  | readHead q =>
    simp only [next] at h
    split at h
    · exact .inl (snap_of_goto h nofun rfl)
    · exact .inl (snap_of_goto h nofun rfl)
    · exact .inl h
  | checkout q =>
    simp only [next] at h
    split at h
    · exact .inl (snap_of_goto h nofun rfl)
    · exact .inl h
  | touch q =>
    simp only [next] at h
    split at h
    · exact .inl (snap_of_goto h nofun (pc_touchInitDone s q))
    · exact .inl h
  | kill q =>
    simp only [next] at h
    exact .inl (snap_of_goto h nofun rfl)

theorem waited_step (hstagger : cfg.stagger = true) (s : St) (a : Act) (t : St) (h : Waited s)
    (hst : Step cfg s a t ∧ Waits s a t) : Waited t := by
  obtain ⟨⟨-, rfl⟩, hwaits⟩ := hst
  intro p hp hpc
  apply (grows_next s a).ready
  rcases snap_of_next hstagger hp hpc with hs | ha
  · exact h p hp hs
  · exact hwaits p ha hpc

/-! ## when no worker can be early -/

/-- In the run, a snapshot of `stress/$(p-1)` by a worker `p` other than the first is taken when that
is ready. -/
def Ordered (tr : List (St × Act × St)) : Prop :=
  ∀ x ∈ tr, ∀ p, 1 < p → x.2.1 = .snap p true → x.1.sub (p - 1) ≠ none → Ready x.1 (p - 1)

variable (cfg sub) in
/-- There is one worker at most, or none of the directories that the workers take snapshots of is there
except `stress/0`, and that has `init-done` already. -/
def Safe : Prop :=
  ∀ p : ℕ, 1 < p → (p : ℤ) ≤ cfg.nconcurrent →
    sub (p - 1) = none ∧ ∀ b, sub 0 = some b → b.initDone = true

/-- The copies that the workers make of one another all have `init-done`. -/
structure Copied (cfg : Cfg) (s : St) : Prop where
  first : 1 < cfg.nconcurrent → ∀ b, s.sub 0 = some b → b.initDone = true
  ready : ∀ k : ℕ, 1 ≤ k → (k : ℤ) < cfg.nconcurrent → ∀ b, s.sub k = some b →
    s.created k = true ∧ b.initDone = true
  started : ∀ p, s.pc p ≠ .unborn → 1 ≤ p ∧ (p : ℤ) ≤ cfg.nconcurrent
  pos : 1 ≤ s.p

theorem copied_init (h : Safe cfg sub) : Copied cfg (init cfg sub) where
  first hn b hb := (h 2 (by omega) (by omega)).2 b hb
  ready k hk hn b hb := by
    have hnone := (h (k + 1) (by omega) (by omega)).1
    rw [Nat.add_sub_cancel] at hnone
    have hb' : sub k = some b := hb
    rw [hnone] at hb'
    cases hb'
  started p hp := absurd rfl hp
  pos := Nat.le_refl 1

/-- only the program counter of a started worker changes -/
theorem Copied.goto (h : Copied cfg s) {q : ℕ} (hq : s.pc q ≠ .unborn) (pc : Pc) :
    Copied cfg (s.goto q pc) := by
  refine ⟨h.first, h.ready, fun p hp => ?_, h.pos⟩
  by_cases hpq : p = q
  · rw [hpq]
    exact h.started q hq
  · apply h.started p
    unfold St.goto at hp
    simpa only [Function.update_of_ne hpq] using hp

theorem Copied.snapshot (h : Copied cfg s) {q : ℕ} (hq : s.pc q ≠ .unborn) :
    Copied cfg (snapshot s q) := by
  obtain ⟨hpos, hle⟩ := h.started q hq
  unfold GitAging.snapshot
  split
  · next b hprev hnone =>
    refine ⟨fun hn b' hb' => ?_, fun k hk hn b' hb' => ?_, h.started, h.pos⟩
    · apply h.first hn
      simpa only [Function.update_of_ne (show (0 : ℕ) ≠ q by omega)] using hb'
    · by_cases hkq : k = q
      · subst hkq
        simp only [Function.update_self, Option.some.injEq] at hb' ⊢
        rw [← hb']
        refine ⟨trivial, ?_⟩
        -- the source of the first worker is `stress/0`
        rcases Nat.eq_zero_or_pos (k - 1) with h0 | hk1
        · rw [h0] at hprev
          exact h.first (by omega) b hprev
        · exact (h.ready (k - 1) hk1 (by omega) b hprev).2
      · simp only [Function.update_of_ne hkq] at hb' ⊢
        exact h.ready k hk hn b' hb'
  · exact h

theorem Copied.touch (h : Copied cfg s) (q : ℕ) : Copied cfg (touchInitDone s q) := by
  unfold touchInitDone
  split
  · exact h
  · next j _ =>
    split
    · exact h
    · next b hb =>
      refine ⟨fun hn b' hb' => ?_, fun k hk hn b' hb' => ?_, h.started, h.pos⟩
      · by_cases hj : 0 = j
        · subst hj
          simp only [Function.update_self, Option.some.injEq] at hb'
          rw [← hb']
        · exact h.first hn b' (by simpa only [Function.update_of_ne hj] using hb')
      · by_cases hkj : k = j
        · subst hkj
          simp only [Function.update_self, Option.some.injEq] at hb'
          rw [← hb']
          exact ⟨(h.ready k hk hn b hb).1, rfl⟩
        · exact h.ready k hk hn b' (by simpa only [Function.update_of_ne hkj] using hb')

theorem copied_step (s : St) (a : Act) (t : St) (h : Copied cfg s) (hst : Step cfg s a t) :
    Copied cfg t := by
  obtain ⟨he, rfl⟩ := hst
  have hne : ∀ {q : ℕ} {pc : Pc}, s.pc q = pc → pc ≠ .unborn → s.pc q ≠ .unborn :=
    fun hpc hu => by rw [hpc]; exact hu
  cases a with
  | fork =>
    have hle : (s.p : ℤ) ≤ cfg.nconcurrent := he
    refine ⟨h.first, h.ready, fun p hp => ?_, Nat.le_succ_of_le h.pos⟩
    by_cases hps : p = s.p
    · rw [hps]
      exact ⟨h.pos, hle⟩
    · apply h.started p
      simpa only [next, Function.update_of_ne hps] using hp
  | test q => exact h.goto (hne he nofun) _
  | wake q => exact h.goto (hne he nofun) _
  | snap q ok =>
    have hq := hne he nofun
    simp only [next]
    split
    · exact (h.snapshot hq).goto (by rwa [pc_snapshot]) _
    · exact h.goto hq _
  | cd q =>
    have hq := hne he nofun
    have hcd : Copied cfg (changeDir s q) := by
      unfold changeDir
      split
      · exact h
      · exact ⟨h.first, h.ready, h.started, h.pos⟩
    exact hcd.goto (by rwa [pc_changeDir]) _
  | readList q => exact h.goto (hne he nofun) _
  | readHead q =>
    simp only [next]
    split
    · next hpc => exact h.goto (hne hpc nofun) _
    · next hpc => exact h.goto (hne hpc nofun) _
    · exact h
  | checkout q =>
    simp only [next]
    split
    · next hpc => exact h.goto (hne hpc nofun) _
    · exact h
  | touch q =>
    simp only [next]
    split
    · next hpc => exact (h.touch q).goto (by rw [pc_touchInitDone]; exact hne hpc nofun) _
    · exact h
  | kill q => exact h.goto he _

theorem Copied.ready_of_snap (h : Copied cfg s) (he : enabled cfg s (.snap p true)) (hp : 1 < p)
    (hsub : s.sub (p - 1) ≠ none) : Ready s (p - 1) := by
  have hpc : s.pc p = .snap := he
  obtain ⟨-, hle⟩ := h.started p (by rw [hpc]; exact nofun)
  obtain ⟨b, hb⟩ := Option.ne_none_iff_exists'.mp hsub
  obtain ⟨hc, hdone⟩ := h.ready (p - 1) (by omega) (by omega) b hb
  exact ⟨hc, b, hb, hdone⟩

/-! ## an early worker -/

variable (cfg sub) in
/-- the state after `m` rounds of the main loop, before any worker has moved -/
def forked (m : ℕ) : St where
  p := m + 1
  sub := sub
  created := fun _ => false
  pc := fun k => if 1 ≤ k ∧ k ≤ m then firstPc cfg k else .unborn
  cwd := fun _ => cfg.home

theorem forked_pc {m : ℕ} (hk : 1 ≤ k ∧ k ≤ m) : (forked cfg sub m).pc k = firstPc cfg k := if_pos hk

theorem forked_succ (m : ℕ) : next cfg (forked cfg sub m) .fork = forked cfg sub (m + 1) := by
  have hpc : Function.update (forked cfg sub m).pc (m + 1) (firstPc cfg (m + 1)) =
      (forked cfg sub (m + 1)).pc := by
    funext k
    by_cases hk : k = m + 1
    · subst hk
      rw [Function.update_self]
      exact (forked_pc (by omega)).symm
    · rw [Function.update_of_ne hk]
      have hiff : (1 ≤ k ∧ k ≤ m) ↔ (1 ≤ k ∧ k ≤ m + 1) := by omega
      simp only [forked, hiff]
  unfold next
  exact congrArg (fun pc => { forked cfg sub (m + 1) with pc := pc }) hpc

theorem reach_forked {m : ℕ} (hm : (m : ℤ) ≤ cfg.nconcurrent) :
    Lts.Reach (Step cfg) (init cfg sub) (forked cfg sub m) := by
  induction m with
  | zero =>
    have hinit : forked cfg sub 0 = init cfg sub := by
      have hpc : (forked cfg sub 0).pc = fun _ => .unborn := by
        funext k
        exact if_neg (by omega)
      exact congrArg (fun pc => { init cfg sub with pc := pc }) hpc
    rw [hinit]
    exact .refl _
  | succ m ih =>
    refine (ih (by omega)).tail (a := .fork) ⟨?_, (forked_succ m).symm⟩
    exact hm

/-- A worker at its test goes on, and takes the snapshot. -/
theorem early_of_test (hreach : Lts.Reach (Step cfg) (init cfg sub) s) (hp : 1 < p)
    (hpc : s.pc p = .test) (hsub : s.sub (p - 1) ≠ none) (hready : ¬ Ready s (p - 1)) :
    ∃ tr t, Lts.Run (Step cfg) (init cfg sub) tr t ∧ ¬ Ordered tr := by
  obtain ⟨tr, hrun⟩ := hreach
  have htest : Step cfg s (.test p) (s.goto p .snap) := ⟨hpc, (next_test s p).symm⟩
  have htake : Step cfg (s.goto p .snap) (.snap p true) (next cfg (s.goto p .snap) (.snap p true)) :=
    ⟨goto_pc s p .snap, rfl⟩
  refine ⟨_, _, (hrun.snoc htest).snoc htake, ?_⟩
  intro hall
  exact hready (hall _ (List.mem_append_right _ (List.mem_singleton_self _)) p hp rfl hsub)

theorem forked_test (hstagger : cfg.stagger = true) {m : ℕ} (hp : 1 < p) (hpm : p ≤ m) :
    (forked cfg sub m).pc p = .test := by
  rw [forked_pc (by omega)]
  exact if_pos ⟨by omega, hstagger⟩

/-- `stress/$(p-1)` is there before any worker has made it. -/
theorem early_of_there (hstagger : cfg.stagger = true) (hp : 1 < p) (hle : (p : ℤ) ≤ cfg.nconcurrent)
    (hsub : sub (p - 1) ≠ none) :
    ∃ tr t, Lts.Run (Step cfg) (init cfg sub) tr t ∧ ¬ Ordered tr := by
  refine early_of_test (reach_forked hle) hp (forked_test hstagger hp (Nat.le_refl p)) hsub ?_
  intro hready
  cases hready.1

theorem snapshot_first {m : ℕ} {b : Sub} (hb : sub 0 = some b) (h1 : sub 1 = none) :
    snapshot (forked cfg sub m) 1 = { forked cfg sub m with
      sub := Function.update sub 1 (some b)
      created := Function.update (fun _ => false) 1 true } := by
  have hprev : (forked cfg sub m).sub (1 - 1) = some b := hb
  have hnone : (forked cfg sub m).sub 1 = none := h1
  unfold snapshot
  rw [hprev, hnone]
  rfl

/-- Worker 1 copies `stress/0`, which has no `init-done`. -/
theorem early_of_copy (hstagger : cfg.stagger = true) (hle : 2 ≤ cfg.nconcurrent) {b : Sub}
    (hb : sub 0 = some b) (hdone : ¬ b.initDone = true) (h1 : sub 1 = none) :
    ∃ tr t, Lts.Run (Step cfg) (init cfg sub) tr t ∧ ¬ Ordered tr := by
  have hcopy : snapshot (forked cfg sub 2) 1 = _ := snapshot_first hb h1
  have hfirst : (forked cfg sub 2).pc 1 = .snap := by
    rw [forked_pc (by omega)]
    exact if_neg (by omega)
  have htake : Step cfg (forked cfg sub 2) (.snap 1 true)
      (next cfg (forked cfg sub 2) (.snap 1 true)) := ⟨hfirst, rfl⟩
  have hsub : (next cfg (forked cfg sub 2) (.snap 1 true)).sub 1 = some b := by
    simp only [next, if_true, hcopy, St.goto, Function.update_self]
  have htest : (next cfg (forked cfg sub 2) (.snap 1 true)).pc 2 = .test := by
    have hpc : (forked cfg sub 2).pc 2 = .test :=
      forked_test hstagger (by omega) (Nat.le_refl 2)
    simp only [next, if_true, hcopy]
    exact hpc
  refine early_of_test ((reach_forked hle).tail htake) (p := 2) (by omega) htest ?_ ?_
  · rw [hsub]
    exact Option.some_ne_none b
  · intro hready
    obtain ⟨-, b', hb', hdone'⟩ := hready
    rw [hsub] at hb'
    obtain rfl := Option.some.inj hb'
    exact hdone hdone'

theorem exists_early (hstagger : cfg.stagger = true) (h : ¬ Safe cfg sub) :
    ∃ tr t, Lts.Run (Step cfg) (init cfg sub) tr t ∧ ¬ Ordered tr := by
  unfold Safe at h
  push Not at h
  obtain ⟨p, hp, hle, himp⟩ := h
  by_cases hsub : sub (p - 1) = none
  · obtain ⟨b, hb, hdone⟩ := himp hsub
    by_cases h1 : sub 1 = none
    · exact early_of_copy hstagger (by omega) hb hdone h1
    · exact early_of_there hstagger (p := 2) (by omega) (by omega) h1
  · exact early_of_there hstagger hp hle hsub

/-- **The order of the snapshots.**  With `stagger=yes` every run is ordered exactly when the start is
safe.  In a run in which the workers leave their polling loops only when the other directory is
ready, it is ready whenever a worker is about to take its snapshot. -/
theorem snapshots_ordered_iff (hstagger : cfg.stagger = true) :
    ((∀ tr t, Lts.Run (Step cfg) (init cfg sub) tr t → Ordered tr) ↔ Safe cfg sub) ∧
      ∀ tr t, Lts.Run (Step cfg) (init cfg sub) tr t → (∀ x ∈ tr, Waits x.1 x.2.1 x.2.2) →
        ∀ x ∈ tr, ∀ p ok, 1 < p → x.2.1 = .snap p ok → Ready x.1 (p - 1) := by
  refine ⟨⟨?_, ?_⟩, ?_⟩
  · intro hall
    by_contra hunsafe
    obtain ⟨tr, t, hrun, hnot⟩ := exists_early hstagger hunsafe
    exact hnot (hall tr t hrun)
  · intro hsafe tr t hrun x hx p hp ha hsub
    obtain ⟨hcopied, hst, -⟩ := hrun.steps_inv copied_step (copied_init hsafe) x hx
    rw [ha] at hst
    exact hcopied.ready_of_snap hst.1 hp hsub
  · intro tr t hrun hwaits x hx p ok hp ha
    have hinit : Waited (init cfg sub) := fun _ _ h => by cases h
    obtain ⟨hwaited, hst, -⟩ :=
      (hrun.restrict hwaits).steps_inv (waited_step hstagger) hinit x hx
    have hen := hst.1.1
    rw [ha] at hen
    exact hwaited p hp hen

section Examples

/-- `stress/0` with one commit, and nothing else below `stress` -/
def fresh : ℕ → Option Sub := fun k => if k = 0 then some ⟨false, 1⟩ else none

def workers (n : ℤ) : Cfg where
  mountpoint := "/mnt".toList
  nconcurrent := n
  stagger := true
  home := none
  homeHeads := 0

/-- `stress/0` has `init-done`, so that every copy of it has. -/
def prepared : ℕ → Option Sub := fun k => if k = 0 then some ⟨true, 1⟩ else none

theorem prepared_safe : Safe (workers 2) prepared := by
  intro p hp hle
  have hle' : (p : ℤ) ≤ 2 := hle
  have heq : p = 2 := by omega
  rw [heq]
  refine ⟨rfl, ?_⟩
  intro b hb
  have hb' : some (⟨true, 1⟩ : Sub) = some b := hb
  cases hb'
  rfl

/-- the steps of worker 1, up to its first `touch` -/
def firstRound : List Act :=
  [.fork, .fork, .snap 1 true, .cd 1, .readList 1, .readHead 1, .checkout 1, .touch 1]

/-- Worker 2 tests and takes its snapshot after some steps that are no tests. -/
theorem waits_after {tr : List (St × Act × St)}
    (hrun : Lts.Run (Step (workers 2)) (init (workers 2) sub) tr s)
    (hlabels : tr.map (fun x => x.2.1) = firstRound) (hpc : s.pc 2 = .test) (hready : Ready s 1) :
    ∃ tr t, Lts.Run (Step (workers 2)) (init (workers 2) sub) tr t ∧
      (∀ x ∈ tr, Waits x.1 x.2.1 x.2.2) ∧ ∃ x ∈ tr, x.2.1 = .snap 2 true ∧ x.1.sub 1 ≠ none := by
  have htest : Step (workers 2) s (.test 2) (s.goto 2 .snap) := ⟨hpc, (next_test s 2).symm⟩
  have hsnap : Step (workers 2) (s.goto 2 .snap) (.snap 2 true) _ := ⟨goto_pc s 2 .snap, rfl⟩
  refine ⟨_, _, (hrun.snoc htest).snoc hsnap, ?_, _,
    List.mem_append_right _ (List.mem_singleton_self _), rfl, ?_⟩
  · simp only [List.forall_mem_append, List.forall_mem_singleton]
    refine ⟨⟨?_, ?_⟩, nofun⟩
    · intro x hx p hp
      have hmem := List.mem_map_of_mem (f := fun x => x.2.1) hx
      rw [hlabels, hp] at hmem
      simp [firstRound] at hmem
    · intro p hp _
      cases hp
      exact hready
  · obtain ⟨_, b, hb, _⟩ := hready
    show s.sub 1 ≠ none
    rw [hb]
    exact Option.some_ne_none b

/-- Two workers: where `stress/0` has `init-done`, every run is ordered; where it has not, a run in
which worker 2 waits for the first `touch` of worker 1 is. -/
theorem snapshots_ordered_iff_two :
    ((∀ tr t, Lts.Run (Step (workers 2)) (init (workers 2) prepared) tr t → Ordered tr) ∧
      ∃ tr t, Lts.Run (Step (workers 2)) (init (workers 2) prepared) tr t ∧
        ∃ x ∈ tr, x.2.1 = .snap 2 true ∧ x.1.sub 1 ≠ none) ∧
    ∃ tr t, Lts.Run (Step (workers 2)) (init (workers 2) fresh) tr t ∧
      (∀ x ∈ tr, Waits x.1 x.2.1 x.2.2) ∧
      ∃ x ∈ tr, x.2.1 = .snap 2 true ∧ x.1.sub 1 ≠ none ∧ Ready x.1 1 := by
  refine ⟨⟨(snapshots_ordered_iff rfl).1.mpr prepared_safe, ?_⟩, ?_⟩
  · have hall : Lts.AllEnabled (enabled (workers 2)) (next (workers 2))
        (init (workers 2) prepared) firstRound := by decide
    obtain ⟨tr, hrun, hlabels⟩ := Lts.Run.of_labels firstRound hall
    obtain ⟨tr', t, hrun', -, hex⟩ := waits_after hrun hlabels rfl ⟨rfl, ⟨true, 1⟩, rfl, rfl⟩
    exact ⟨tr', t, hrun', hex⟩
  · have hall : Lts.AllEnabled (enabled (workers 2)) (next (workers 2))
        (init (workers 2) fresh) firstRound := by decide
    obtain ⟨tr, hrun, hlabels⟩ := Lts.Run.of_labels firstRound hall
    obtain ⟨tr', t, hrun', hwaits, x, hx, ha, hsub⟩ :=
      waits_after hrun hlabels rfl ⟨rfl, ⟨true, 1⟩, rfl, rfl⟩
    exact ⟨tr', t, hrun', hwaits, x, hx, ha, hsub,
      (snapshots_ordered_iff rfl).2 tr' t hrun' hwaits x hx 2 true (by decide) ha⟩

/-- Worker 2 takes its snapshot before worker 1 has touched `init-done`. -/
theorem snapshot_early :
    ¬ ∀ tr t, Lts.Run (Step (workers 2)) (init (workers 2) fresh) tr t → Ordered tr := by
  intro hall
  have hreach : Lts.Reach (Step (workers 2)) (init (workers 2) fresh)
      ([Act.fork, .fork, .snap 1 true, .test 2].foldl (next (workers 2)) (init (workers 2) fresh)) :=
    Lts.Reach.of_labels _ (by decide)
  obtain ⟨tr, hrun⟩ := hreach
  have hlast := hrun.snoc (a := .snap 2 true) ⟨by decide, rfl⟩
  have hready := hall _ _ hlast _ (List.mem_append_right _ (List.mem_singleton_self _)) 2
    (by decide) rfl (by decide)
  obtain ⟨-, b, hb, hdone⟩ := hready
  cases hb
  cases hdone

end Examples

end GitAging
