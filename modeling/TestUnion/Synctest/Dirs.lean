import TestUnion.Synctest.Sound

/-!
# synctest: the directories that are made and removed

With `t` children to a directory the fork loop makes `groups t n` of them, that is `n / t` rounded up,
and the remove loop removes the first `n / t`.

* `groups_eq_div`   the two numbers agree exactly when `t` divides `n`;
* `DirInv`          the books of `doit` in each part of its code;
* `DirInv.step`     every step keeps them.
-/

namespace Synctest

variable {cfg : Cfg} {t : ℕ} {s : St cfg}

/-- the directories that hold `k` children, `t` to a directory -/
def groups (t k : ℕ) : ℕ := (k + t - 1) / t

theorem groups_succ (ht : 0 < t) (k : ℕ) :
    groups t (k + 1) = if k % t = 0 then groups t k + 1 else groups t k := by
  have hdvd : t ∣ k + t - 1 + 1 ↔ k % t = 0 := by
    have heq : k + t - 1 + 1 = k + t := by omega
    rw [heq, Nat.dvd_add_self_right, Nat.dvd_iff_mod_eq_zero]
  unfold groups
  have heq : k + 1 + t - 1 = k + t - 1 + 1 := by omega
  rw [heq, Nat.succ_div]
  simp only [hdvd]
  split <;> omega

/-- The last directory is the one of the last child. -/
theorem groups_succ_eq (ht : 0 < t) (k : ℕ) : groups t (k + 1) = k / t + 1 := by
  unfold groups
  have heq : k + 1 + t - 1 = k + t := by omega
  rw [heq, Nat.add_div_right k ht]

theorem lt_groups (ht : 0 < t) {g k : ℕ} : g < groups t k ↔ g * t < k := by
  unfold groups
  rw [← Nat.succ_le_iff, Nat.le_div_iff_mul_le ht, Nat.succ_mul]
  omega

/-- Child `k` opens group `g` when the earlier children leave it empty. -/
theorem first_of_group (ht : 0 < t) {g k : ℕ} (hlt : g * t < k + 1) (hge : ¬ g * t < k) :
    k % t = 0 ∧ k / t = g := by
  have heq : k = g * t := by omega
  rw [heq, Nat.mul_mod_left, Nat.mul_div_cancel _ ht]
  exact ⟨rfl, rfl⟩

theorem div_le_groups (t n : ℕ) : n / t ≤ groups t n := by
  rcases Nat.eq_zero_or_pos t with rfl | ht
  · rw [Nat.div_zero]
    exact Nat.zero_le _
  · exact Nat.div_le_div_right (by omega)

theorem groups_eq_div (ht : 0 < t) (n : ℕ) : groups t n = n / t ↔ t ∣ n := by
  refine ⟨?_, ?_⟩
  · intro h
    have hlt : ¬ n / t * t < n := fun hlt => absurd ((lt_groups ht).mpr hlt) (by omega)
    have hle : n / t * t ≤ n := Nat.div_mul_le_self n t
    exact ⟨n / t, by rw [Nat.mul_comm]; omega⟩
  · intro h
    have hlt : ¬ n / t < groups t n := by
      rw [lt_groups ht, Nat.div_mul_cancel h]
      exact lt_irrefl n
    exact Nat.le_antisymm (not_lt.mp hlt) (div_le_groups t n)

def castRange (n : ℕ) : List ℤ := (List.range n).map (fun k => (k : ℤ))

theorem mem_castRange {n : ℕ} {g : ℤ} : g ∈ castRange n ↔ ∃ k < n, (k : ℤ) = g := by
  simp [castRange, eq_comm]

theorem castRange_succ (n : ℕ) : castRange (n + 1) = castRange n ++ [(n : ℤ)] := by
  simp [castRange, List.range_succ]

theorem castRange_inj {n m : ℕ} (h : (castRange n).toFinset = (castRange m).toFinset) : n = m := by
  have hlt : ∀ k, k < n ↔ k < m := by
    intro k
    have hk := Finset.ext_iff.mp h (k : ℤ)
    simpa only [List.mem_toFinset, mem_castRange, Nat.cast_inj, exists_eq_right] using hk
  have h1 := hlt n
  have h2 := hlt m
  omega

/-! ## which directories are made and removed -/

structure DirInv (t : ℕ) (s : St cfg) : Prop where
  made : s.madeDirs = castRange (groups t s.thisChildIndex)
  forking : s.parent = .forkLoop → s.threadGroup + 1 = groups t s.thisChildIndex
  before : s.parent.removing = false → s.removedDirs = []
  removing : s.parent = .removeLoop →
    ∃ k : ℕ, s.threadGroup = k ∧ k ≤ cfg.nThreads / t ∧ s.removedDirs = castRange k
  exited : s.parent = .exit0 → s.removedDirs = castRange (cfg.nThreads / t)
  forked : s.parent.removing = true → s.thisChildIndex = cfg.nThreads

theorem dirInv_init (left : ℤ) (ht : 0 < t) : DirInv t (init cfg left) where
  made := by
    have h0 : groups t 0 = 0 := by
      unfold groups
      exact Nat.div_eq_of_lt (by omega)
    simp only [init, h0]
    rfl
  forking _ := by
    have h0 : groups t 0 = 0 := by
      unfold groups
      exact Nat.div_eq_of_lt (by omega)
    simp only [init, h0]
    rfl
  before _ := rfl
  removing h := by cases h
  exited h := by cases h
  forked h := by cases h

/-- a step that leaves the directories alone, outside the remove loop -/
theorem DirInv.frame (h : DirInv t s) {s' : St cfg} (hmade : s'.madeDirs = s.madeDirs)
    (hremoved : s'.removedDirs = s.removedDirs) (hgroup : s'.threadGroup = s.threadGroup)
    (hidx : s'.thisChildIndex = s.thisChildIndex)
    (hpc : s'.parent = s.parent ∨
      (s'.parent.forking = false ∧ s'.parent.removing = false ∧ s.parent.removing = false)) :
    DirInv t s' := by
  rcases hpc with hpc | ⟨hfork, hafter, hbefore⟩
  · refine ⟨?_, ?_, ?_, ?_, ?_, ?_⟩
    · rw [hmade, hidx]; exact h.made
    · rw [hpc, hgroup, hidx]; exact h.forking
    · rw [hpc, hremoved]; exact h.before
    · rw [hpc, hgroup, hremoved]; exact h.removing
    · rw [hpc, hremoved]; exact h.exited
    · rw [hpc, hidx]; exact h.forked
  · refine ⟨?_, ?_, fun _ => ?_, ?_, ?_, ?_⟩
    · rw [hmade, hidx]; exact h.made
    · intro e
      rw [e] at hfork
      cases hfork
    · rw [hremoved]; exact h.before hbefore
    · intro e
      rw [e] at hafter
      cases hafter
    · intro e
      rw [e] at hafter
      cases hafter
    · intro e
      rw [hafter] at e
      cases e

theorem newDir_iff (ht : cfg.threadsPerDir = t) : newDir s ↔ s.thisChildIndex % t = 0 := by
  unfold newDir
  rw [ht, Int.tmod_eq_emod_of_nonneg (Int.natCast_nonneg _)]
  norm_cast

/-- what a round of the fork loop does with the directories -/
theorem forkRound_dirs (ht : cfg.threadsPerDir = t) (hpos : 0 < t) (h : DirInv t s)
    (hp : s.parent = .forkLoop) (hlt : s.thisChildIndex < cfg.nThreads) :
    (forkRound s).parent = .forkLoop ∧ (forkRound s).thisChildIndex = s.thisChildIndex + 1 ∧
      (forkRound s).threadGroup + 1 = groups t (s.thisChildIndex + 1) ∧
      (forkRound s).madeDirs = castRange (groups t (s.thisChildIndex + 1)) ∧
      (forkRound s).removedDirs = s.removedDirs := by
  have h0 : cfg.threadsPerDir ≠ 0 := by omega
  have hgroup := h.forking hp
  unfold forkRound
  rw [if_neg h0, dif_pos hlt, groups_succ hpos]
  by_cases hd : s.thisChildIndex % t = 0
  · rw [if_pos ((newDir_iff ht).mpr hd), if_pos hd]
    refine ⟨hp, rfl, ?_, ?_, rfl⟩
    · push_cast
      rw [← hgroup]
    · rw [castRange_succ, h.made, ← hgroup]
  · rw [if_neg (mt (newDir_iff ht).mp hd), if_neg hd]
    exact ⟨hp, rfl, hgroup, h.made, rfl⟩

theorem DirInv.fork (ht : cfg.threadsPerDir = t) (hpos : 0 < t) (h : DirInv t s)
    (hp : s.parent = .forkLoop) (hlt : s.thisChildIndex < cfg.nThreads) :
    DirInv t (forkRound s) := by
  obtain ⟨hpc, hidx, hgroup, hmade, hremoved⟩ := forkRound_dirs ht hpos h hp hlt
  refine ⟨?_, fun _ => ?_, fun _ => ?_, ?_, ?_, ?_⟩
  · rw [hmade, hidx]
  · rw [hgroup, hidx]
  · rw [hremoved]
    exact h.before (by rw [hp]; rfl)
  · intro e
    rw [hpc] at e
    cases e
  · intro e
    rw [hpc] at e
    cases e
  · intro e
    rw [hpc] at e
    cases e

/-- With `threads_per_dir` positive the quotient of C is the one of the natural numbers. -/
theorem quotient_eq (ht : cfg.threadsPerDir = t) :
    (cfg.nThreads : ℤ).tdiv cfg.threadsPerDir = (cfg.nThreads / t : ℕ) := by
  rw [ht, Int.tdiv_eq_ediv_of_nonneg (Int.natCast_nonneg _)]
  norm_cast

theorem DirInv.remove (ht : cfg.threadsPerDir = t) (h : DirInv t s) (hp : s.parent = .removeLoop) :
    DirInv t (removeRound s) := by
  obtain ⟨k, hk, hle, hremoved⟩ := h.removing hp
  unfold removeRound
  rw [quotient_eq ht, hk]
  split
  · next hlt =>
    have hlt' : k < cfg.nThreads / t := by exact_mod_cast hlt
    refine ⟨h.made, ?_, ?_, fun _ => ⟨k + 1, rfl, hlt', ?_⟩, ?_, h.forked⟩
    · intro e
      rw [hp] at e
      cases e
    · intro e
      rw [hp] at e
      cases e
    · rw [castRange_succ, hremoved]
    · intro e
      rw [hp] at e
      cases e
  · next hge =>
    have hge' : ¬ k < cfg.nThreads / t := fun hlt => hge (by exact_mod_cast hlt)
    have heq : k = cfg.nThreads / t := by omega
    refine ⟨h.made, ?_, ?_, ?_, fun _ => ?_, fun _ => h.forked (by rw [hp]; rfl)⟩
    · intro e
      cases e
    · intro e
      cases e
    · intro e
      cases e
    · rw [hremoved, heq]

theorem DirInv.step (ht : cfg.threadsPerDir = t) (hpos : 0 < t) (h : DirInv t s) (hi : Inv s)
    {a : Act cfg} (he : enabled s a) : DirInv t (next s a) := by
  cases a with
  | fork => exact h.fork ht hpos he.1 he.2
  | mkdirFails =>
    exact h.frame rfl rfl rfl rfl (.inr ⟨rfl, rfl, by rw [he.1]; rfl⟩)
  | forksDone =>
    exact h.frame rfl rfl rfl rfl (.inr ⟨rfl, rfl, by rw [he.1]; rfl⟩)
  | testLeft =>
    have hp : s.parent = .whileLoop := he
    have hbefore := h.before (by rw [hp]; rfl)
    simp only [next]
    split
    · refine ⟨h.made, ?_, ?_, fun _ => ⟨0, rfl, Nat.zero_le _, hbefore⟩, ?_,
        fun _ => hi.forked (by rw [hp]; rfl)⟩
      · intro e
        cases e
      · intro e
        cases e
      · intro e
        cases e
    · exact h.frame rfl rfl rfl rfl (.inr ⟨rfl, rfl, by rw [hp]; rfl⟩)
  | reap i =>
    obtain ⟨hp, hi⟩ := he
    simp only [next]
    split
    · exact h.frame rfl rfl rfl rfl (.inr ⟨rfl, rfl, by rw [hp]; rfl⟩)
    · exact h
  | eintr => exact h.frame rfl rfl rfl rfl (.inr ⟨rfl, rfl, by rw [he.1]; rfl⟩)
  | echild => exact h.frame rfl rfl rfl rfl (.inr ⟨rfl, rfl, by rw [he.1]; rfl⟩)
  | scanSlot =>
    simp only [next]
    split
    · next c hp =>
      have hbefore : s.parent.removing = false := by rw [hp]; rfl
      unfold scanRound
      split
      · split
        · exact h.frame rfl rfl rfl rfl (.inr ⟨rfl, rfl, hbefore⟩)
        · exact h.frame rfl rfl rfl rfl (.inr ⟨rfl, rfl, hbefore⟩)
      · exact h.frame rfl rfl rfl rfl (.inr ⟨rfl, rfl, hbefore⟩)
    · exact h
  | removeDir => exact h.remove ht he
  | doChild i => exact h.frame rfl rfl rfl rfl (.inl rfl)
  | childError i => exact h.frame rfl rfl rfl rfl (.inl rfl)
  | writeSlot i => exact h.frame rfl rfl rfl rfl (.inl rfl)
  | childExit i => exact h.frame rfl rfl rfl rfl (.inl rfl)

end Synctest
