import TestUnion.Synctest.Files
import Mathlib.Data.Nat.SuccPred
import Mathlib.Order.Interval.Finset.SuccPred
import Mathlib.Tactic.Common

/-!
# synctest: the names that a child holds

* `Owns`            the names with a given process id; they differ from those of other processes;
* `Call.apply_mem_iff`, `Call.apply_mem_other`   what a call makes of a name depends on that name alone, and
                    a name that the call does not mention is left alone;
* `held`            the names that the first `k` calls of a `do_child` leave;
* `held_length`     all of them leave nothing, with `-u`.
-/

namespace Synctest

variable {pid pid' fileno fileno' pass pass' : ℕ} {c : Call} {x : Name} {names names' : Finset Name}

/-! ## names -/

theorem mkDirname_inj {g g' : ℤ} (h : mkDirname g = mkDirname g') : g = g' := zeroPadInt_inj h

theorem mkFilename_inj (h : mkFilename pid fileno = mkFilename pid' fileno') :
    pid = pid' ∧ fileno = fileno' := by
  obtain ⟨h1, h2⟩ := split_at_sep (minus_notMem_zeroPad _ _) (minus_notMem_zeroPad _ _) h
  exact ⟨zeroPad_inj h1, zeroPad_inj h2⟩

theorem mkNewFilename_inj (h : mkNewFilename pid fileno pass = mkNewFilename pid' fileno' pass') :
    pid = pid' ∧ fileno = fileno' ∧ pass = pass' := by
  obtain ⟨h1, h2⟩ := split_at_sep (minus_notMem_zeroPad _ _) (minus_notMem_zeroPad _ _) h
  obtain ⟨hpid, hfileno⟩ := mkFilename_inj h2
  exact ⟨hpid, hfileno, zeroPad_inj h1⟩

/-- The second name has one `'-'` more. -/
theorem mkFilename_ne : mkFilename pid fileno ≠ mkNewFilename pid' fileno' pass := by
  intro h
  obtain ⟨-, h2⟩ := split_at_sep (minus_notMem_zeroPad _ _) (minus_notMem_zeroPad _ _) h
  have hmem : '-' ∈ zeroPad 5 fileno := by
    rw [h2]
    exact List.mem_append_right _ List.mem_cons_self
  exact minus_notMem_zeroPad _ _ hmem

def Owns (pid : ℕ) (x : Name) : Prop :=
  ∃ fileno, x = mkFilename pid fileno ∨ ∃ pass, x = mkNewFilename pid fileno pass

theorem Owns.unique (h : Owns pid x) (h' : Owns pid' x) : pid = pid' := by
  obtain ⟨fileno, h | ⟨pass, h⟩⟩ := h <;> obtain ⟨fileno', h' | ⟨pass', h'⟩⟩ := h'
  · exact (mkFilename_inj (h.symm.trans h')).1
  · exact absurd (h.symm.trans h') mkFilename_ne
  · exact absurd (h'.symm.trans h) mkFilename_ne
  · exact (mkNewFilename_inj (h.symm.trans h')).1

/-! ## one call -/

def Call.mentions : Call → List Name
  | .openDir => []
  | .create name => [name]
  | .rename name newname => [name, newname]
  | .unlink name => [name]

theorem Call.apply_mem_iff (c : Call) (h : x ∈ names ↔ x ∈ names') :
    x ∈ c.apply names ↔ x ∈ c.apply names' := by
  cases c with
  | openDir => exact h
  | create name => simp only [apply, Finset.mem_insert, h]
  | rename name newname => simp only [apply, Finset.mem_insert, Finset.mem_erase, h]
  | unlink name => simp only [apply, Finset.mem_erase, h]

theorem Call.apply_mem_other (h : x ∉ c.mentions) : x ∈ c.apply names ↔ x ∈ names := by
  cases c with
  | openDir => exact Iff.rfl
  | create name =>
    have hne : x ≠ name := fun e => h (by simp [mentions, e])
    simp only [apply, Finset.mem_insert, hne, false_or]
  | rename name newname =>
    have hne : x ≠ name := fun e => h (by simp [mentions, e])
    have hne' : x ≠ newname := fun e => h (by simp [mentions, e])
    simp only [apply, Finset.mem_insert, Finset.mem_erase, hne, hne', ne_eq, not_false_eq_true,
      true_and, false_or]
  | unlink name =>
    have hne : x ≠ name := fun e => h (by simp [mentions, e])
    simp only [apply, Finset.mem_erase, hne, ne_eq, not_false_eq_true, true_and]

/-! ## the calls of `do_child` mention names of the child only -/

theorem renameLoop_mentions {name : Name} {passes : List ℕ} (hname : Owns pid name)
    (hc : c ∈ renameLoop pid fileno name passes) (hx : x ∈ c.mentions) : Owns pid x := by
  induction passes generalizing name with
  | nil => simp [renameLoop] at hc
  | cons pass passes ih =>
    have hnew : Owns pid (mkNewFilename pid fileno pass) := ⟨fileno, .inr ⟨pass, rfl⟩⟩
    rcases List.mem_cons.mp hc with rfl | hc
    · simp only [Call.mentions, List.mem_cons, List.not_mem_nil, or_false] at hx
      rcases hx with rfl | rfl
      · exact hname
      · exact hnew
    · exact ih hnew hc

theorem unlinkOneFile_mentions {doUnlink : Bool}
    (hc : c ∈ unlinkOneFile doUnlink pid fileno pass) (hx : x ∈ c.mentions) : Owns pid x := by
  unfold unlinkOneFile at hc
  split at hc
  · rw [List.mem_singleton.mp hc] at hx
    exact ⟨fileno, .inr ⟨pass, List.mem_singleton.mp hx⟩⟩
  · cases hc

theorem fileRound_mentions {doUnlink : Bool} (hc : c ∈ fileRound doUnlink pid fileno)
    (hx : x ∈ c.mentions) : Owns pid x := by
  have hname : Owns pid (mkFilename pid fileno) := ⟨fileno, .inl rfl⟩
  unfold fileRound doOneFile at hc
  rcases List.mem_append.mp hc with hc | hc
  · rcases List.mem_cons.mp hc with rfl | hc
    · rw [List.mem_singleton.mp hx]
      exact hname
    · exact renameLoop_mentions hname hc hx
  · split at hc
    · exact unlinkOneFile_mentions hc hx
    · cases hc

theorem doChild_mentions {doUnlink : Bool} (hc : c ∈ doChild doUnlink pid) (hx : x ∈ c.mentions) :
    Owns pid x := by
  unfold doChild at hc
  rcases List.mem_cons.mp hc with rfl | hc
  · cases hx
  rcases List.mem_append.mp hc with hc | hc
  · obtain ⟨fileno, -, hc⟩ := List.mem_flatMap.mp hc
    exact fileRound_mentions hc hx
  · obtain ⟨fileno, -, hc⟩ := List.mem_flatMap.mp hc
    exact unlinkOneFile_mentions hc hx

/-! ## what the calls leave -/

def applyAll (calls : List Call) (names : Finset Name) : Finset Name :=
  calls.foldl (fun names c => c.apply names) names

@[simp] theorem applyAll_append (calls calls' : List Call) (names : Finset Name) :
    applyAll (calls ++ calls') names = applyAll calls' (applyAll calls names) :=
  List.foldl_append

theorem applyAll_openDir (calls : List Call) (names : Finset Name) :
    applyAll (.openDir :: calls) names = applyAll calls names := rfl

def held (doUnlink : Bool) (pid k : ℕ) : Finset Name :=
  applyAll ((doChild doUnlink pid).take k) ∅

@[simp] theorem held_zero (doUnlink : Bool) (pid : ℕ) : held doUnlink pid 0 = ∅ := by
  unfold held
  rw [List.take_zero]
  rfl

theorem held_succ {doUnlink : Bool} {k : ℕ} (h : (doChild doUnlink pid)[k]? = some c) :
    held doUnlink pid (k + 1) = c.apply (held doUnlink pid k) := by
  unfold held
  rw [List.take_add_one, h, applyAll_append]
  rfl

theorem held_owned {doUnlink : Bool} {k : ℕ} (h : x ∈ held doUnlink pid k) : Owns pid x := by
  induction k with
  | zero =>
    rw [held_zero] at h
    cases h
  | succ k ih =>
    by_cases hk : k < (doChild doUnlink pid).length
    · rw [held_succ (List.getElem?_eq_getElem hk)] at h
      by_cases hx : x ∈ ((doChild doUnlink pid)[k]).mentions
      · exact doChild_mentions (List.getElem_mem hk) hx
      · exact ih ((Call.apply_mem_other hx).mp h)
    · have hall : ∀ m, (doChild doUnlink pid).length ≤ m →
          held doUnlink pid m = applyAll (doChild doUnlink pid) ∅ := by
        intro m hm
        unfold held
        rw [List.take_of_length_le hm]
      rw [hall (k + 1) (by omega), ← hall k (by omega)] at h
      exact ih h

/-- the names of the files from `lo` to `hi` after their last rename -/
def renamed (pid lo hi : ℕ) : Finset Name :=
  (Finset.Ico lo hi).image fun fileno => mkNewFilename pid fileno (renamePasses - 1)

theorem mem_renamed {lo hi : ℕ} :
    x ∈ renamed pid lo hi ↔
      ∃ fileno, lo ≤ fileno ∧ fileno < hi ∧ mkNewFilename pid fileno (renamePasses - 1) = x := by
  simp [renamed, and_assoc]

theorem mkNewFilename_mem_renamed {lo hi : ℕ} :
    mkNewFilename pid fileno pass ∈ renamed pid lo hi ↔
      pass = renamePasses - 1 ∧ lo ≤ fileno ∧ fileno < hi := by
  rw [mem_renamed]
  refine ⟨?_, ?_⟩
  · intro h
    obtain ⟨fileno', hlo, hhi, heq⟩ := h
    obtain ⟨-, rfl, rfl⟩ := mkNewFilename_inj heq
    exact ⟨rfl, hlo, hhi⟩
  · intro h
    obtain ⟨rfl, hlo, hhi⟩ := h
    exact ⟨fileno, hlo, hhi, rfl⟩

theorem mkFilename_notMem_renamed {lo hi : ℕ} : mkFilename pid fileno ∉ renamed pid lo hi := by
  rw [mem_renamed]
  intro h
  obtain ⟨fileno', -, -, heq⟩ := h
  exact mkFilename_ne heq.symm

/-- The file ends under its last name; the names before it are gone again. -/
theorem applyAll_doOneFile {lo hi : ℕ} (hle : lo ≤ hi) :
    applyAll (doOneFile pid hi) (renamed pid lo hi) = renamed pid lo (hi + 1) := by
  have h0 : mkNewFilename pid hi 0 ∉ renamed pid lo hi := by
    rw [mkNewFilename_mem_renamed]
    omega
  have h1 : mkNewFilename pid hi 1 ∉ renamed pid lo hi := by
    rw [mkNewFilename_mem_renamed]
    omega
  have hcalls : applyAll (doOneFile pid hi) (renamed pid lo hi) =
      insert (mkNewFilename pid hi 2)
        ((insert (mkNewFilename pid hi 1)
          ((insert (mkNewFilename pid hi 0)
            ((insert (mkFilename pid hi) (renamed pid lo hi)).erase (mkFilename pid hi))).erase
              (mkNewFilename pid hi 0))).erase (mkNewFilename pid hi 1)) := rfl
  rw [hcalls, Finset.erase_insert mkFilename_notMem_renamed, Finset.erase_insert h0,
    Finset.erase_insert h1]
  unfold renamed
  have hico : Finset.Ico lo (hi + 1) = insert hi (Finset.Ico lo hi) :=
    (Finset.insert_Ico_right_eq_Ico_succ hle).symm
  rw [hico, Finset.image_insert]
  rfl

theorem applyAll_unlinkOneFile {lo hi : ℕ} (hlt : lo < hi) :
    applyAll (unlinkOneFile true pid lo (renamePasses - 1)) (renamed pid lo hi) =
      renamed pid (lo + 1) hi := by
  have hcalls : applyAll (unlinkOneFile true pid lo (renamePasses - 1)) (renamed pid lo hi) =
      (renamed pid lo hi).erase (mkNewFilename pid lo (renamePasses - 1)) := rfl
  have hnot : mkNewFilename pid lo (renamePasses - 1) ∉ renamed pid (lo + 1) hi := by
    rw [mkNewFilename_mem_renamed]
    omega
  have hins : renamed pid lo hi =
      insert (mkNewFilename pid lo (renamePasses - 1)) (renamed pid (lo + 1) hi) := by
    have hico : Finset.Ico lo hi = insert lo (Finset.Ico (lo + 1) hi) :=
      (Finset.insert_Ico_succ_left_eq_Ico hlt).symm
    unfold renamed
    rw [hico, Finset.image_insert]
  rw [hcalls, hins, Finset.erase_insert hnot]

/-- After `n` rounds of the first loop the last `unlinkLag` files are there. -/
theorem applyAll_fileRounds (n : ℕ) :
    applyAll ((List.range n).flatMap (fileRound true pid)) ∅ = renamed pid (n - unlinkLag) n := by
  induction n with
  | zero => rfl
  | succ n ih =>
    rw [List.range_succ, List.flatMap_append, applyAll_append, ih, List.flatMap_singleton]
    unfold fileRound
    rw [applyAll_append, applyAll_doOneFile (Nat.sub_le _ _)]
    split
    · next hlag =>
      have hpos : n - unlinkLag < n + 1 := by omega
      rw [applyAll_unlinkOneFile hpos, Nat.sub_add_comm hlag]
    · next hlag =>
      have heq : n - unlinkLag = n + 1 - unlinkLag := by omega
      rw [← heq]
      rfl

theorem applyAll_unlinks (pid lo k : ℕ) :
    applyAll ((List.range' lo k).flatMap fun fileno =>
      unlinkOneFile true pid fileno (renamePasses - 1)) (renamed pid lo (lo + k)) = ∅ := by
  induction k generalizing lo with
  | zero =>
    unfold renamed
    rw [Nat.add_zero, Finset.Ico_self]
    rfl
  | succ k ih =>
    rw [List.range'_succ, List.flatMap_cons, applyAll_append, applyAll_unlinkOneFile (by omega)]
    have heq : lo + (k + 1) = lo + 1 + k := by omega
    rw [heq]
    exact ih (lo + 1)

/-- **Every file that a `do_child` creates is unlinked again.** -/
theorem held_length (pid : ℕ) : held true pid (doChild true pid).length = ∅ := by
  have hlag : nFiles = nFiles - unlinkLag + unlinkLag := rfl
  have hunlinks := applyAll_unlinks pid (nFiles - unlinkLag) unlinkLag
  rw [← hlag] at hunlinks
  unfold held doChild
  rw [List.take_length, applyAll_openDir, applyAll_append, applyAll_fileRounds]
  exact hunlinks

end Synctest
