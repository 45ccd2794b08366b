import TestUnion.Seekmark.Threads

/-!
# seekmark: the offsets

* `Globals.Valid`, `getargs_valid`   what the checks of `getargs` ensure;
* `Io.Inside`       the offset is aligned and leaves room for the block, and a write stays below `size`;
* `Roomy`           the target has at least one block, and the exponent is one that can be shifted by;
* `inside_iff_roomy`   every iteration of every run is inside iff this is so.
-/

namespace Seekmark

open CInt

/-! ## getargs -/

structure Globals.Valid (g : Globals) : Prop where
  seeks : 1 ≤ g.seeks.toInt
  numthreads : 1 ≤ g.numthreads.toInt
  sizelimit : 0 ≤ g.sizelimit.toInt
  block : 1 ≤ g.block.toInt ∧ g.block.toInt ≤ 1048577
  align : 0 ≤ g.align.toInt

section
variable {g g' : Globals} {o : Opt} {opts : List Opt}

theorem not_lt_one {v : Int32} (h : ¬ v < 1) : 1 ≤ v.toInt := by
  rw [Int32.lt_iff_toInt_lt] at h
  exact not_lt.mp h

theorem guard_some {α : Type*} {bad : Prop} [Decidable bad] {a b : α}
    (h : (if bad then none else some a) = some b) : ¬ bad ∧ a = b := by
  obtain ⟨hnot, heq⟩ := Option.ite_none_left_eq_some.mp h
  exact ⟨hnot, Option.some.inj heq⟩

theorem getopt_valid (hg : g.Valid) (h : getopt g o = some g') : g'.Valid := by
  cases o with
  | f name =>
    obtain ⟨_, rfl⟩ := guard_some h
    exact ⟨hg.seeks, hg.numthreads, hg.sizelimit, hg.block, hg.align⟩
  | S limit =>
    obtain ⟨hlimit, rfl⟩ := guard_some h
    rw [Int64.lt_iff_toInt_lt] at hlimit
    exact ⟨hg.seeks, hg.numthreads, not_lt.mp hlimit, hg.block, hg.align⟩
  | t threads =>
    obtain ⟨hthreads, rfl⟩ := guard_some h
    exact ⟨hg.seeks, not_lt_one hthreads, hg.sizelimit, hg.block, hg.align⟩
  | a align =>
    obtain ⟨halign, rfl⟩ := guard_some h
    have hpos := not_lt_one halign
    exact ⟨hg.seeks, hg.numthreads, hg.sizelimit, hg.block, show 0 ≤ align.toInt by omega⟩
  | s seeks =>
    obtain ⟨hseeks, rfl⟩ := guard_some h
    exact ⟨not_lt_one hseeks, hg.numthreads, hg.sizelimit, hg.block, hg.align⟩
  | h => cases h
  | w arg =>
    obtain ⟨_, rfl⟩ := guard_some h
    exact ⟨hg.seeks, hg.numthreads, hg.sizelimit, hg.block, hg.align⟩
  | R =>
    cases h
    exact ⟨hg.seeks, hg.numthreads, hg.sizelimit, hg.block, hg.align⟩
  | i block =>
    obtain ⟨hblock, rfl⟩ := guard_some h
    obtain ⟨hmin, hmax⟩ := not_or.mp hblock
    rw [gt_iff_lt, Int32.lt_iff_toInt_lt] at hmax
    exact ⟨hg.seeks, hg.numthreads, hg.sizelimit, ⟨not_lt_one hmin, not_lt.mp hmax⟩, hg.align⟩
  | q =>
    cases h
    exact ⟨hg.seeks, hg.numthreads, hg.sizelimit, hg.block, hg.align⟩
  | d delay =>
    obtain ⟨_, rfl⟩ := guard_some h
    exact ⟨hg.seeks, hg.numthreads, hg.sizelimit, hg.block, hg.align⟩
  | e =>
    cases h
    exact ⟨hg.seeks, hg.numthreads, hg.sizelimit, hg.block, hg.align⟩
  | unknown =>
    cases h
    exact hg

theorem foldlM_valid (hg : g.Valid) (h : opts.foldlM getopt g = some g') : g'.Valid := by
  induction opts generalizing g with
  | nil =>
    cases h
    exact hg
  | cons o opts ih =>
    rw [List.foldlM_cons] at h
    obtain ⟨g₁, h1, h2⟩ := Option.bind_eq_some_iff.mp h
    exact ih (getopt_valid hg h1) h2

theorem getargs_valid (h : getargs opts = some g) : g.Valid := by
  obtain ⟨g', hfold, hlast⟩ := Option.bind_eq_some_iff.mp h
  have hstart : Globals.Valid {} := ⟨by decide, by decide, by decide, by decide, by decide⟩
  split at hlast
  · cases hlast
    exact foldlM_valid hstart hfold
  · cases hlast

theorem targetSize_nonneg (hg : g.Valid) {seekEnd size : Int64} (hend : -1 ≤ seekEnd.toInt)
    (h : targetSize g seekEnd = some size) : 0 ≤ size.toInt := by
  unfold targetSize at h
  dsimp only at h
  by_cases hlimit : g.sizelimit > 0
  · rw [if_pos hlimit] at h
    split at h
    · cases h
    · cases h
      exact hg.sizelimit
  · rw [if_neg hlimit] at h
    split at h
    · cases h
    · next hne =>
      cases h
      have hne' : seekEnd.toInt ≠ -1 := fun e => hne (Int64.toInt.inj e)
      omega

end

/-! ## the offset -/

structure Io.Inside (g : Globals) (size : Int64) (io : Io) : Prop where
  aligned : (2 : ℤ) ^ g.align.toInt.toNat ∣ io.offset.toInt
  nonneg : 0 ≤ io.offset.toInt
  room : io.offset.toInt + g.block.toInt ≤ size.toInt
  written : g.writetest = true → 0 < io.bytes → (io.pos : ℤ) + io.bytes ≤ size.toInt

/-- A larger exponent does no harm only when there is a single offset, 0. -/
def Roomy (g : Globals) (size : Int64) : Prop :=
  g.block.toInt ≤ size.toInt ∧ (g.align.toInt < 32 ∨ size.toInt = g.block.toInt)

section
variable {g : Globals} {size draw : Int64} {mask : Int32} (hg : g.Valid)
include hg

/-- The first iteration of the first thread can take any draw. -/
theorem first_step (R : RandR) (target : Target) (draw : Int64) (h0 : 0 ≤ draw.toInt)
    (hle : draw.toInt ≤ size.toInt) (hmask : Mask g.align mask) (state : UInt32) :
    ∃ s, Step R target g size start
      (seekThenReadWrite R target g (seekOffset g size draw mask) 0 state 0) s := by
  have hthreads := hg.numthreads
  have hseeks := hg.seeks
  have hblock := hg.block
  refine ⟨_, .iteration (k := 0) (by push_cast; omega) ?_ (Int64.le_iff_toInt_le.mpr h0)
    (Int64.le_iff_toInt_le.mpr hle) hmask rfl ⟨?_, fun _ _ h => absurd h (lt_irrefl 0)⟩⟩
  · rw [Int32.lt_iff_toInt_lt]
    show (0 : ℤ) < _
    omega
  · show (0 : ℤ) ≤ _
    omega

theorem exists_mask_neg : ∃ mask, Mask g.align mask ∧ mask.toInt64.toInt < 0 := by
  have hneg : ∀ k : Fin 32, (~~~0 <<< Int32.ofNat k : Int32).toInt64.toInt < 0 := by decide
  by_cases hlt : g.align.toInt < 32
  · have halign := hg.align
    have hk : g.align = Int32.ofNat g.align.toInt.toNat := by
      apply Int32.toInt.inj
      rw [toInt_ofNat (by omega), Int.toNat_of_nonneg halign]
    refine ⟨~~~0 <<< g.align, fun _ => rfl, ?_⟩
    rw [hk]
    exact hneg ⟨g.align.toInt.toNat, by omega⟩
  · exact ⟨-1, fun h => absurd h hlt, by decide⟩

variable (hsize : 0 ≤ size.toInt)
include hsize

theorem last_toInt : (size - g.block.toInt64).toInt = size.toInt - g.block.toInt := by
  have hblock := hg.block
  have hlt := size.toInt_lt
  rw [Int64.toInt_sub, Int32.toInt_toInt64, Int.bmod_eq_of_le (by omega) (by omega)]

theorem position_toInt :
    (position g size draw).toInt = min draw.toInt (size.toInt - g.block.toInt) := by
  have hlast := last_toInt hg hsize
  unfold position
  split
  · next h =>
    rw [gt_iff_lt, Int64.lt_iff_toInt_lt, hlast] at h
    omega
  · next h =>
    rw [gt_iff_lt, Int64.lt_iff_toInt_lt, hlast] at h
    omega

/-- The mask rounds the position down. -/
theorem seekOffset_shifted (hroom : g.block.toInt ≤ size.toInt) (hdraw : 0 ≤ draw.toInt)
    (halign : g.align.toInt < 32) (hmask : Mask g.align mask) :
    (seekOffset g size draw mask).toInt =
      min draw.toInt (size.toInt - g.block.toInt) / 2 ^ g.align.toInt.toNat *
        2 ^ g.align.toInt.toNat := by
  have hpos : 0 ≤ (position g size draw).toInt := by
    rw [position_toInt hg hsize]
    omega
  have hk : g.align = Int32.ofNat g.align.toInt.toNat := by
    apply Int32.toInt.inj
    rw [toInt_ofNat (by have := hg.align; omega), Int.toNat_of_nonneg hg.align]
  have halign' := hg.align
  rw [← position_toInt hg hsize, ← toInt_and_shifted (by omega) hpos, ← hk, ← hmask halign]
  rfl

theorem seekOffset_inside (hroomy : Roomy g size) (hdraw : 0 ≤ draw.toInt)
    (hmask : Mask g.align mask) :
    (2 : ℤ) ^ g.align.toInt.toNat ∣ (seekOffset g size draw mask).toInt ∧
      0 ≤ (seekOffset g size draw mask).toInt ∧
      (seekOffset g size draw mask).toInt + g.block.toInt ≤ size.toInt := by
  obtain ⟨hroom, halign⟩ := hroomy
  by_cases hlt : g.align.toInt < 32
  · have hoff := seekOffset_shifted hg hsize hroom hdraw hlt hmask
    have hpow : (0 : ℤ) < 2 ^ g.align.toInt.toNat := by positivity
    have hle := Int.ediv_mul_le (min draw.toInt (size.toInt - g.block.toInt)) hpow.ne'
    have hnonneg := Int.mul_nonneg (Int.ediv_nonneg
      (show 0 ≤ min draw.toInt (size.toInt - g.block.toInt) by omega) hpow.le) hpow.le
    rw [hoff]
    exact ⟨Int.dvd_mul_left _ _, hnonneg, by omega⟩
  · -- the position is 0
    have heq := halign.resolve_left hlt
    have hzero : position g size draw = 0 := by
      apply Int64.toInt.inj
      rw [position_toInt hg hsize, heq, sub_self, min_eq_right hdraw]
      rfl
    have hoff : seekOffset g size draw mask = 0 := by
      unfold seekOffset
      rw [hzero, Int64.zero_and]
    rw [hoff]
    exact ⟨Int.dvd_zero _, Int.le_refl 0, by show 0 + _ ≤ _; omega⟩

/-- An iteration of a thread with a target that is large enough. -/
theorem step_inside {R : RandR} {target : Target} (hroomy : Roomy g size) {s s' : St} {io : Io}
    (h : Step R target g size s io s') : io.Inside g size := by
  obtain ⟨lt, more, nonneg, le, shift, rfl, possible⟩ := h
  obtain ⟨hdvd, h0, hroom⟩ := seekOffset_inside hg hsize hroomy
    (Int64.le_iff_toInt_le.mp nonneg) shift
  refine ⟨hdvd, h0, hroom, ?_⟩
  intro _ hbytes
  have hblock := possible.block
  have hstop := possible.stop
  show ((target.lseek _ _ : ℕ) : ℤ) + _ ≤ _
  change ∀ stop ∈ target.stop, _ → target.lseek _ _ + _ ≤ stop at hstop
  unfold Target.lseek at hstop ⊢
  split
  · rw [Int.toNat_of_nonneg h0]
    change (_ : ℤ) ≤ _ at hblock
    omega
  · next hfail =>
    -- the device ends before the offset
    rw [if_neg hfail] at hstop
    obtain ⟨stop, hmem, hlt⟩ : ∃ stop ∈ target.stop, (stop : ℤ) < (seekOffset g size _ _).toInt := by
      by_contra hnone
      push Not at hnone
      exact hfail ⟨h0, hnone⟩
    have hle := hstop stop hmem hbytes
    omega

theorem roomy_of_inside (R : RandR) (target : Target)
    (h : ∀ io s, Step R target g size start io s → io.Inside g size) : Roomy g size := by
  have hblock := hg.block
  have hroom : g.block.toInt ≤ size.toInt := by
    by_contra hlt
    obtain ⟨mask, hmask, hneg⟩ := exists_mask_neg hg
    obtain ⟨s, hstep⟩ := first_step hg R target 0 (Int.le_refl 0) hsize hmask 0
    have hoff := (h _ _ hstep).nonneg
    have hpos : (position g size 0).toInt < 0 := by
      rw [position_toInt hg hsize]
      exact lt_of_le_of_lt (min_le_right _ _) (by omega)
    exact absurd hoff (not_le.mpr (toInt_and_neg hpos hneg))
  refine ⟨hroom, ?_⟩
  by_contra hnot
  obtain ⟨halign, hne⟩ := not_or.mp hnot
  -- the offset 1 is a multiple of no power
  have hmask : Mask g.align (-1) := fun hlt => absurd hlt halign
  obtain ⟨s, hstep⟩ := first_step hg R target 1 (by decide)
    (show 1 ≤ size.toInt by omega) hmask 0
  have hoff : (seekOffset g size 1 (-1)).toInt = 1 := by
    have hpos : (position g size 1).toInt = _ := position_toInt hg hsize
    have hone : (1 : Int64).toInt = 1 := rfl
    rw [hone, min_eq_left (by omega)] at hpos
    have hand : seekOffset g size 1 (-1) = position g size 1 := Int64.and_neg_one
    rw [hand, hpos]
  have hdvd : (2 : ℤ) ^ g.align.toInt.toNat ∣ (seekOffset g size 1 (-1)).toInt := (h _ _ hstep).aligned
  rw [hoff] at hdvd
  have hle := Int.le_of_dvd Int.one_pos hdvd
  have hpow : (2 : ℤ) ^ 1 ≤ 2 ^ g.align.toInt.toNat :=
    pow_le_pow_right₀ (by norm_num) (by omega)
  omega

end

/-- In every run all offsets and all writes are inside iff the target has room for a block and the
exponent is at most 31, or the target is just one block. -/
theorem inside_iff_roomy {opts : List Opt} {g : Globals} {seekEnd size : Int64}
    (hargs : getargs opts = some g) (hend : -1 ≤ seekEnd.toInt)
    (hsize : targetSize g seekEnd = some size) (R : RandR) (target : Target) :
    (∀ tr s, Lts.Run (Step R target g size) start tr s → ∀ x ∈ tr, x.2.1.Inside g size) ↔
      Roomy g size := by
  have hg := getargs_valid hargs
  have hnonneg := targetSize_nonneg hg hend hsize
  refine ⟨?_, ?_⟩
  · intro hall
    apply roomy_of_inside hg hnonneg R target
    intro io s hstep
    exact hall _ _ (.single hstep) _ List.mem_cons_self
  · intro hroomy tr s hrun x hx
    obtain ⟨-, hstep, -⟩ := hrun.steps_inv (I := fun _ => True) (fun _ _ _ _ _ => trivial) trivial x hx
    exact step_inside hg hnonneg hroomy hstep

section Examples

/-- `-f f -a 9 -w destroy-data` -/
def alignedWrite : List Opt := [.f ['f'], .a 9, .w "destroy-data".toList]

theorem inside_iff_roomy_aligned : ∃ g, getargs alignedWrite = some g ∧
    targetSize g 4096 = some 4096 ∧
    ((∀ tr s, Lts.Run (Step glibcRandR ⟨none⟩ g 4096) start tr s → ∀ x ∈ tr, x.2.1.Inside g 4096) ↔
      Roomy g 4096) := by
  have hargs : getargs alignedWrite =
      some { file := ['f'], align := 9, writetest := true, gotrequired := true } := rfl
  have hend : -1 ≤ (4096 : Int64).toInt := by decide
  exact ⟨_, hargs, rfl, inside_iff_roomy hargs hend rfl glibcRandR ⟨none⟩⟩

/-- The first offset in a file of 100 bytes is negative. -/
theorem offset_outside : ¬ ∀ opts g seekEnd size (R : RandR) target, getargs opts = some g →
    0 ≤ seekEnd.toInt → targetSize g seekEnd = some size →
    ∀ tr s, Lts.Run (Step R target g size) start tr s → ∀ x ∈ tr, x.2.1.Inside g size := by
  intro hall
  have hargs : getargs [.f ['f']] = some { file := ['f'], gotrequired := true } := rfl
  have hg := getargs_valid hargs
  have h := hall _ _ 100 100 glibcRandR ⟨none⟩ hargs (by decide) rfl
  have hroomy := roomy_of_inside hg (by decide) glibcRandR ⟨none⟩ fun io s hstep =>
    h _ _ (.single hstep) _ List.mem_cons_self
  exact absurd hroomy.1 (by decide)

end Examples

end Seekmark
