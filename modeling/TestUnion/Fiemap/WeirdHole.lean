import TestUnion.Fiemap.Bytes

/-!
# fiemap-test: `check_weird_fs_hole`, and what `check_hole` sees of a hole

* `OpenFile`        the open file: its bytes, what the FIBMAP calls return, and whether `pread` fails;
* `OpenFile.pread`  the buffer after a `pread` into it;
* `checkWeirdFsHole`   the function, with the memory that `malloc` returns and the static variable
                    `warning_printed`;
* `checkHoleCalls`  `check_hole` with the calls of `check_weird_fs_hole` that it has made;
* `weird_agrees_iff`   the result depends on the file alone unless the end of the buffer is used
                    as `malloc` returned it;
* `hole_found_iff`  an allocation inside the block is noticed unless it begins behind the first byte.
-/

namespace Fiemap

open CInt

structure OpenFile where
  bytes : List UInt8
  fibmap : Int32 → Option Int32
  preadFails : UInt64 → Bool

/-- the bytes that a `pread` of `n` bytes reads -/
def OpenFile.bytesAt (f : OpenFile) (offset : UInt64) (n : ℕ) : List UInt8 :=
  (f.bytes.drop offset.toNat).take n

/-- A short read leaves the end of the buffer as it was. -/
def OpenFile.pread (f : OpenFile) (buf : List UInt8) (offset : UInt64) : List UInt8 :=
  f.bytesAt offset buf.length ++ buf.drop (f.bytesAt offset buf.length).length

inductive WeirdError where
  | fibmapFailed
  | isHole (block : UInt64)
  | noBuffer
  | readFailed
  | notZero (value : UInt8) (block : UInt64)
  deriving DecidableEq, Repr

/-- The result is the return value, or the error that was printed, and the value of
`warning_printed` after the call. -/
def checkWeirdFsHole (f : OpenFile) (malloc : Option (ℕ → UInt8)) (logicalOffset : UInt64)
    (blocksize : Int32) (warningPrinted : Bool) : Except WeirdError Unit × Bool :=
  let bufLen := (u64 blocksize).toNat
  match f.fibmap (logicalOffset / u64 blocksize).toUInt32.toInt32 with
  | none => (.error .fibmapFailed, warningPrinted)
  | some block =>
    if block = 0 then (.error (.isHole (logicalOffset / u64 blocksize)), warningPrinted)
    else
      match malloc with
      | none => (.error .noBuffer, warningPrinted)
      | some memory =>
        if f.preadFails logicalOffset = true then (.error .readFailed, warningPrinted)
        else
          let buf := f.pread ((List.range bufLen).map memory) logicalOffset
          match buf.find? fun c => c ≠ 0 with
          | some c => (.error (.notZero c (logicalOffset / u64 blocksize)), warningPrinted)
          | none => if warningPrinted = true then (.ok (), warningPrinted) else (.ok (), true)

def weirdRet : Except WeirdError Unit × Bool → ℤ
  | (.ok (), _) => 0
  | (.error _, _) => -1

theorem weirdRet_cases (r : Except WeirdError Unit × Bool) : weirdRet r = 0 ∨ weirdRet r = -1 := by
  obtain ⟨r, printed⟩ := r
  cases r with
  | error a => exact .inr rfl
  | ok u => exact .inl rfl

/-! ## the buffer -/

section
variable {f : OpenFile} {off : UInt64} {blocksize : Int32}

/-- FIBMAP reports a block there, and `pread` reads less than a block, all of it zero. -/
def ShortZeros (f : OpenFile) (off : UInt64) (blocksize : Int32) : Prop :=
  (∃ block, f.fibmap (off / u64 blocksize).toUInt32.toInt32 = some block ∧ block ≠ 0) ∧
    f.preadFails off = false ∧
    (f.bytesAt off (u64 blocksize).toNat).length < (u64 blocksize).toNat ∧
    ∀ c ∈ f.bytesAt off (u64 blocksize).toNat, c = 0

theorem weirdRet_eq_zero_iff (memory : ℕ → UInt8) (warningPrinted : Bool) :
    weirdRet (checkWeirdFsHole f (some memory) off blocksize warningPrinted) = 0 ↔
      (∃ block, f.fibmap (off / u64 blocksize).toUInt32.toInt32 = some block ∧ block ≠ 0) ∧
        f.preadFails off = false ∧
        ∀ c ∈ f.pread ((List.range (u64 blocksize).toNat).map memory) off, c = 0 := by
  unfold checkWeirdFsHole
  cases hblock : f.fibmap (off / u64 blocksize).toUInt32.toInt32 with
  | none => simp [weirdRet]
  | some block =>
    dsimp only
    by_cases hzero : block = 0
    · rw [if_pos hzero]
      simp [weirdRet, hzero]
    rw [if_neg hzero]
    cases hread : f.preadFails off with
    | true => simp [weirdRet]
    | false =>
      rw [if_neg (by simp)]
      cases hfind : (f.pread ((List.range (u64 blocksize).toNat).map memory) off).find?
          fun c => c ≠ 0 with
      | some c =>
        have hc : c ≠ 0 := by simpa using List.find?_some hfind
        have hmem := List.mem_of_find?_eq_some hfind
        refine ⟨fun h => absurd h (by simp [weirdRet]), ?_⟩
        intro h
        exact absurd (h.2.2 c hmem) hc
      | none =>
        have hall := List.find?_eq_none.mp hfind
        refine ⟨fun _ => ⟨⟨block, rfl, hzero⟩, rfl, ?_⟩, ?_⟩
        · intro c hc
          simpa using hall c hc
        · intro _
          cases warningPrinted <;> rfl

/-- The part of the buffer that is not read is what it was. -/
theorem forall_pread (memory : ℕ → UInt8) (n : ℕ) :
    (∀ c ∈ f.pread ((List.range n).map memory) off, c = 0) ↔
      (∀ c ∈ f.bytesAt off n, c = 0) ∧
        ∀ i, (f.bytesAt off n).length ≤ i → i < n → memory i = 0 := by
  unfold OpenFile.pread
  rw [List.length_map, List.length_range, List.forall_mem_append, ← List.map_drop,
    List.forall_mem_map, List.range_eq_range', List.drop_range']
  apply and_congr_right
  intro hread
  refine ⟨?_, ?_⟩
  · intro h i hle hlt
    exact h i (List.mem_range'_1.mpr (by omega))
  · intro h i hi
    have hi' := List.mem_range'_1.mp hi
    exact h i (by omega) (by omega)

/-- The result is the same for all contents of the buffer, on the first call and on a later one,
exactly when `pread` fills the buffer or something else decides the result. -/
theorem weird_agrees_iff :
    (∀ (memory memory' : ℕ → UInt8) (printed printed' : Bool),
      weirdRet (checkWeirdFsHole f (some memory) off blocksize printed) =
        weirdRet (checkWeirdFsHole f (some memory') off blocksize printed')) ↔
      ¬ ShortZeros f off blocksize := by
  refine ⟨?_, ?_⟩
  · intro hall hshort
    obtain ⟨hblock, hread, hlt, hzero⟩ := hshort
    have h0 : weirdRet (checkWeirdFsHole f (some fun _ => 0) off blocksize false) = 0 := by
      rw [weirdRet_eq_zero_iff, forall_pread]
      exact ⟨hblock, hread, hzero, fun _ _ _ => rfl⟩
    -- with ones in the buffer the first byte that was not read decides
    rw [hall _ (fun _ => 1) false false, weirdRet_eq_zero_iff, forall_pread] at h0
    obtain ⟨-, -, -, hrest⟩ := h0
    exact absurd (hrest _ (Nat.le_refl _) hlt) (by decide)
  · intro hno memory memory' printed printed'
    have key : weirdRet (checkWeirdFsHole f (some memory) off blocksize printed) = 0 ↔
        weirdRet (checkWeirdFsHole f (some memory') off blocksize printed') = 0 := by
      rw [weirdRet_eq_zero_iff, weirdRet_eq_zero_iff, forall_pread, forall_pread]
      apply and_congr_right
      intro hblock
      apply and_congr_right
      intro hread
      apply and_congr_right
      intro hzero
      -- the bytes that were read are zero, so there are enough of them
      have hfull : ¬ (f.bytesAt off (u64 blocksize).toNat).length < (u64 blocksize).toNat :=
        fun hlt => hno ⟨hblock, hread, hlt, hzero⟩
      exact ⟨fun _ i hle hlt => absurd (lt_of_le_of_lt hle hlt) hfull,
        fun _ i hle hlt => absurd (lt_of_le_of_lt hle hlt) hfull⟩
    rcases weirdRet_cases (checkWeirdFsHole f (some memory) off blocksize printed) with h | h
    · rw [h, key.mp h]
    · rcases weirdRet_cases (checkWeirdFsHole f (some memory') off blocksize printed') with h' | h'
      · rw [key.mpr h'] at h
        exact absurd h (by decide)
      · rw [h, h']

end

/-- A file of 100 zero bytes in an allocated block. -/
def shortFile : OpenFile where
  bytes := List.replicate 100 0
  fibmap _ := some 7
  preadFails _ := false

theorem weird_disagrees :
    weirdRet (checkWeirdFsHole shortFile (some fun _ => 0) 0 512 false) ≠
      weirdRet (checkWeirdFsHole shortFile (some fun _ => 1) 0 512 false) := by
  decide +kernel

/-! ## check_hole -/

/-- some byte of the extent lies among the `b` bytes from `o` on -/
def Extent.Meets (e : Extent) (o b : ℕ) : Prop := ∃ x, o ≤ x ∧ x < o + b ∧ e.Holds x

/-- `checkHole` with the calls it has made and their results -/
def checkHoleCalls (blocksize : Int32) (checkWeirdFsHole : UInt64 → Bool) (logicalOffset : UInt64) :
    List Extent → Except Alarm Unit × List (UInt64 × Bool)
  | [] => (.ok (), [])
  | extent :: rest =>
    if logicalOffset > extent.end then
      checkHoleCalls blocksize checkWeirdFsHole logicalOffset rest
    else if logicalOffset + u64 blocksize < extent.feLogical then (.ok (), [])
    else if logicalOffset ≥ extent.feLogical ∧ logicalOffset < extent.end then
      if checkWeirdFsHole logicalOffset = true then (.ok (), [(logicalOffset, true)])
      else (.error (.holeAllocated (extent.feLogical / u64 blocksize)), [(logicalOffset, false)])
    else checkHoleCalls blocksize checkWeirdFsHole logicalOffset rest

section
variable {b : ℕ} {blocksize : Int32} {es : List Extent} {off : UInt64}

theorem checkHoleCalls_fst (weird : UInt64 → Bool) :
    (checkHoleCalls blocksize weird off es).1 = checkHole blocksize weird off es := by
  induction es with
  | nil => rfl
  | cons e es ih =>
    rw [checkHoleCalls, checkHole]
    split_ifs <;> first | exact ih | rfl

/-- The scan looks for an extent that holds the first byte of the block. -/
theorem checkHoleCalls_eq (hbs : blocksize.toInt = b) (weird : UInt64 → Bool)
    (hsorted : es.Pairwise fun x y => x.past ≤ y.feLogical.toNat)
    (hwrap : ∀ e ∈ es, e.past < 2 ^ 64) (hoff : off.toNat + b < 2 ^ 64) :
    checkHoleCalls blocksize weird off es =
      match es.find? fun e => decide (e.Holds off.toNat) with
      | none => (.ok (), [])
      | some e =>
        if weird off = true then (.ok (), [(off, true)])
        else (.error (.holeAllocated (e.feLogical / u64 blocksize)), [(off, false)]) := by
  induction es with
  | nil => rfl
  | cons e es ih =>
    have hend : e.end.toNat = e.past := by
      have := hwrap e (List.mem_cons_self ..)
      unfold Extent.end Extent.past at *
      rw [UInt64.toNat_add, Nat.mod_eq_of_lt this]
    have hsum : (off + u64 blocksize).toNat = off.toNat + b := by
      rw [UInt64.toNat_add, toNat_u64_blocksize hbs, Nat.mod_eq_of_lt hoff]
    have hih := ih hsorted.tail fun x hx => hwrap x (List.mem_cons_of_mem _ hx)
    have hle := (List.pairwise_cons.mp hsorted).1
    have hholds : (e.feLogical.toNat ≤ off.toNat ∧ off.toNat < e.past) = e.Holds off.toNat := rfl
    rw [checkHoleCalls]
    simp only [gt_iff_lt, ge_iff_le, UInt64.lt_iff_toNat_lt, UInt64.le_iff_toNat_le, hend, hsum,
      hholds]
    by_cases hin : e.Holds off.toNat
    · have h1 : ¬ e.past < off.toNat := Nat.not_lt.mpr hin.2.le
      have h2 : ¬ off.toNat + b < e.feLogical.toNat := by
        have := hin.1
        omega
      rw [if_neg h1, if_neg h2, if_pos hin, List.find?_cons_of_pos (by simpa using hin)]
    · rw [List.find?_cons_of_neg (by simpa using hin)]
      by_cases h1 : e.past < off.toNat
      · rw [if_pos h1, hih]
      rw [if_neg h1]
      by_cases h2 : off.toNat + b < e.feLogical.toNat
      · -- the extents after this one begin even later
        have hnone : ∀ x ∈ es, ¬ x.Holds off.toNat := by
          intro x hx hh
          have h3 := hle x hx
          have h4 := hh.1
          have h5 : e.feLogical.toNat ≤ e.past := Nat.le_add_right _ _
          omega
        rw [if_pos h2, List.find?_eq_none.mpr (by simpa using hnone)]
      · rw [if_neg h2, if_neg hin, hih]

/-- If `check_hole` returns 0, the block meets no extent or `check_weird_fs_hole` was called for it
and returned 0: this holds exactly when an extent that meets the block, if there is one, is one
that holds its first byte. -/
theorem hole_found_iff (hbs : blocksize.toInt = b) (weird : UInt64 → Bool)
    (hsorted : es.Pairwise fun x y => x.past ≤ y.feLogical.toNat)
    (hwrap : ∀ e ∈ es, e.past < 2 ^ 64) (hoff : off.toNat + b < 2 ^ 64) :
    ((checkHoleCalls blocksize weird off es).1 = .ok () →
      (∀ e ∈ es, ¬ e.Meets off.toNat b) ∨ (off, true) ∈ (checkHoleCalls blocksize weird off es).2) ↔
      ((∃ e ∈ es, e.Meets off.toNat b) → ∃ e ∈ es, e.Holds off.toNat) := by
  rw [checkHoleCalls_eq hbs weird hsorted hwrap hoff]
  cases hf : es.find? fun e => decide (e.Holds off.toNat) with
  | none =>
    have hnone : ¬ ∃ e ∈ es, e.Holds off.toNat := by
      intro hex
      obtain ⟨e, he, hh⟩ := hex
      exact List.find?_eq_none.mp hf e he (by simpa using hh)
    dsimp only
    simp only [hnone, List.not_mem_nil, or_false, true_implies, imp_false]
    push Not
    rfl
  | some e =>
    have hh : e.Holds off.toNat := by simpa using List.find?_some hf
    refine ⟨fun _ _ => ⟨e, List.mem_of_find?_eq_some hf, hh⟩, ?_⟩
    intro _ hok
    dsimp only at hok ⊢
    by_cases hw : weird off = true
    · rw [if_pos hw]
      exact .inr (List.mem_singleton_self _)
    · rw [if_neg hw] at hok
      cases hok

end

/-- An extent that begins behind the first byte of block 0. -/
def lateReply : List Extent := [⟨512, 0x10000, 4096, extentLast⟩]

theorem hole_missed : checkFlags 4096 lateReply = .ok () ∧
    checkHoleCalls 4096 (fun _ => false) 0 lateReply = (.ok (), []) ∧
    ∃ e ∈ lateReply, e.Meets 0 4096 := by
  refine ⟨by decide, by decide, _, List.mem_singleton_self _, 512, ?_⟩
  decide

/-- the decision of `check_weird_fs_hole` about the blocks of a file -/
def shortWeird (off : UInt64) : Bool :=
  weirdRet (checkWeirdFsHole shortFile (some fun _ => 0) off 4096 false) = 0

theorem hole_found_iff_first :
    ((checkHoleCalls 4096 shortWeird 0 gapReply).1 = .ok () →
      (∀ e ∈ gapReply, ¬ e.Meets 0 4096) ∨
        (0, true) ∈ (checkHoleCalls 4096 shortWeird 0 gapReply).2) ↔
      ((∃ e ∈ gapReply, e.Meets 0 4096) → ∃ e ∈ gapReply, e.Holds 0) := by
  have hoff : (0 : UInt64).toNat + 4096 < 2 ^ 64 := by decide
  exact hole_found_iff rfl shortWeird (by decide) (by decide) hoff

end Fiemap
