import TestUnion.Fiemap.CompareSpec

/-!
# fiemap-test: preallocated blocks that a reply reports as written

* `Written k e i`   block `i` lies in an extent that is not marked as unwritten;
* `compare_fails_iff`   the comparison returns -1 iff some window has a wrong reply;
* `written_detected_iff`   a preallocated block that is reported as written is detected only through
                    one of the other rules.
-/

namespace Fiemap

open CInt

variable {K : Kernel} {map : List Char} {blocksize : Int32} {k : ℕ}

def Written (k : ℕ) (e : Extent) (i : ℕ) : Prop := Covers k e i ∧ ¬ e.has extentUnwritten

theorem compare_ret_cases (hm : K.malloc = true) (hlen : 0 < map.length) :
    (compareFiemapAndMap K map blocksize).ret = some 0 ∨
      (compareFiemapAndMap K map blocksize).ret = some (-1) := by
  by_cases h : ∀ w, w * K.blocksToMap map < map.length → WindowOk K map blocksize w
  · exact .inl ((compare_ret_iff hm hlen).mpr h)
  · push Not at h
    obtain ⟨w, hw, hno⟩ := h
    obtain ⟨ws, a, he⟩ := windowLoop_error (atRound_zero hlen) ⟨w, Nat.zero_le w, hw, hno⟩
    right
    rw [Nat.zero_mul] at he
    rw [compareFiemapAndMap, if_pos hm, he]
    rfl

theorem toRet_error_iff {r : Except Alarm Unit} : toRet r = -1 ↔ r ≠ .ok () := by
  cases r with
  | error a => simp [toRet]
  | ok u => simp [toRet]

theorem compare_fails_iff (hm : K.malloc = true) (hlen : 0 < map.length)
    (hmap : ∀ m ∈ map, m = 'D' ∨ m = 'H' ∨ m = 'P')
    (hbs : blocksize.toInt = ((2 ^ k : ℕ) : ℤ)) (hfit : ∀ i < map.length, i * 2 ^ k < 2 ^ 31)
    (replies : ℕ → List Extent)
    (hio : ∀ w, w * K.blocksToMap map < map.length →
      K.ioctl w (requestOf K map blocksize w) = some (replies w))
    (hal : ∀ w, w * K.blocksToMap map < map.length → Aligned k (replies w)) :
    (compareFiemapAndMap K map blocksize).ret = some (-1) ↔
      ∃ w, w * K.blocksToMap map < map.length ∧
        ¬ RightReply K map blocksize k w (replies w) := by
  have hzero : (compareFiemapAndMap K map blocksize).ret = some (-1) ↔
      ¬ (compareFiemapAndMap K map blocksize).ret = some 0 := by
    rcases @compare_ret_cases K map blocksize hm hlen with h | h <;> rw [h] <;> decide
  rw [hzero, compare_ret_iff hm hlen]
  push Not
  apply exists_congr
  intro w
  apply and_congr_right
  intro hw
  rw [windowOk_iff hbs hmap hfit (hio w hw) (hal w hw)]

/-- `check_data` fails for a preallocated block that is reported as written exactly when it is asked
for the last extent and the extent is not marked as last; the comparison of a map with such a block
fails exactly when some window has a wrong reply. -/
theorem written_detected_iff (hbs : blocksize.toInt = ((2 ^ k : ℕ) : ℤ)) :
    (∀ (es : List Extent) (off : UInt64) (i : ℕ) (e : Extent) (last : Bool), Aligned k es →
      off.toNat = i * 2 ^ k → e ∈ es → Written k e i →
      (toRet (checkData blocksize es off last true) = -1 ↔ last = true ∧ ¬ e.has extentLast)) ∧
    ∀ (K : Kernel) (map : List Char) (replies : ℕ → List Extent), K.malloc = true →
      (∀ m ∈ map, m = 'D' ∨ m = 'H' ∨ m = 'P') → (∀ i < map.length, i * 2 ^ k < 2 ^ 31) →
      (∀ w, w * K.blocksToMap map < map.length →
        K.ioctl w (requestOf K map blocksize w) = some (replies w) ∧ Aligned k (replies w)) →
      (∃ w i e, InWindow K map w i ∧ map[i]? = some 'P' ∧ e ∈ replies w ∧ Written k e i) →
      ((compareFiemapAndMap K map blocksize).ret = some (-1) ↔
        ∃ w, w * K.blocksToMap map < map.length ∧
          ¬ RightReply K map blocksize k w (replies w)) := by
  refine ⟨?_, ?_⟩
  · intro es off i e last hal hoff he hw
    have hfit : (i + 1) * 2 ^ k < 2 ^ 64 := lt_of_le_of_lt hw.1.2 (hal.extent e he).noWrap
    rw [toRet_error_iff, Ne, checkData_ok_iff hbs last true hoff hfit hal]
    refine ⟨?_, ?_⟩
    · intro hno
      by_contra hlast
      exact hno ⟨e, he, hw.1, not_and_not_right.mp hlast⟩
    · intro hlast hex
      obtain ⟨e', he', hc', hl'⟩ := hex
      rw [hal.covers_unique he' he hc' hw.1] at hl'
      exact hlast.2 (hl' hlast.1)
  · intro K map replies hm hmap hfit hio hex
    obtain ⟨w, i, e, _, hi, _⟩ := hex
    have hlen : 0 < map.length :=
      Nat.zero_lt_of_lt (List.getElem?_eq_some_iff.mp hi).1
    exact compare_fails_iff hm hlen hmap hbs hfit replies (fun w hw => (hio w hw).1)
      fun w hw => (hio w hw).2

/-! A map of one preallocated block, and a reply that reports it as written. -/

def writtenExtent (flags : UInt32) : Extent := ⟨0, 0x10000, 4096, flags⟩

def writtenKernel (flags : UInt32) : Kernel where
  malloc := true
  random := 0
  lastData := -1
  ioctl _ _ := some [writtenExtent flags]
  checkWeirdFsHole _ := false

theorem writtenExtent_aligned (flags : UInt32) : Aligned 12 [writtenExtent flags] := by
  refine ⟨List.pairwise_singleton _ _, ?_⟩
  intro e he
  rw [List.mem_singleton.mp he]
  refine ⟨?_, ?_, ?_, ?_⟩
  · show 0 < (4096 : UInt64).toNat
    decide
  · exact dvd_zero _
  · exact dvd_refl 4096
  · show (0 : UInt64).toNat + (4096 : UInt64).toNat < 2 ^ 64
    decide

theorem written_undetected : Aligned 12 [writtenExtent extentLast] ∧
    Written 12 (writtenExtent extentLast) 0 ∧
    checkData 4096 [writtenExtent extentLast] 0 true true = .ok () ∧
    (compareFiemapAndMap (writtenKernel extentLast) ['P'] 4096).ret = some 0 :=
  ⟨writtenExtent_aligned _, ⟨by decide, by decide⟩, by decide, by decide +kernel⟩

/-- Without the mark of the last extent the same block is refused. -/
theorem written_detected_iff_last :
    (toRet (checkData 4096 [writtenExtent 0] 0 true true) = -1 ↔
      true = true ∧ ¬ (writtenExtent 0).has extentLast) ∧
    ((compareFiemapAndMap (writtenKernel 0) ['P'] 4096).ret = some (-1) ↔
      ∃ w, w * (writtenKernel 0).blocksToMap ['P'] < ['P'].length ∧
        ¬ RightReply (writtenKernel 0) ['P'] 4096 12 w [writtenExtent 0]) := by
  have hw : Written 12 (writtenExtent 0) 0 := ⟨by decide, by decide⟩
  have h := written_detected_iff (k := 12) (show Int32.toInt 4096 = _ from rfl)
  refine ⟨h.1 _ 0 0 _ true (writtenExtent_aligned 0) rfl (List.mem_singleton_self _) hw, ?_⟩
  refine h.2 (writtenKernel 0) ['P'] (fun _ => [writtenExtent 0]) rfl ?_ (by decide)
    (fun w _ => ⟨rfl, writtenExtent_aligned 0⟩) ⟨0, 0, _, ⟨by decide, by decide⟩, rfl,
      List.mem_singleton_self _, hw⟩
  intro m hm
  exact .inr (.inr (List.mem_singleton.mp hm))

end Fiemap
