import TestUnion.SeekFile
import Mathlib.Data.UInt

/-!
# sparse-cp

* `copyLoop`, `sparseCp`   the `while` loop of the script, and the script;
* `LastBlockZero`   the last full block of the input is zero;
* `copyLoop_bytes`  what the loop has written when it ends;
* `sparseCp_copies_iff`   the output is the input unless its last full block is zero.

The loop writes no zero block, and the tail goes to where the last write has ended.
-/

namespace SparseCp

/-- `$bs` -/
def bs : ℕ := 4096

theorem bs_pos : 0 < bs := by decide

/-- what is done with the bytes `b` that were read at `i` -/
def copyBlock (i : ℕ) (b : List UInt8) (out : SeekFile UInt8) : SeekFile UInt8 :=
  if b.length < bs then out.write b
  else if List.replicate bs 0 <:+: b then out
  else (out.seek i).write b

/-- `rest` is what `sysread` has not returned yet. -/
def copyLoop (fsize i : ℕ) (rest : List UInt8) (out : SeekFile UInt8) : SeekFile UInt8 :=
  if i < fsize then copyLoop fsize (i + bs) (rest.drop bs) (copyBlock i (rest.take bs) out) else out
termination_by fsize - i
decreasing_by
  have := bs_pos
  omega

/-- the output file for the bytes of the input file -/
def sparseCp (input : List UInt8) : SeekFile UInt8 := copyLoop input.length 0 input ⟨[], 0⟩

/-- the last full block of the file consists of zeros -/
def LastBlockZero (input : List UInt8) : Prop :=
  bs ≤ input.length ∧ (input.drop ((input.length / bs - 1) * bs)).take bs = List.replicate bs 0

variable {input rest : List UInt8} {out : SeekFile UInt8}

/-! ## blocks -/

theorem replicate_infix_iff {b : List UInt8} (h : b.length = bs) :
    List.replicate bs 0 <:+: b ↔ b = List.replicate bs 0 := by
  refine ⟨?_, ?_⟩
  · intro hin
    exact (hin.eq_of_length (by rw [List.length_replicate, h])).symm
  · rintro rfl
    exact List.infix_rfl

theorem not_lastBlockZero (h : rest.length < bs) : ¬ LastBlockZero rest := fun hz => by
  have := hz.1
  omega

theorem lastBlockZero_one (h : bs ≤ rest.length) (h' : (rest.drop bs).length < bs) :
    LastBlockZero rest ↔ rest.take bs = List.replicate bs 0 := by
  have hpos := bs_pos
  rw [List.length_drop] at h'
  have hdiv : rest.length / bs = 1 := Nat.div_eq_of_lt_le (by omega) (by omega)
  unfold LastBlockZero
  rw [hdiv, Nat.sub_self, Nat.zero_mul, List.drop_zero, and_iff_right h]

theorem lastBlockZero_drop (h : bs ≤ (rest.drop bs).length) :
    LastBlockZero rest ↔ LastBlockZero (rest.drop bs) := by
  have hpos := bs_pos
  unfold LastBlockZero
  rw [List.drop_drop, List.length_drop] at *
  have hdiv : rest.length / bs = (rest.length - bs) / bs + 1 := by
    rw [← Nat.add_div_right _ hpos, Nat.sub_add_cancel (by omega)]
  have hone : 1 ≤ (rest.length - bs) / bs := (Nat.one_le_div_iff hpos).mpr h
  have hoff : bs + ((rest.length - bs) / bs - 1) * bs = (rest.length / bs - 1) * bs := by
    rw [hdiv, Nat.add_sub_cancel, Nat.sub_mul, Nat.one_mul]
    have := Nat.mul_le_mul_right bs hone
    omega
  rw [hoff, and_iff_right h, and_iff_right (by omega)]

/-! ## the loop -/

/-- Behind what was written there are `z` zeros that were read and skipped. -/
structure Written (read : List UInt8) (out : SeekFile UInt8) (z : ℕ) : Prop where
  pos : out.pos = out.bytes.length
  read : read = out.bytes ++ List.replicate z 0

variable {read : List UInt8} {z : ℕ}

theorem Written.skip (h : Written read out z) {b : List UInt8} (hb : b = List.replicate bs 0) :
    Written (read ++ b) out (z + bs) := by
  refine ⟨h.pos, ?_⟩
  rw [hb, h.read, List.append_assoc, List.replicate_append_replicate]

theorem Written.data (h : Written read out z) {b : List UInt8} (hb : b ≠ []) :
    Written (read ++ b) ((out.seek read.length).write b) 0 := by
  have hlen : read.length = out.bytes.length + z := by
    rw [h.read, List.length_append, List.length_replicate]
  have hle : (out.seek read.length).bytes.length ≤ (out.seek read.length).pos := by
    show out.bytes.length ≤ read.length
    omega
  have hz : read.length - out.bytes.length = z := by omega
  have hw : (out.seek read.length).write b = ⟨read ++ b, read.length + b.length⟩ := by
    rw [SeekFile.write_behind hb hle]
    show SeekFile.mk (out.bytes ++ List.replicate (read.length - out.bytes.length) 0 ++ b) _ = _
    rw [hz, ← h.read]
    rfl
  rw [hw]
  exact ⟨List.length_append.symm, (List.append_nil _).symm⟩

/-- A full block is skipped when it is zero, and goes to its place otherwise. -/
theorem Written.block (h : Written read out z) {b : List UInt8} (hlen : b.length = bs) :
    ∃ z', Written (read ++ b) (copyBlock read.length b out) z' ∧
      (z' = 0 ↔ b ≠ List.replicate bs 0) := by
  have hpos := bs_pos
  unfold copyBlock
  rw [hlen, if_neg (Nat.lt_irrefl bs)]
  by_cases hzero : b = List.replicate bs 0
  · rw [if_pos ((replicate_infix_iff hlen).mpr hzero)]
    refine ⟨z + bs, h.skip hzero, ?_, fun hno => absurd hzero hno⟩
    omega
  · rw [if_neg fun hin => hzero ((replicate_infix_iff hlen).mp hin)]
    refine ⟨0, h.data ?_, fun _ => hzero, fun _ => rfl⟩
    intro hb
    rw [hb] at hlen
    exact absurd hlen (Nat.ne_of_lt hpos)

/-- The tail goes to where the last write has ended. -/
theorem Written.tail (h : Written read out z) (hne : rest ≠ []) (hshort : rest.length < bs) (i : ℕ) :
    (copyBlock i rest out).bytes = out.bytes ++ rest := by
  unfold copyBlock
  have hz : out.pos - out.bytes.length = 0 := by rw [h.pos, Nat.sub_self]
  rw [if_pos hshort, SeekFile.write_behind hne (Nat.le_of_eq h.pos.symm), hz, List.replicate_zero,
    List.append_nil]

/-- The output is the input when no zeros were skipped last. -/
theorem Written.bytes_iff (h : Written read out z) (rest : List UInt8) :
    out.bytes ++ rest = read ++ rest ↔ z = 0 := by
  rw [h.read, List.append_left_inj, List.self_eq_append_right, List.replicate_eq_nil_iff]

theorem copyLoop_end {fsize i : ℕ} (h : fsize ≤ i) : copyLoop fsize i rest out = out := by
  rw [copyLoop, if_neg (Nat.not_lt.mpr h)]

theorem copyLoop_bytes (h : Written read out z) :
    (copyLoop (read ++ rest).length read.length rest out).bytes = read ++ rest ↔
      if bs ≤ rest.length then ¬ LastBlockZero rest else z = 0 := by
  have hpos := bs_pos
  induction hn : rest.length using Nat.strongRecOn generalizing read rest out z with
  | ind n ih =>
    by_cases hnil : rest = []
    · -- nothing is left to be read
      subst hnil
      have hlt : ¬ bs ≤ n := by
        rw [List.length_nil] at hn
        omega
      have hiff := h.bytes_iff []
      rw [List.append_nil] at hiff
      rw [List.append_nil, copyLoop_end (Nat.le_refl _), if_neg hlt, ← hiff, List.append_nil]
    have hlt : read.length < (read ++ rest).length := by
      have := List.length_pos_iff.mpr hnil
      rw [List.length_append]
      omega
    rw [copyLoop, if_pos hlt]
    by_cases hshort : rest.length < bs
    · have hend : (read ++ rest).length ≤ read.length + bs := by
        rw [List.length_append]
        omega
      rw [copyLoop_end hend, List.take_of_length_le (Nat.le_of_lt hshort), h.tail hnil hshort,
        if_neg (by omega)]
      exact h.bytes_iff rest
    · have hlen : (rest.take bs).length = bs := by
        rw [List.length_take]
        omega
      have hread : (read ++ rest.take bs).length = read.length + bs := by
        rw [List.length_append, hlen]
      have hsplit : read ++ rest = (read ++ rest.take bs) ++ rest.drop bs := by
        rw [List.append_assoc, List.take_append_drop]
      have hdrop : (rest.drop bs).length < n := by
        rw [List.length_drop]
        omega
      obtain ⟨z', hw, hz'⟩ := h.block hlen
      have hih := ih _ hdrop hw rfl
      rw [← hsplit, hread] at hih
      rw [if_pos (show bs ≤ n by omega)]
      refine hih.trans ?_
      split
      · next hle => rw [lastBlockZero_drop hle]
      · next hle => rw [lastBlockZero_one (by omega) (by omega), hz']

theorem Written.start : Written [] ⟨[], 0⟩ 0 := ⟨rfl, rfl⟩

theorem sparseCp_bytes (input : List UInt8) : (sparseCp input).bytes = input ↔
    if bs ≤ input.length then ¬ LastBlockZero input else 0 = 0 :=
  copyLoop_bytes Written.start

/-- The copy has the bytes of the input, zeros included, unless the last full block is zero. -/
theorem sparseCp_copies_iff (input : List UInt8) :
    (sparseCp input).bytes = input ↔ ¬ LastBlockZero input := by
  rw [sparseCp_bytes]
  split
  · rfl
  · next hlt => exact ⟨fun _ => not_lastBlockZero (Nat.lt_of_not_le hlt), fun _ => rfl⟩

/-- A file of one zero block is copied to a shorter file. -/
theorem sparseCp_zeros : (sparseCp (List.replicate bs 0)).bytes ≠ List.replicate bs 0 := by
  have hlen : (List.replicate bs (0 : UInt8)).length = bs := List.length_replicate
  have hle : bs ≤ (List.replicate bs (0 : UInt8)).length := Nat.le_of_eq hlen.symm
  have hrest : ((List.replicate bs (0 : UInt8)).drop bs).length < bs := by
    rw [List.length_drop, hlen, Nat.sub_self]
    exact bs_pos
  rw [Ne, sparseCp_bytes, if_pos hle, lastBlockZero_one hle hrest, not_not]
  exact List.take_of_length_le (Nat.le_of_eq hlen)

end SparseCp
