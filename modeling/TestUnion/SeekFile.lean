import Mathlib.Algebra.Group.Defs
import Mathlib.Data.List.Basic
import Mathlib.Tactic.Common

/-!
# Files that are written at an offset

* `SeekFile α`          the contents of an open file and its offset;
* `SeekFile.seek`, `SeekFile.write`   the two calls; a write behind the end leaves zeros before it;
* `SeekFile.write_behind`   what a write at the end, or behind it, makes of the file;
* `block l p n`         the part of a list of length `n` at the place `p`;
* `SeekFile.read`       gives at most the rest of the file;
* `SeekFile.write_block`, `block_write_disjoint`   a block that is written where it is, and what a
                        write inside a file leaves.
-/

def block {α : Type*} (l : List α) (p n : ℕ) : List α := (l.drop p).take n

structure SeekFile (α : Type*) where
  bytes : List α
  pos : ℕ
  deriving DecidableEq, Repr

namespace SeekFile

variable {α : Type*} [Zero α] {f : SeekFile α} {data : List α}

def seek (f : SeekFile α) (n : ℕ) : SeekFile α := { f with pos := n }

def read (f : SeekFile α) (n : ℕ) : List α × SeekFile α :=
  (block f.bytes f.pos n, { f with pos := f.pos + (block f.bytes f.pos n).length })

/-- A write of nothing does not make the file longer. -/
def write (f : SeekFile α) (data : List α) : SeekFile α :=
  if data = [] then f
  else
    { bytes := (f.bytes ++ List.replicate (f.pos - f.bytes.length) 0).take f.pos ++ data ++
        f.bytes.drop (f.pos + data.length)
      pos := f.pos + data.length }

theorem write_behind (hd : data ≠ []) (h : f.bytes.length ≤ f.pos) :
    f.write data =
      ⟨f.bytes ++ List.replicate (f.pos - f.bytes.length) 0 ++ data, f.pos + data.length⟩ := by
  unfold write
  rw [if_neg hd, List.take_of_length_le, List.drop_eq_nil_of_le, List.append_nil]
  · omega
  · rw [List.length_append, List.length_replicate]
    omega

/-! ## a write inside the file -/

section
variable {i p n : ℕ} (hin : f.pos + data.length ≤ f.bytes.length)
include hin

theorem getElem?_write : (f.write data).bytes[i]? =
    if f.pos ≤ i ∧ i < f.pos + data.length then data[i - f.pos]? else f.bytes[i]? := by
  unfold write
  by_cases hd : data = []
  · rw [if_pos hd, if_neg (by rw [hd]; exact fun h => absurd h.2 (Nat.not_lt.mpr h.1))]
  · have hhead : (f.bytes ++ List.replicate (f.pos - f.bytes.length) 0).take f.pos =
        f.bytes.take f.pos := by
      rw [show f.pos - f.bytes.length = 0 by omega, List.replicate_zero, List.append_nil]
    have hlen : (f.bytes.take f.pos).length = f.pos := by
      rw [List.length_take]
      omega
    rw [if_neg hd, hhead]
    show (f.bytes.take f.pos ++ data ++ f.bytes.drop (f.pos + data.length))[i]? = _
    by_cases hbefore : i < f.pos
    · rw [if_neg (by omega), List.getElem?_append_left (by rw [List.length_append]; omega),
        List.getElem?_append_left (by omega), List.getElem?_take_of_lt hbefore]
    · by_cases hinside : i < f.pos + data.length
      · rw [if_pos ⟨by omega, hinside⟩,
          List.getElem?_append_left (by rw [List.length_append]; omega),
          List.getElem?_append_right (by omega), hlen]
      · rw [if_neg (by omega), List.getElem?_append_right (by rw [List.length_append]; omega),
          List.length_append, hlen, List.getElem?_drop]
        congr 1
        omega

theorem length_write : (f.write data).bytes.length = f.bytes.length := by
  unfold write
  split
  · rfl
  · show (_ ++ data ++ _ : List α).length = _
    rw [List.length_append, List.length_append, List.length_take, List.length_append,
      List.length_replicate, List.length_drop]
    omega

theorem block_write_disjoint (h : p + n ≤ f.pos ∨ f.pos + data.length ≤ p) :
    block (f.write data).bytes p n = block f.bytes p n := by
  apply List.ext_getElem?
  intro i
  unfold block
  by_cases hi : i < n
  · rw [List.getElem?_take_of_lt hi, List.getElem?_take_of_lt hi, List.getElem?_drop,
      List.getElem?_drop, getElem?_write hin, if_neg (by omega)]
  · rw [List.getElem?_take, List.getElem?_take, if_neg hi, if_neg hi]

/-- What is there already can be written again. -/
theorem write_block (h : data = block f.bytes f.pos data.length) :
    (f.write data).bytes = f.bytes := by
  apply List.ext_getElem?
  intro i
  rw [getElem?_write hin]
  split
  · next hi =>
    rw [h]
    unfold block
    rw [List.getElem?_take_of_lt (by omega), List.getElem?_drop, Nat.add_sub_cancel' hi.1]
  · rfl

end

end SeekFile
