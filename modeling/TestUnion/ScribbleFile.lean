import TestUnion.SeekFile
import TestUnion.Splits
import Mathlib.Data.UInt

/-!
# scribble-file

* `bi`, `bo`        where the two blocks of a pick are;
* `iteration`, `run`    one pass of the loop, and the passes for a list of picks;
* `iteration_bytes` a pass copies the first block over the second one;
* `Swapped`         the two blocks have changed places, and nothing else has changed;
* `Exchanges`       every pass swaps, and no byte is lost over the run;
* `exchanges_iff`   this is so when there is nothing to swap.
-/

namespace ScribbleFile

open Splits

abbrev File := SeekFile UInt8

def blocks (f : File) : ℕ := f.bytes.length / 4096

def bi (k : ℕ) : ℕ := 4096 * k

def bo (k : ℕ) : ℕ := bi k / 2

/-- The second block is read, and the first one is written in both places. -/
def iteration (f : File) (k : ℕ) : File :=
  let (bdi, f) := (f.seek (bi k)).read 4096
  let (_bdo, f) := (f.seek (bo k)).read 4096
  let f := (f.seek (bo k)).write (bdi.take 4096)
  (f.seek (bi k)).write (bdi.take 4096)

/-- the passes for the blocks that are drawn, six for each block of the file -/
def run (f : File) (picks : List ℕ) : File := picks.foldl iteration f

/-- a draw, with two blocks that do not overlap -/
structure Apart (f : File) (k : ℕ) : Prop where
  lt : k < blocks f
  disjoint : bo k + 4096 ≤ bi k

structure Swapped (k : ℕ) (old new : List UInt8) : Prop where
  length : new.length = old.length
  first : block new (bi k) 4096 = block old (bo k) 4096
  second : block new (bo k) 4096 = block old (bi k) 4096
  rest : ∀ i, ¬ (bi k ≤ i ∧ i < bi k + 4096) → ¬ (bo k ≤ i ∧ i < bo k + 4096) → new[i]? = old[i]?

def AllSwapped (f : File) (picks : List ℕ) : Prop :=
  ∀ a k b, picks = a ++ k :: b → Swapped k (run f a).bytes (run f (a ++ [k])).bytes

def Exchanges (f : File) (picks : List ℕ) : Prop :=
  AllSwapped f picks ∧ ∀ x, (run f picks).bytes.count x = f.bytes.count x

section
variable {f g : File} {k : ℕ} {picks : List ℕ}

theorem Apart.bi_le (h : Apart f k) : bi k + 4096 ≤ f.bytes.length := by
  have hlt := h.lt
  unfold blocks at hlt
  unfold bi
  omega

theorem Apart.length_block (h : Apart f k) : (block f.bytes (bi k) 4096).length = 4096 := by
  have hle := h.bi_le
  unfold block
  rw [List.length_take, List.length_drop]
  omega

theorem Apart.congr (h : Apart f k) (hbytes : g.bytes = f.bytes) : Apart g k := by
  refine ⟨?_, h.disjoint⟩
  show g.bytes.length / 4096 > k
  rw [hbytes]
  exact h.lt

/-- The last write finds its own bytes. -/
theorem iteration_bytes (h : Apart f k) : (iteration f k).bytes =
    ((f.seek (bo k)).write (block f.bytes (bi k) 4096)).bytes := by
  have hlen := h.length_block
  have hbi := h.bi_le
  have hdisjoint := h.disjoint
  have htake : (block f.bytes (bi k) 4096).take 4096 = block f.bytes (bi k) 4096 :=
    List.take_of_length_le (Nat.le_of_eq hlen)
  have hin : (f.seek (bo k)).pos + (block f.bytes (bi k) 4096).length ≤
      (f.seek (bo k)).bytes.length := by
    show bo k + _ ≤ f.bytes.length
    omega
  show ((SeekFile.seek ((f.seek (bo k)).write ((block f.bytes (bi k) 4096).take 4096)) (bi k)).write
    ((block f.bytes (bi k) 4096).take 4096)).bytes = _
  rw [htake]
  have hsame : block ((f.seek (bo k)).write (block f.bytes (bi k) 4096)).bytes (bi k) 4096 =
      block f.bytes (bi k) 4096 := by
    apply SeekFile.block_write_disjoint hin
    right
    show bo k + _ ≤ bi k
    omega
  apply SeekFile.write_block
  · show bi k + _ ≤ ((f.seek (bo k)).write _).bytes.length
    rw [SeekFile.length_write hin]
    show bi k + _ ≤ f.bytes.length
    omega
  · show _ = block ((f.seek (bo k)).write _).bytes (bi k) _
    rw [hlen, hsame]

theorem iteration_same (h : Apart f k)
    (heq : block f.bytes (bi k) 4096 = block f.bytes (bo k) 4096) :
    (iteration f k).bytes = f.bytes := by
  have hlen := h.length_block
  have hbi := h.bi_le
  have hdisjoint := h.disjoint
  rw [iteration_bytes h]
  apply SeekFile.write_block
  · show bo k + _ ≤ f.bytes.length
    omega
  · show _ = block f.bytes (bo k) _
    rw [hlen, heq]

theorem swapped_iff (h : Apart f k) : Swapped k f.bytes (iteration f k).bytes ↔
    block f.bytes (bi k) 4096 = block f.bytes (bo k) 4096 := by
  have hlen := h.length_block
  have hbi := h.bi_le
  have hdisjoint := h.disjoint
  have hin : (f.seek (bo k)).pos + (block f.bytes (bi k) 4096).length ≤
      (f.seek (bo k)).bytes.length := by
    show bo k + _ ≤ f.bytes.length
    omega
  constructor
  · intro hswap
    rw [← hswap.first, iteration_bytes h, SeekFile.block_write_disjoint hin]
    · rfl
    · right
      show bo k + _ ≤ bi k
      omega
  · intro heq
    rw [iteration_same h heq]
    exact ⟨rfl, heq, heq.symm, fun _ _ _ => rfl⟩

/-! ## the whole run -/

theorem run_cons : run f (k :: picks) = run (iteration f k) picks := rfl

theorem allSwapped_cons : AllSwapped f (k :: picks) ↔
    Swapped k f.bytes (iteration f k).bytes ∧ AllSwapped (iteration f k) picks :=
  forall_splits_cons (P := fun a j _ => Swapped j (run f a).bytes (run f (a ++ [j])).bytes)

/-- The file stays as it is as long as the passes swap equal blocks. -/
theorem allSwapped_iff (h : ∀ k ∈ picks, Apart f k) : AllSwapped f picks ↔
    ∀ k ∈ picks, block f.bytes (bi k) 4096 = block f.bytes (bo k) 4096 := by
  induction picks generalizing f with
  | nil => exact iff_of_true forall_splits_nil nofun
  | cons k picks ih =>
    have hk := h k List.mem_cons_self
    rw [allSwapped_cons, swapped_iff hk, List.forall_mem_cons]
    refine and_congr_right fun heq => ?_
    have hbytes := iteration_same hk heq
    rw [ih fun j hj => (h j (List.mem_cons_of_mem _ hj)).congr hbytes, hbytes]

theorem run_same (h : ∀ k ∈ picks, Apart f k)
    (heq : ∀ k ∈ picks, block f.bytes (bi k) 4096 = block f.bytes (bo k) 4096) :
    (run f picks).bytes = f.bytes := by
  induction picks generalizing f with
  | nil => rfl
  | cons k picks ih =>
    have hbytes := iteration_same (h k List.mem_cons_self) (heq k List.mem_cons_self)
    rw [run_cons, ih, hbytes]
    · exact fun j hj => (h j (List.mem_cons_of_mem _ hj)).congr hbytes
    · rw [hbytes]
      exact fun j hj => heq j (List.mem_cons_of_mem _ hj)

/-- The passes swap, and keep all bytes, when the two blocks of every pick are equal. -/
theorem exchanges_iff (h : ∀ k ∈ picks, Apart f k) : Exchanges f picks ↔
    ∀ k ∈ picks, block f.bytes (bi k) 4096 = block f.bytes (bo k) 4096 := by
  constructor
  · exact fun hex => (allSwapped_iff h).mp hex.1
  · intro heq
    exact ⟨(allSwapped_iff h).mpr heq, fun x => by rw [run_same h heq]⟩

theorem apart_two (hlen : f.bytes.length = 12288) : Apart f 2 := by
  refine ⟨?_, by decide⟩
  unfold blocks
  rw [hlen]
  decide

/-- all bytes from 0 to 255, again and again -/
def content : List UInt8 := (List.range 4096).map UInt8.ofNat

theorem length_content : content.length = 4096 := by
  unfold content
  rw [List.length_map, List.length_range]

/-- a block of its own, and two with the same content -/
def threeBlocks : File := ⟨List.replicate 4096 7 ++ (content ++ content), 0⟩

theorem length_threeBlocks : threeBlocks.bytes.length = 12288 := by
  show (List.replicate 4096 7 ++ (content ++ content)).length = _
  rw [List.length_append, List.length_append, List.length_replicate, length_content]

theorem exchanges_iff_content : Exchanges threeBlocks [2, 2] := by
  have hsecond : block threeBlocks.bytes (bi 2) 4096 = content := by
    show ((List.replicate 4096 7 ++ (content ++ content)).drop (4096 + 4096)).take 4096 = content
    rw [← List.drop_drop, List.drop_left' List.length_replicate, List.drop_left' length_content,
      List.take_of_length_le (Nat.le_of_eq length_content)]
  have hfirst : block threeBlocks.bytes (bo 2) 4096 = content := by
    show ((List.replicate 4096 7 ++ (content ++ content)).drop 4096).take 4096 = content
    rw [List.drop_left' List.length_replicate, List.take_left' length_content]
  apply (exchanges_iff _).mpr
  · intro k hk
    obtain rfl : k = 2 := by simpa using hk
    rw [hsecond, hfirst]
  · intro k hk
    obtain rfl : k = 2 := by simpa using hk
    exact apart_two length_threeBlocks

/-- The last of three blocks is lost for a copy of it in the second one. -/
theorem not_exchanges : ¬ ∀ (f : File) (picks : List ℕ), (∀ k ∈ picks, Apart f k) →
    Exchanges f picks := by
  intro h
  let f : File := ⟨List.replicate 8192 0 ++ List.replicate 4096 1, 0⟩
  have hapart : ∀ k ∈ [2], Apart f k := fun _ hk => by
    rw [List.mem_singleton.mp hk]
    refine apart_two ?_
    show (List.replicate 8192 (0 : UInt8) ++ List.replicate 4096 1).length = _
    rw [List.length_append, List.length_replicate, List.length_replicate]
  have heq := (allSwapped_iff hapart).mp (h f [2] hapart).1 2 List.mem_cons_self
  have hhead := congrArg (fun l => l[0]?) heq
  have hone : (block f.bytes (bi 2) 4096)[0]? = some 1 := by
    unfold block
    rw [List.getElem?_take_of_lt (by decide), List.getElem?_drop]
    show (List.replicate 8192 (0 : UInt8) ++ List.replicate 4096 1)[8192]? = _
    rw [List.getElem?_append_right (Nat.le_of_eq List.length_replicate), List.length_replicate,
      List.getElem?_replicate, if_pos (by decide)]
  have hzero : (block f.bytes (bo 2) 4096)[0]? = some 0 := by
    unfold block
    rw [List.getElem?_take_of_lt (by decide), List.getElem?_drop]
    show (List.replicate 8192 (0 : UInt8) ++ List.replicate 4096 1)[4096]? = _
    rw [List.getElem?_append_left (by rw [List.length_replicate]; decide),
      List.getElem?_replicate, if_pos (by decide)]
  have hbytes : some (1 : UInt8) = some 0 := hone.symm.trans (hhead.trans hzero)
  exact absurd hbytes (by decide)

end

end ScribbleFile
