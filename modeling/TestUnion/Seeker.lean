import Mathlib.Algebra.Order.Group.Nat
import Mathlib.Data.Int.Notation
import Mathlib.Tactic.Common
import Mathlib.Tactic.Ring

/-!
# seeker: the offsets that are read

* `exact64`         the value of a signed 64-bit expression, which has none when it overflows;
* `offset`          `(off64_t) numblocks * random() / RAND_MAX`;
* `iteration`       one round of the loop of `main`, and `reads` the reads that the loop counts;
* `Inside`          the offset is computed without overflow and names a sector of the device, and the
                    read stays on the device;
* `Small`           the numbers of sectors and the draws for which it does.
-/

namespace Seeker

def blocksize : ℤ := 512

def randMax : ℤ := 2147483647

def exact64 (x : ℤ) : Option ℤ := if -2 ^ 63 ≤ x ∧ x < 2 ^ 63 then some x else none

/-- `r` is what `random()` returns. -/
def offset (numblocks : UInt64) (r : ℤ) : Option ℤ :=
  (exact64 (numblocks.toInt64.toInt * r)).map fun product => product.tdiv randMax

/-- The position may be the end of the device. -/
def lseek64 (numblocks : UInt64) (pos : ℤ) : ℤ :=
  if 0 ≤ pos ∧ pos ≤ blocksize * numblocks.toNat then pos else -1

inductive Outcome where
  | overflow
  | exits
  | counted (pos : ℤ)
  deriving DecidableEq, Repr

/-- `retval` is an `int`. -/
def iteration (numblocks : UInt64) (r : ℤ) (readFails : Bool) : Outcome :=
  match (offset numblocks r).bind fun offset => exact64 (blocksize * offset) with
  | none => .overflow
  | some pos =>
    let retval := Int32.ofInt (lseek64 numblocks pos)
    if retval.toInt = -1 then .exits
    else if readFails = true then .exits
    else .counted pos

/-- The loop comes with the draws and with which reads fail. -/
def reads (numblocks : UInt64) : List (ℤ × Bool) → List ℤ
  | [] => []
  | (r, readFails) :: draws =>
    match iteration numblocks r readFails with
    | .counted pos => pos :: reads numblocks draws
    | .exits => []
    | .overflow => []

/-! ## which offsets are inside -/

structure OnDevice (numblocks : UInt64) (pos : ℤ) : Prop where
  start : 0 ≤ pos
  stop : pos + blocksize ≤ blocksize * numblocks.toNat

structure Inside (numblocks : UInt64) (r : ℤ) : Prop where
  sector : ∃ v, offset numblocks r = some v ∧ 0 ≤ v ∧ v ≤ (numblocks.toNat : ℤ) - 1
  read : ∀ readFails pos, iteration numblocks r readFails = .counted pos → OnDevice numblocks pos

/-- The draw is not the largest one and the product fits.  From `2 ^ 63` sectors on `numblocks` is
converted to a negative number, and only a quotient of 0 is a sector. -/
def Small (numblocks : UInt64) (r : ℤ) : Prop :=
  if numblocks.toNat < 2 ^ 63 then r < randMax ∧ numblocks.toNat * r < 2 ^ 63
  else (2 ^ 64 - numblocks.toNat) * r < randMax

section
variable {numblocks : UInt64} {r v pos : ℤ}

theorem toInt_toInt64 (x : UInt64) :
    x.toInt64.toInt = if x.toNat < 2 ^ 63 then (x.toNat : ℤ) else x.toNat - 2 ^ 64 := by
  show x.toBitVec.toInt = _
  rw [BitVec.toInt_eq_toNat_cond]
  have hnat : x.toBitVec.toNat = x.toNat := rfl
  rw [hnat]
  split <;> split <;> omega

theorem exact64_eq_some {x : ℤ} : exact64 x = some v ↔ (-2 ^ 63 ≤ x ∧ x < 2 ^ 63) ∧ x = v := by
  unfold exact64
  split
  · next h =>
    rw [Option.some_inj]
    exact ⟨fun e => ⟨h, e⟩, fun e => e.2⟩
  · next h => exact ⟨nofun, fun e => absurd e.1 h⟩

theorem offset_eq_some : offset numblocks r = some v ↔
    (-2 ^ 63 ≤ numblocks.toInt64.toInt * r ∧ numblocks.toInt64.toInt * r < 2 ^ 63) ∧
      (numblocks.toInt64.toInt * r).tdiv randMax = v := by
  unfold offset
  rw [Option.map_eq_some_iff]
  refine ⟨?_, ?_⟩
  · intro h
    obtain ⟨x, hx, hv⟩ := h
    obtain ⟨hfit, rfl⟩ := exact64_eq_some.mp hx
    exact ⟨hfit, hv⟩
  · intro h
    exact ⟨_, exact64_eq_some.mpr ⟨h.1, rfl⟩, h.2⟩

/-- A counted read is at the offset. -/
theorem iteration_counted {readFails : Bool} (h : iteration numblocks r readFails = .counted pos) :
    ∃ v, offset numblocks r = some v ∧ pos = blocksize * v := by
  unfold iteration at h
  split at h
  · cases h
  · next pos' heq =>
    obtain ⟨v, hv, hpos⟩ := Option.bind_eq_some_iff.mp heq
    obtain ⟨_, rfl⟩ := exact64_eq_some.mp hpos
    dsimp only at h
    split at h
    · cases h
    · split at h
      · cases h
      · cases h
        exact ⟨v, hv, rfl⟩

/-- The read is at the offset, so that it is enough to look at the sector. -/
theorem inside_iff : Inside numblocks r ↔
    ∃ v, offset numblocks r = some v ∧ 0 ≤ v ∧ v ≤ (numblocks.toNat : ℤ) - 1 := by
  refine ⟨fun h => h.sector, fun h => ⟨h, ?_⟩⟩
  intro readFails pos hcount
  obtain ⟨v, hv, h0, hlt⟩ := h
  obtain ⟨v', hv', rfl⟩ := iteration_counted hcount
  cases hv.symm.trans hv'
  refine ⟨?_, ?_⟩
  · show 0 ≤ 512 * v
    omega
  · show 512 * v + 512 ≤ 512 * (numblocks.toNat : ℤ)
    omega

theorem sector_of_lt (hn : 1 ≤ numblocks.toNat) (h0 : 0 ≤ r) (hlt : numblocks.toNat < 2 ^ 63) :
    (∃ v, offset numblocks r = some v ∧ 0 ≤ v ∧ v ≤ (numblocks.toNat : ℤ) - 1) ↔
      r < randMax ∧ numblocks.toNat * r < 2 ^ 63 := by
  have hx : numblocks.toInt64.toInt = numblocks.toNat := by rw [toInt_toInt64, if_pos hlt]
  have hpos : (0 : ℤ) ≤ numblocks.toNat * r := Int.mul_nonneg (Int.natCast_nonneg _) h0
  have hmax : (0 : ℤ) < randMax := by decide
  have hdiv : ((numblocks.toNat : ℤ) * r).tdiv randMax = numblocks.toNat * r / randMax :=
    Int.tdiv_eq_ediv_of_nonneg hpos
  have hlast : (numblocks.toNat : ℤ) * r / randMax < numblocks.toNat ↔ r < randMax := by
    rw [Int.ediv_lt_iff_lt_mul hmax]
    exact Int.mul_lt_mul_left (by omega)
  have hsome (v : ℤ) : offset numblocks r = some v ↔ _ := offset_eq_some
  rw [hx, hdiv] at hsome
  refine ⟨?_, ?_⟩
  · intro h
    obtain ⟨v, hv, _, hle⟩ := h
    obtain ⟨hfit, rfl⟩ := (hsome v).mp hv
    exact ⟨hlast.mp (by omega), hfit.2⟩
  · intro h
    have hv := hlast.mpr h.1
    exact ⟨_, (hsome _).mpr ⟨⟨by omega, h.2⟩, rfl⟩, Int.ediv_nonneg hpos hmax.le, by omega⟩

theorem sector_of_ge (h0 : 0 ≤ r) (hge : ¬ numblocks.toNat < 2 ^ 63) :
    (∃ v, offset numblocks r = some v ∧ 0 ≤ v ∧ v ≤ (numblocks.toNat : ℤ) - 1) ↔
      (2 ^ 64 - numblocks.toNat) * r < randMax := by
  have hsize := numblocks.toNat_lt
  have hx : numblocks.toInt64.toInt = -(2 ^ 64 - numblocks.toNat) := by
    rw [toInt_toInt64, if_neg hge]
    ring
  have hpos : (0 : ℤ) ≤ (2 ^ 64 - numblocks.toNat) * r := Int.mul_nonneg (by omega) h0
  have hmax : (0 : ℤ) < randMax := by decide
  have hdiv : (-((2 ^ 64 - (numblocks.toNat : ℤ)) * r)).tdiv randMax =
      -((2 ^ 64 - numblocks.toNat) * r / randMax) := by
    rw [Int.neg_tdiv, Int.tdiv_eq_ediv_of_nonneg hpos]
  have hzero := Int.ediv_nonneg hpos hmax.le
  have hsome (v : ℤ) : offset numblocks r = some v ↔ _ := offset_eq_some
  rw [hx, Int.neg_mul, hdiv] at hsome
  refine ⟨?_, ?_⟩
  · intro h
    obtain ⟨v, hv, h0v, _⟩ := h
    obtain ⟨_, rfl⟩ := (hsome v).mp hv
    have hlt : (2 ^ 64 - (numblocks.toNat : ℤ)) * r / randMax < 1 := by omega
    rw [Int.ediv_lt_iff_lt_mul hmax, Int.one_mul] at hlt
    exact hlt
  · intro h
    have hq := Int.ediv_eq_zero_of_lt hpos h
    have hfit : randMax < 2 ^ 63 := by decide
    exact ⟨_, (hsome _).mpr ⟨⟨by omega, by omega⟩, rfl⟩, by omega, by omega⟩

end

/-- For each draw the offset names a sector, and a counted read is inside, iff the draw and the
product are small; in a run of such draws all counted reads are inside. -/
theorem inside_iff_small {numblocks : UInt64} (hn : 1 ≤ numblocks.toNat) :
    (∀ r, 0 ≤ r → r ≤ randMax → (Inside numblocks r ↔ Small numblocks r)) ∧
      ∀ draws : List (ℤ × Bool), (∀ d ∈ draws, 0 ≤ d.1 ∧ d.1 ≤ randMax ∧ Small numblocks d.1) →
        ∀ pos ∈ reads numblocks draws, OnDevice numblocks pos := by
  have hiff : ∀ r, 0 ≤ r → r ≤ randMax → (Inside numblocks r ↔ Small numblocks r) := by
    intro r h0 _
    rw [inside_iff]
    unfold Small
    split
    · next hlt => exact sector_of_lt hn h0 hlt
    · next hge => exact sector_of_ge h0 hge
  refine ⟨hiff, ?_⟩
  intro draws
  induction draws with
  | nil => exact fun _ pos hpos => by cases hpos
  | cons d draws ih =>
    obtain ⟨r, readFails⟩ := d
    intro hall pos hpos
    rw [List.forall_mem_cons] at hall
    obtain ⟨⟨h0, hr, hsmall⟩, hrest⟩ := hall
    unfold reads at hpos
    split at hpos
    · next pos' hcount =>
      rcases List.mem_cons.mp hpos with rfl | hpos
      · exact ((hiff r h0 hr).mpr hsmall).read _ _ hcount
      · exact ih hrest pos hpos
    · cases hpos
    · cases hpos

/-- a device of 8 GiB, up to its last sector -/
theorem inside_iff_small_large :
    Inside 16777216 2147483646 ∧
      reads 16777216 [(1000000, false), (2147483646, false), (0, true), (5, false)] =
        [3999744, 8589934080] ∧
      ∀ pos ∈ reads 16777216 [(1000000, false), (2147483646, false), (0, true), (5, false)],
        OnDevice 16777216 pos := by
  have hn : 1 ≤ (16777216 : UInt64).toNat := by decide
  have hsmall : ∀ r ∈ [1000000, 2147483646, 0, 5], 0 ≤ r ∧ r ≤ randMax ∧ Small 16777216 r := by
    unfold Small
    decide
  obtain ⟨hinside, hreads⟩ := inside_iff_small hn
  refine ⟨?_, by decide +kernel, hreads _ ?_⟩
  · obtain ⟨h0, hle, h⟩ := hsmall 2147483646 (by simp)
    exact (hinside _ h0 hle).mpr h
  · intro d hd
    apply hsmall
    have hmem := List.mem_map_of_mem (f := Prod.fst) hd
    exact hmem

/-- The largest draw leads to the end of the device, where nothing is read and the seek is counted. -/
theorem not_inside :
    ¬ ∀ numblocks : UInt64, 1 ≤ numblocks.toNat → ∀ r, 0 ≤ r → r ≤ randMax → Inside numblocks r := by
  intro hall
  obtain ⟨v, hv, _, hle⟩ := (hall 1 (by decide) randMax (by decide) (by decide)).sector
  have hend : offset 1 randMax = some 1 := by decide
  cases hend.symm.trans hv
  exact absurd hle (by decide)

end Seeker
