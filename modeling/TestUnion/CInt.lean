import Mathlib.Algebra.Order.Group.Nat
import Mathlib.Data.Nat.Bits
import Mathlib.Tactic.Common
import Mathlib.Tactic.Ring

/-!
# C integers: `int` products, widening to 64 bits, alignment masks

`int` is `Int32`, `__u64` is `UInt64`; both wrap.

* `u64`             the conversion of an `int` to `__u64` (sign extension);
* `toNat_u64_mul`   an `int` product that fits is exact and so is its conversion;
* `signed64`        the value of a signed 64-bit expression, which has none when it overflows;
* `cNot`            the logical negation `!x`;
* `toNat_and_mask`  `x & ~((__u64) b - 1)` rounds `x` down to a multiple of the power of two `b`;
* `toInt_and_shifted`   so does `x & ~0 << k` for an `int` mask.
-/

namespace CInt

def u64 (i : Int32) : UInt64 := i.toInt64.toUInt64

/-- `!x` as a number -/
def cNot (x : UInt32) : UInt32 := if x = 0 then 1 else 0

theorem toNat_u64 {i : Int32} (h : 0 ≤ i.toInt) : (u64 i).toNat = i.toInt.toNat := by
  have h64 : (0 : Int64) ≤ i.toInt64 := by
    rw [Int64.le_iff_toInt_le, Int32.toInt_toInt64]
    exact h
  unfold u64
  rw [Int64.toNat_toUInt64_of_le h64]
  show i.toInt64.toInt.toNat = _
  rw [Int32.toInt_toInt64]

theorem toInt_ofNat {n : ℕ} (h : n < 2 ^ 31) : (Int32.ofNat n).toInt = n :=
  Int32.toInt_ofNat_of_lt h

theorem toInt_mul {a b : Int32} (h : -2 ^ 31 ≤ a.toInt * b.toInt) (h' : a.toInt * b.toInt < 2 ^ 31) :
    (a * b).toInt = a.toInt * b.toInt := by
  rw [Int32.toInt_mul, Int.bmod_eq_of_le]
  · simpa using h
  · simpa using h'

/-- `(__u64)(n * b)` for an `int` product that does not overflow -/
theorem toNat_u64_mul {n m : ℕ} {b : Int32} (hb : b.toInt = m) (hn : n < 2 ^ 31)
    (h : n * m < 2 ^ 31) : (u64 (Int32.ofNat n * b)).toNat = n * m := by
  have hp : (Int32.ofNat n).toInt * b.toInt = ((n * m : ℕ) : ℤ) := by
    rw [toInt_ofNat hn, hb]
    push_cast
    rfl
  have hm : (Int32.ofNat n * b).toInt = ((n * m : ℕ) : ℤ) := by
    rw [toInt_mul (by rw [hp]; omega) (by rw [hp]; omega), hp]
  rw [toNat_u64 (by rw [hm]; omega), hm]
  rfl

@[simp] theorem cNot_and_bit (x : UInt32) : cNot x &&& 0x800 = 0 := by
  unfold cNot
  split <;> rfl

/-- `x` is the exact value of the expression. -/
def signed64 {ε : Type*} (overflow : ε) (x : ℤ) : Except ε Int64 :=
  if -2 ^ 63 ≤ x ∧ x < 2 ^ 63 then .ok (Int64.ofInt x) else .error overflow

@[simp] theorem signed64_eq_ok {ε : Type*} {overflow : ε} {x : ℤ} {a : Int64} :
    signed64 overflow x = .ok a ↔ a.toInt = x := by
  unfold signed64
  split
  · next h =>
    have hx : (Int64.ofInt x).toInt = x := Int64.toInt_ofInt_of_le h.1 h.2
    refine ⟨?_, ?_⟩
    · intro e
      cases e
      exact hx
    · intro e
      rw [← e, Int64.ofInt_toInt]
  · next h =>
    refine ⟨nofun, ?_⟩
    intro e
    rw [← e] at h
    exact absurd ⟨a.le_toInt, a.toInt_lt⟩ h

theorem exists_signed64 {ε : Type*} (overflow : ε) {x : ℤ} (h : -2 ^ 63 ≤ x) (h' : x < 2 ^ 63) :
    ∃ a : Int64, signed64 overflow x = .ok a ∧ a.toInt = x :=
  ⟨Int64.ofInt x, if_pos ⟨h, h'⟩, Int64.toInt_ofInt_of_le h h'⟩

/-! ## masks -/

/-- clearing the low `k` bits -/
theorem and_mask_eq (x k : ℕ) (hk : k ≤ 64) (hx : x < 2 ^ 64) :
    x &&& (2 ^ 64 - 1 - (2 ^ k - 1)) = x / 2 ^ k * 2 ^ k := by
  have hpow : 2 ^ 64 - 1 - (2 ^ k - 1) = 2 ^ k * (2 ^ (64 - k) - 1) := by
    have h1 : 2 ^ k * 2 ^ (64 - k) = 2 ^ 64 := by rw [← pow_add]; congr 1; omega
    have h2 := Nat.two_pow_pos k
    rw [Nat.mul_sub, h1]
    omega
  apply Nat.eq_of_testBit_eq
  intro j
  rw [Nat.testBit_and, hpow, Nat.testBit_two_pow_mul, Nat.mul_comm (x / 2 ^ k),
    Nat.testBit_two_pow_mul, Nat.testBit_two_pow_sub_one, Nat.testBit_div_two_pow]
  by_cases hj : k ≤ j
  · simp only [hj, decide_true, Bool.true_and, Nat.sub_add_cancel hj]
    by_cases hj' : j < 64
    · have : j - k < 64 - k := by omega
      simp [this]
    · have h0 : x.testBit j = false :=
        Nat.testBit_lt_two_pow (lt_of_lt_of_le hx (Nat.pow_le_pow_right (by norm_num) (by omega)))
      simp [h0]
  · simp [hj]

theorem toNat_and_mask {b : UInt64} {k : ℕ} (hb : b.toNat = 2 ^ k) (x : UInt64) :
    (x &&& ~~~(b - 1)).toNat = x.toNat / 2 ^ k * 2 ^ k := by
  have hk : k < 64 := by
    by_contra hk
    have h1 := b.toNat_lt
    have h2 : 2 ^ 64 ≤ 2 ^ k := Nat.pow_le_pow_right (by norm_num) (by omega)
    omega
  have h1 : (b - 1).toNat = 2 ^ k - 1 := by
    have hle : (1 : UInt64) ≤ b := by
      rw [UInt64.le_iff_toNat_le, hb]
      exact Nat.two_pow_pos k
    rw [UInt64.toNat_sub_of_le _ _ hle, hb]
    rfl
  rw [UInt64.toNat_and, UInt64.toNat_not, h1]
  exact and_mask_eq x.toNat k (by omega) x.toNat_lt

/-- the comparison `(x & ~(b - 1)) == x` -/
theorem and_mask_eq_self {b : UInt64} {k : ℕ} (hb : b.toNat = 2 ^ k) (x : UInt64) :
    x &&& ~~~(b - 1) = x ↔ 2 ^ k ∣ x.toNat := by
  rw [← UInt64.toNat_inj, toNat_and_mask hb]
  refine ⟨?_, ?_⟩
  · intro h
    rw [← h]
    exact Nat.dvd_mul_left _ _
  · exact fun h => Nat.div_mul_cancel h

/-- `x & ~0 << k`, with the mask an `int`, rounds down too. -/
theorem toInt_and_shifted {k : ℕ} (hk : k < 32) {x : Int64} (hx : 0 ≤ x.toInt) :
    (x &&& (~~~0 <<< Int32.ofNat k : Int32).toInt64).toInt = x.toInt / 2 ^ k * 2 ^ k := by
  have hmask : ∀ k : Fin 32, (~~~0 <<< Int32.ofNat k : Int32).toInt64.toUInt64.toNat =
      2 ^ 64 - 1 - (2 ^ (k : ℕ) - 1) := by decide
  have hnat : x.toInt = (x.toUInt64.toNat : ℤ) := by
    rw [Int64.toNat_toUInt64_of_le (Int64.le_iff_toInt_le.mpr hx)]
    exact (Int.toNat_of_nonneg hx).symm
  have hlt : x.toUInt64.toNat < 2 ^ 63 := by
    have := x.toInt_lt
    omega
  have hand : (x &&& (~~~0 <<< Int32.ofNat k : Int32).toInt64).toUInt64.toNat =
      x.toUInt64.toNat / 2 ^ k * 2 ^ k := by
    rw [← and_mask_eq _ _ (by omega) (x.toUInt64.toNat_lt), ← hmask ⟨k, hk⟩]
    exact UInt64.toNat_and ..
  have hle : x.toUInt64.toNat / 2 ^ k * 2 ^ k ≤ x.toUInt64.toNat := Nat.div_mul_le_self _ _
  have hint : (x &&& (~~~0 <<< Int32.ofNat k : Int32).toInt64).toInt =
      ((x &&& (~~~0 <<< Int32.ofNat k : Int32).toInt64).toUInt64.toNat : ℤ) := by
    apply BitVec.toInt_eq_toNat_of_lt
    show 2 * (x &&& (~~~0 <<< Int32.ofNat k : Int32).toInt64).toUInt64.toNat < 2 ^ 64
    omega
  rw [hint, hand, hnat]
  push_cast
  rfl

theorem toInt_and_neg {x y : Int64} (hx : x.toInt < 0) (hy : y.toInt < 0) : (x &&& y).toInt < 0 := by
  have hmsb {z : Int64} : z.toInt < 0 ↔ z.toBitVec.msb = true := by
    rw [BitVec.msb_eq_toInt, decide_eq_true_eq]
    rfl
  rw [hmsb] at hx hy ⊢
  show (x.toBitVec &&& y.toBitVec).msb = true
  rw [BitVec.msb_and, hx, hy]
  rfl

end CInt
