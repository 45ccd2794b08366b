import Mathlib.Algebra.Order.Round
import Mathlib.Data.Int.Log
import Mathlib.Data.Rat.Floor
import Mathlib.Tactic.FieldSimp
import Mathlib.Tactic.Linarith
import Mathlib.Tactic.Positivity
import Mathlib.Tactic.Ring

/-!
# Rounding of nonnegative numbers

* `Rounding`        representable numbers and a rounding to the nearest one, in which the product of
                    `x` and a representable number below 1 is rounded to less than `x`;
* `Rounding.scale_le`   a rounded `d` times a draw below 1, rounded, does not exceed `d`;
* `Rounding.exact`  every number is representable;
* `roundEven`, `flBinary`, `Rounding.binary p`   binary numbers with `p + 1` significant bits, ties to
                    even, exponents unbounded.
-/

structure Rounding where
  rep : Set ℚ
  fl : ℚ → ℚ
  nonneg : ∀ y ∈ rep, 0 ≤ y
  fl_mem : ∀ x, 0 ≤ x → fl x ∈ rep
  nearest : ∀ x, 0 ≤ x → ∀ y ∈ rep, |fl x - x| ≤ |y - x|
  mul_lt : ∀ x ∈ rep, ∀ r ∈ rep, 0 < x → r < 1 → fl (x * r) < x

namespace Rounding

/-- a representable number in `[0, 1)` -/
abbrev Draw (A : Rounding) : Type := {r : ℚ // r ∈ A.rep ∧ r < 1}

variable (A : Rounding) {x y d : ℚ}

/-- No representable number lies between a number and its rounding. -/
theorem le_of_lt_fl (hd : 0 ≤ d) (hy : y ∈ A.rep) (hlt : y < A.fl d) : y ≤ d := by
  by_contra hgt
  push Not at hgt
  have h := A.nearest d hd y hy
  rw [abs_of_pos (by linarith), abs_of_pos (by linarith)] at h
  linarith

theorem fl_le (hx : 0 ≤ x) (hy : y ∈ A.rep) (hle : x ≤ y) : A.fl x ≤ y := by
  by_contra hgt
  push Not at hgt
  have h := A.nearest x hx y hy
  rw [abs_of_pos (by linarith), abs_of_nonneg (by linarith)] at h
  linarith

theorem scale_nonneg (hd : 0 ≤ d) (r : A.Draw) : 0 ≤ A.fl (A.fl d * r.1) := by
  apply A.nonneg _ (A.fl_mem _ _)
  exact mul_nonneg (A.nonneg _ (A.fl_mem d hd)) (A.nonneg _ r.2.1)

theorem scale_le (hd : 0 ≤ d) (r : A.Draw) : A.fl (A.fl d * r.1) ≤ d := by
  have hmem := A.fl_mem d hd
  have h0 := A.nonneg _ hmem
  have hr0 := A.nonneg _ r.2.1
  have hprod : 0 ≤ A.fl d * r.1 := mul_nonneg h0 hr0
  rcases le_or_gt (A.fl d) d with hle | hgt
  · have hmul : A.fl d * r.1 ≤ A.fl d := mul_le_of_le_one_right h0 r.2.2.le
    exact (A.fl_le hprod hmem hmul).trans hle
  · have hlt := A.mul_lt _ hmem r.1 r.2.1 (lt_of_le_of_lt hd hgt) r.2.2
    exact A.le_of_lt_fl hd (A.fl_mem _ hprod) hlt

def exact : Rounding where
  rep := {x | 0 ≤ x}
  fl x := x
  nonneg _ h := h
  fl_mem _ h := h
  nearest x _ y _ := by
    rw [sub_self, abs_zero]
    exact abs_nonneg _
  mul_lt x _ r _ hx hr := mul_lt_of_lt_one_right hx hr

end Rounding

/-! ## binary numbers -/

/-- the nearest integer, and the even one of two -/
def roundEven (q : ℚ) : ℤ :=
  if Int.fract q < 1 / 2 then ⌊q⌋
  else if 1 / 2 < Int.fract q then ⌊q⌋ + 1
  else if ⌊q⌋ % 2 = 0 then ⌊q⌋ else ⌊q⌋ + 1

theorem roundEven_nearest (q : ℚ) (z : ℤ) : |(roundEven q : ℚ) - q| ≤ |(z : ℚ) - q| := by
  have hmin : |(roundEven q : ℚ) - q| = min (Int.fract q) (1 - Int.fract q) := by
    have hf := Int.fract_nonneg q
    have hf1 := Int.fract_lt_one q
    have hfl : (⌊q⌋ : ℚ) - q = -Int.fract q := by
      rw [Int.fract]
      ring
    have hdown : |(⌊q⌋ : ℚ) - q| = Int.fract q := by rw [hfl, abs_neg, abs_of_nonneg hf]
    have hup : |((⌊q⌋ + 1 : ℤ) : ℚ) - q| = 1 - Int.fract q := by
      rw [Int.cast_add, Int.cast_one, show (⌊q⌋ : ℚ) + 1 - q = 1 - Int.fract q by linarith,
        abs_of_pos (by linarith)]
    unfold roundEven
    split_ifs with h1 h2 h3
    · rw [hdown, min_eq_left (by linarith)]
    · rw [hup, min_eq_right (by linarith)]
    · rw [hdown, min_eq_left (by linarith)]
    · rw [hup, min_eq_right (by linarith)]
  rw [hmin, ← abs_sub_round_eq_min, abs_sub_comm (z : ℚ) q]
  exact round_le q z

/-- the exponent of the last of `p + 1` significant bits -/
def lastExp (p : ℕ) (x : ℚ) : ℤ := Int.log 2 x - p

def flBinary (p : ℕ) (x : ℚ) : ℚ :=
  if x ≤ 0 then 0 else roundEven (x / 2 ^ lastExp p x) * 2 ^ lastExp p x

/-- `m * 2 ^ e` with at most `p + 1` bits in `m`, or a power of two -/
def Binary (p : ℕ) : Set ℚ := {x | ∃ (m : ℕ) (e : ℤ), m ≤ 2 ^ (p + 1) ∧ x = m * 2 ^ e}

section
variable {p : ℕ} {x y r : ℚ}

theorem two_zpow_pos (e : ℤ) : (0 : ℚ) < 2 ^ e := zpow_pos (by norm_num) e

theorem significand_bounds (hx : 0 < x) :
    (2 : ℚ) ^ p ≤ x / 2 ^ lastExp p x ∧ x / 2 ^ lastExp p x < 2 ^ (p + 1) := by
  have hsplit (k : ℕ) : (2 : ℚ) ^ k * 2 ^ lastExp p x = 2 ^ (Int.log 2 x + (k - p)) := by
    rw [lastExp, ← zpow_natCast, ← zpow_add₀ (by norm_num)]
    congr 1
    ring
  refine ⟨?_, ?_⟩
  · rw [le_div_iff₀ (two_zpow_pos _), hsplit, sub_self, add_zero]
    exact_mod_cast Int.zpow_log_le_self (by norm_num) hx
  · rw [div_lt_iff₀ (two_zpow_pos _), hsplit]
    have h := Int.lt_zpow_succ_log_self (b := 2) (by norm_num) x
    have hexp : Int.log 2 x + (((p + 1 : ℕ) : ℤ) - p) = Int.log 2 x + 1 := by
      push_cast
      ring
    rw [hexp]
    exact_mod_cast h

theorem binary_mem {m : ℕ} {e : ℤ} (h : m ≤ 2 ^ (p + 1)) : (m : ℚ) * 2 ^ e ∈ Binary p :=
  ⟨m, e, h, rfl⟩

theorem zero_mem_binary : (0 : ℚ) ∈ Binary p := ⟨0, 0, Nat.zero_le _, by norm_num⟩

theorem binary_nonneg (h : x ∈ Binary p) : 0 ≤ x := by
  obtain ⟨m, e, _, rfl⟩ := h
  exact mul_nonneg (Nat.cast_nonneg m) (two_zpow_pos e).le

/-- A binary number is a multiple of the last bit of `x`, or is not above the first one. -/
theorem binary_multiple (hy : y ∈ Binary p) (e : ℤ) :
    (∃ n : ℕ, y = n * 2 ^ e) ∨ y ≤ 2 ^ p * 2 ^ e := by
  obtain ⟨m, e', hm, rfl⟩ := hy
  rcases le_or_gt e e' with hle | hlt
  · obtain ⟨k, hk⟩ := Int.eq_ofNat_of_zero_le (sub_nonneg.mpr hle)
    have he : e' = k + e := by omega
    refine .inl ⟨m * 2 ^ k, ?_⟩
    rw [he, zpow_add₀ (by norm_num), zpow_natCast]
    push_cast
    ring
  · have hpow : (2 : ℚ) ^ e' ≤ 2 ^ (e - 1) := zpow_le_zpow_right₀ (by norm_num) (by omega)
    have hcast : (m : ℚ) ≤ 2 ^ (p + 1) := by exact_mod_cast hm
    right
    calc (m : ℚ) * 2 ^ e' ≤ 2 ^ (p + 1) * 2 ^ (e - 1) :=
          mul_le_mul hcast hpow (two_zpow_pos _).le (by positivity)
      _ = 2 ^ p * 2 ^ e := by
          rw [zpow_sub_one₀ (by norm_num), pow_succ]
          field_simp

theorem significand_of_mem (hx : 0 < x) (h : x ∈ Binary p) :
    ∃ n : ℕ, 2 ^ p ≤ n ∧ n < 2 ^ (p + 1) ∧ x = n * 2 ^ lastExp p x := by
  obtain ⟨hlo, hhi⟩ := significand_bounds (p := p) hx
  generalize lastExp p x = e at hlo hhi ⊢
  have hu := two_zpow_pos e
  rw [le_div_iff₀ hu] at hlo
  rw [div_lt_iff₀ hu] at hhi
  rcases binary_multiple h e with ⟨n, hn⟩ | hle
  · rw [hn] at hlo hhi
    have h1 := le_of_mul_le_mul_right hlo hu
    have h2 := lt_of_mul_lt_mul_right hhi hu.le
    exact ⟨n, by exact_mod_cast h1, by exact_mod_cast h2, hn⟩
  · refine ⟨2 ^ p, le_rfl, Nat.pow_lt_pow_right (by norm_num) (Nat.lt_succ_self p), ?_⟩
    push_cast
    exact le_antisymm hle hlo

theorem flBinary_of_pos (hx : 0 < x) :
    flBinary p x = roundEven (x / 2 ^ lastExp p x) * 2 ^ lastExp p x := if_neg hx.not_ge

theorem flBinary_mem (hx : 0 ≤ x) : flBinary p x ∈ Binary p := by
  rcases hx.eq_or_lt with rfl | hx
  · exact ⟨0, 0, Nat.zero_le _, by simp [flBinary]⟩
  rw [flBinary_of_pos hx]
  obtain ⟨hlo, hhi⟩ := significand_bounds (p := p) hx
  have hfloor : ⌊x / 2 ^ lastExp p x⌋ < 2 ^ (p + 1) := Int.floor_lt.mpr (by exact_mod_cast hhi)
  have hzero : 0 ≤ ⌊x / 2 ^ lastExp p x⌋ :=
    Int.floor_nonneg.mpr ((by positivity : (0 : ℚ) ≤ 2 ^ p).trans hlo)
  have hround : 0 ≤ roundEven (x / 2 ^ lastExp p x) ∧
      roundEven (x / 2 ^ lastExp p x) ≤ 2 ^ (p + 1) := by
    unfold roundEven
    split_ifs <;> omega
  obtain ⟨m, hm⟩ := Int.eq_ofNat_of_zero_le hround.1
  rw [hm] at hround ⊢
  exact binary_mem (by exact_mod_cast hround.2)

theorem flBinary_nearest (hx : 0 ≤ x) (hy : y ∈ Binary p) : |flBinary p x - x| ≤ |y - x| := by
  rcases hx.eq_or_lt with rfl | hx
  · simp [flBinary]
  have hu := two_zpow_pos (lastExp p x)
  have hscale (z : ℚ) :
      |z * 2 ^ lastExp p x - x| = |z - x / 2 ^ lastExp p x| * 2 ^ lastExp p x := by
    rw [← abs_of_pos hu, ← abs_mul, abs_of_pos hu, sub_mul, div_mul_cancel₀ _ hu.ne']
  have hround (z : ℤ) : |flBinary p x - x| ≤ |(z : ℚ) * 2 ^ lastExp p x - x| := by
    rw [flBinary_of_pos hx, hscale, hscale]
    exact mul_le_mul_of_nonneg_right (roundEven_nearest _ z) hu.le
  rcases binary_multiple hy (lastExp p x) with ⟨n, rfl⟩ | hle
  · exact_mod_cast hround n
  · -- the first bit of `x` lies between `y` and `x`
    have hlo := (significand_bounds (p := p) hx).1
    rw [le_div_iff₀ hu] at hlo
    have h := hround (2 ^ p)
    push_cast at h
    rw [abs_of_nonpos (sub_nonpos.mpr hlo)] at h
    rw [abs_of_nonpos (by linarith : y - x ≤ 0)]
    linarith

theorem draw_le (hr : r ∈ Binary p) (hlt : r < 1) : r ≤ 1 - 1 / 2 ^ (p + 1) := by
  have hu : (0 : ℚ) < 2 ^ (p + 1) := by positivity
  rcases binary_multiple hr (-((p + 1 : ℕ) : ℤ)) with ⟨n, rfl⟩ | hle
  · rw [zpow_neg, zpow_natCast, ← div_eq_mul_inv] at hlt ⊢
    rw [div_lt_one hu] at hlt
    have hn : n + 1 ≤ 2 ^ (p + 1) := by exact_mod_cast hlt
    have hcast : (n : ℚ) + 1 ≤ 2 ^ (p + 1) := by exact_mod_cast hn
    rw [div_le_iff₀ hu, sub_mul, one_div_mul_cancel hu.ne']
    linarith
  · have hhalf : (2 : ℚ) ^ p * 2 ^ (-((p + 1 : ℕ) : ℤ)) = 1 / 2 := by
      rw [zpow_neg, zpow_natCast, pow_succ]
      field_simp
    have hone : 1 / (2 : ℚ) ^ (p + 1) ≤ 1 / 2 := by
      apply one_div_le_one_div_of_le (by norm_num)
      calc (2 : ℚ) = 2 ^ 1 := (pow_one 2).symm
        _ ≤ 2 ^ (p + 1) := pow_le_pow_right₀ (by norm_num) (by omega)
    linarith

/-- If a representable `x - δ` is left of the midpoint of `x - δ` and `x`, then a number there is
rounded to less than `x`. -/
theorem flBinary_lt {δ : ℚ} (hy : 0 ≤ y) (hmem : x - δ ∈ Binary p) (hδ : 0 < δ)
    (hmid : y < x - δ / 2) : flBinary p y < x := by
  have h := flBinary_nearest hy hmem
  have hlt : |x - δ - y| < x - y := abs_lt.mpr ⟨by linarith, by linarith⟩
  have := le_abs_self (flBinary p y - y)
  linarith

theorem flBinary_mul_lt (hx : x ∈ Binary p) (hr : r ∈ Binary p) (hpos : 0 < x) (hlt : r < 1) :
    flBinary p (x * r) < x := by
  obtain ⟨n, hlo, hhi, hn⟩ := significand_of_mem hpos hx
  generalize lastExp p x = e at hn
  have hu := two_zpow_pos e
  have hpow : (0 : ℚ) < 2 ^ (p + 1) := by positivity
  have hprod : x * r ≤ x - x / 2 ^ (p + 1) := by
    calc x * r ≤ x * (1 - 1 / 2 ^ (p + 1)) := mul_le_mul_of_nonneg_left (draw_le hr hlt) hpos.le
      _ = x - x / 2 ^ (p + 1) := by ring
  have hnonneg : 0 ≤ x * r := mul_nonneg hpos.le (binary_nonneg hr)
  rcases hlo.eq_or_lt with heq | hgt
  · -- the number before a power of two is half a last bit away
    have hhalf : x / 2 ^ (p + 1) = (2 : ℚ) ^ e / 2 := by
      rw [div_eq_iff hpow.ne']
      rw [hn, ← heq]
      push_cast
      ring
    apply flBinary_lt hnonneg (x := x) (δ := 2 ^ e / 2)
    · have hmem : ((2 ^ (p + 1) - 1 : ℕ) : ℚ) * 2 ^ (e - 1) ∈ Binary p :=
        binary_mem (Nat.sub_le _ _)
      have hval : ((2 ^ (p + 1) - 1 : ℕ) : ℚ) * 2 ^ (e - 1) =
          x - (2 : ℚ) ^ e / 2 := by
        rw [hn, ← heq]
        rw [Nat.cast_sub Nat.one_le_two_pow, zpow_sub_one₀ (by norm_num)]
        push_cast
        ring
      rwa [hval] at hmem
    · linarith
    · linarith
  · have hhalf : (2 : ℚ) ^ e / 2 < x / 2 ^ (p + 1) := by
      have hcast : (2 : ℚ) ^ p < n := by exact_mod_cast hgt
      rw [lt_div_iff₀ hpow]
      rw [hn]
      calc (2 : ℚ) ^ e / 2 * 2 ^ (p + 1) = 2 ^ p * 2 ^ e := by ring
        _ < n * 2 ^ e := mul_lt_mul_of_pos_right hcast hu
    apply flBinary_lt hnonneg (x := x) (δ := 2 ^ e)
    · have hmem : ((n - 1 : ℕ) : ℚ) * 2 ^ e ∈ Binary p := binary_mem (by omega)
      have hval : ((n - 1 : ℕ) : ℚ) * 2 ^ e = x - 2 ^ e := by
        rw [hn]
        rw [Nat.cast_sub (by omega)]
        push_cast
        ring
      rwa [hval] at hmem
    · exact hu
    · linarith

end

namespace Rounding

def binary (p : ℕ) : Rounding where
  rep := Binary p
  fl := flBinary p
  nonneg _ h := binary_nonneg h
  fl_mem _ h := flBinary_mem h
  nearest _ hx _ hy := flBinary_nearest hx hy
  mul_lt _ hx _ hr hpos hlt := flBinary_mul_lt hx hr hpos hlt

/-- the arithmetic of `double`, on numbers that do not overflow -/
def double : Rounding := binary 52

end Rounding
