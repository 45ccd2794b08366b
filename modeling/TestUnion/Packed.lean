import Mathlib.Algebra.Group.Nat.Defs
import Mathlib.Data.List.Basic

/-!
# Packed structures

Numbers of a fixed width one after the other, without padding.

* `Order`, `Code`   the order of the bytes, and the widths;
* `encode`, `decode`    one number;
* `calcsize`, `pack`, `unpack`   a format; a number that does not fit, or a text of another length,
                    is an error;
* `pack_some`       numbers that fit are packed;
* `unpack_pack`     what was packed comes back.
-/

namespace Packed

inductive Order where
  | little
  | big

inductive Code where
  | l
  | q

def Code.size : Code → ℕ
  | .l => 4
  | .q => 8

abbrev Format := List Code

/-! ## one number -/

def lowFirst : ℕ → ℕ → List UInt8
  | 0, _ => []
  | k + 1, n => UInt8.ofNat n :: lowFirst k (n / 256)

def ofLowFirst : List UInt8 → ℕ
  | [] => 0
  | b :: bs => b.toNat + 256 * ofLowFirst bs

def encode : Order → ℕ → ℕ → List UInt8
  | .little, k, n => lowFirst k n
  | .big, k, n => (lowFirst k n).reverse

def decode : Order → List UInt8 → ℕ
  | .little, bs => ofLowFirst bs
  | .big, bs => ofLowFirst bs.reverse

/-! ## a format -/

def calcsize : Format → ℕ
  | [] => 0
  | c :: fmt => c.size + calcsize fmt

def pack (o : Order) : Format → List ℕ → Option (List UInt8)
  | [], [] => some []
  | c :: fmt, n :: ns =>
    if n < 256 ^ c.size then (pack o fmt ns).map fun s => encode o c.size n ++ s else none
  | _, _ => none

def fieldsFrom (o : Order) : Format → List UInt8 → List ℕ
  | [], _ => []
  | c :: fmt, s => decode o (s.take c.size) :: fieldsFrom o fmt (s.drop c.size)

def unpack (o : Order) (fmt : Format) (s : List UInt8) : Option (List ℕ) :=
  if s.length = calcsize fmt then some (fieldsFrom o fmt s) else none

section
variable {o : Order} {fmt : Format} {ns : List ℕ} {s : List UInt8} {k n : ℕ}

@[simp] theorem length_lowFirst (k n : ℕ) : (lowFirst k n).length = k := by
  induction k generalizing n with
  | zero => rfl
  | succ k ih => exact congrArg (· + 1) (ih (n / 256))

theorem ofLowFirst_lowFirst (h : n < 256 ^ k) : ofLowFirst (lowFirst k n) = n := by
  induction k generalizing n with
  | zero =>
    rw [Nat.pow_zero] at h
    show 0 = n
    omega
  | succ k ih =>
    have hdiv : n / 256 < 256 ^ k := by
      rw [Nat.div_lt_iff_lt_mul (by decide)]
      rwa [Nat.pow_succ] at h
    show (UInt8.ofNat n).toNat + 256 * ofLowFirst (lowFirst k (n / 256)) = n
    rw [ih hdiv, UInt8.toNat_ofNat']
    omega

@[simp] theorem length_encode : (encode o k n).length = k := by
  cases o with
  | little => exact length_lowFirst k n
  | big => exact (List.length_reverse).trans (length_lowFirst k n)

theorem decode_encode (h : n < 256 ^ k) : decode o (encode o k n) = n := by
  cases o with
  | little => exact ofLowFirst_lowFirst h
  | big =>
    show ofLowFirst (lowFirst k n).reverse.reverse = n
    rw [List.reverse_reverse, ofLowFirst_lowFirst h]

theorem pack_cons_some {c : Code} (h : pack o (c :: fmt) ns = some s) : ∃ n ms t,
    ns = n :: ms ∧ n < 256 ^ c.size ∧ pack o fmt ms = some t ∧ s = encode o c.size n ++ t := by
  cases ns with
  | nil => cases h
  | cons n ms =>
    unfold pack at h
    split at h
    · next hn =>
      obtain ⟨t, ht, rfl⟩ := Option.map_eq_some_iff.mp h
      exact ⟨n, ms, t, rfl, hn, ht, rfl⟩
    · cases h

theorem length_pack (h : pack o fmt ns = some s) : s.length = calcsize fmt := by
  induction fmt generalizing ns s with
  | nil =>
    cases ns with
    | nil =>
      cases h
      rfl
    | cons n ns => cases h
  | cons c fmt ih =>
    obtain ⟨n, ms, t, -, -, ht, rfl⟩ := pack_cons_some h
    rw [List.length_append, length_encode, ih ht]
    rfl

theorem fieldsFrom_pack (h : pack o fmt ns = some s) : fieldsFrom o fmt s = ns := by
  induction fmt generalizing ns s with
  | nil =>
    cases ns with
    | nil => rfl
    | cons n ns => cases h
  | cons c fmt ih =>
    obtain ⟨n, ms, t, rfl, hn, ht, rfl⟩ := pack_cons_some h
    show decode o ((encode o c.size n ++ t).take c.size) ::
      fieldsFrom o fmt ((encode o c.size n ++ t).drop c.size) = _
    rw [List.take_left' length_encode, List.drop_left' length_encode, decode_encode hn, ih ht]

theorem unpack_pack (h : pack o fmt ns = some s) : unpack o fmt s = some ns := by
  unfold unpack
  rw [if_pos (length_pack h), fieldsFrom_pack h]

theorem pack_some (h : List.Forall₂ (fun (c : Code) n => n < 256 ^ c.size) fmt ns) :
    ∃ s, pack o fmt ns = some s := by
  induction h with
  | nil => exact ⟨[], rfl⟩
  | cons hn _ ih =>
    obtain ⟨t, ht⟩ := ih
    unfold pack
    rw [if_pos hn, ht]
    exact ⟨_, rfl⟩

end

end Packed
