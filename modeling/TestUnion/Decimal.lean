import Mathlib.Algebra.Group.Nat.Defs
import Mathlib.Data.Int.Notation
import Mathlib.Data.List.Basic
import Mathlib.Tactic.Common

/-!
# Decimal numerals

* `decimal`         `%d` of `printf`;
* `zeroPad`, `zeroPadInt`   `%0wd`, of a natural number and of an integer;
* `zeroPad_inj`, `zeroPadInt_inj`   different numbers, different texts;
* `minus_notMem_zeroPad`    the text of a natural number has no `'-'`;
* `ofDigitChars_lt`           digits spell a number with no more digits than there are;
* `split_at_sep`              a list with a separator falls apart at its first one in one way;
* `reread c n`      the number that the decimal numeral of `n` is in base `c`;
* `reread_step`, `reread_lt`, `le_reread`   its last digit, and its size.
-/

def decimal (i : ℤ) : List Char :=
  if i < 0 then '-' :: Nat.toDigits 10 i.natAbs else Nat.toDigits 10 i.natAbs

def zeroPad (w n : ℕ) : List Char :=
  List.replicate (w - (Nat.toDigits 10 n).length) '0' ++ Nat.toDigits 10 n

/-- The sign counts for the width. -/
def zeroPadInt (w : ℕ) (i : ℤ) : List Char :=
  if i < 0 then '-' :: zeroPad (w - 1) i.natAbs else zeroPad w i.natAbs

section
variable {w n m : ℕ} {i j : ℤ}

/-- The value of the text is the number. -/
@[simp] theorem ofDigitChars_zeroPad (w n : ℕ) : Nat.ofDigitChars 10 (zeroPad w n) 0 = n := by
  unfold zeroPad
  rw [Nat.ofDigitChars_append, Nat.ofDigitChars_replicate_zero, Nat.mul_zero,
    Nat.ofDigitChars_ten_toDigits]

theorem toDigits_inj (h : Nat.toDigits 10 n = Nat.toDigits 10 m) : n = m := by
  have hval := congrArg (fun s => Nat.ofDigitChars 10 s 0) h
  simpa only [Nat.ofDigitChars_ten_toDigits] using hval

theorem zeroPad_inj (h : zeroPad w n = zeroPad w m) : n = m := by
  have hval := congrArg (fun s => Nat.ofDigitChars 10 s 0) h
  simpa only [ofDigitChars_zeroPad] using hval

theorem isDigit_of_mem_toDigits {c : Char} (h : c ∈ Nat.toDigits 10 n) : c.isDigit = true :=
  Nat.isDigit_of_mem_toDigits (by decide) (by decide) h

theorem notMem_toDigits {c : Char} (hc : c.isDigit = false) (n : ℕ) : c ∉ Nat.toDigits 10 n := by
  intro h
  rw [isDigit_of_mem_toDigits h] at hc
  cases hc

theorem minus_notMem_toDigits (n : ℕ) : '-' ∉ Nat.toDigits 10 n := notMem_toDigits (by decide) n

theorem minus_notMem_zeroPad (w n : ℕ) : '-' ∉ zeroPad w n := by
  unfold zeroPad
  rw [List.mem_append, List.mem_replicate, not_or]
  exact ⟨fun h => absurd h.2 (by decide), minus_notMem_toDigits n⟩

theorem ofDigitChars_lt {b init : ℕ} {l : List Char} (hb : 10 ≤ b) (hl : ∀ c ∈ l, c.isDigit = true) :
    Nat.ofDigitChars b l init < b ^ l.length * (init + 1) := by
  induction l generalizing init with
  | nil =>
    rw [Nat.ofDigitChars_nil, List.length_nil, Nat.pow_zero, Nat.one_mul]
    exact Nat.lt_succ_self init
  | cons c l ih =>
    have hdigit : c.toNat - '0'.toNat < 10 := by
      have hc : 48 ≤ c.toNat ∧ c.toNat ≤ 57 := Char.isDigit_iff_toNat.mp (hl c List.mem_cons_self)
      show c.toNat - 48 < 10
      omega
    rw [Nat.ofDigitChars_cons, List.length_cons]
    calc Nat.ofDigitChars b l (b * init + (c.toNat - '0'.toNat))
        < b ^ l.length * (b * init + (c.toNat - '0'.toNat) + 1) :=
          ih fun a ha => hl a (List.mem_cons_of_mem _ ha)
      _ ≤ b ^ l.length * (b * (init + 1)) :=
          Nat.mul_le_mul_left _ (by rw [Nat.mul_add]; omega)
      _ = b ^ (l.length + 1) * (init + 1) := by rw [Nat.pow_succ, Nat.mul_assoc]

theorem split_at_sep {α : Type*} {x : α} {a b c d : List α} (ha : x ∉ a) (hc : x ∉ c)
    (h : a ++ x :: b = c ++ x :: d) : a = c ∧ b = d := by
  induction a generalizing c with
  | nil =>
    cases c with
    | nil => exact ⟨rfl, (List.cons.inj h).2⟩
    | cons y c => exact absurd (List.cons.inj h).1 (fun e => hc (e ▸ List.mem_cons_self))
  | cons y a ih =>
    cases c with
    | nil => exact absurd (List.cons.inj h).1.symm (fun e => ha (e ▸ List.mem_cons_self))
    | cons z c =>
      obtain ⟨hyz, htail⟩ := List.cons.inj h
      obtain ⟨hac, hbd⟩ := ih (List.not_mem_of_not_mem_cons ha) (List.not_mem_of_not_mem_cons hc) htail
      exact ⟨by rw [hyz, hac], hbd⟩

/-- A sign in front of a text without `'-'` tells the negative numbers from the others. -/
theorem signed_inj {f g : ℕ → List Char} (hf : ∀ n m, f n = f m → n = m)
    (hg : ∀ n m, g n = g m → n = m) (hminus : ∀ n, '-' ∉ g n)
    (h : (if i < 0 then '-' :: f i.natAbs else g i.natAbs) =
      if j < 0 then '-' :: f j.natAbs else g j.natAbs) : i = j := by
  split at h <;> split at h
  · have habs := hf _ _ (List.cons.inj h).2
    omega
  · exact absurd (h ▸ List.mem_cons_self) (hminus j.natAbs)
  · exact absurd (h ▸ List.mem_cons_self) (hminus i.natAbs)
  · have habs := hg _ _ h
    omega

theorem zeroPadInt_inj (h : zeroPadInt w i = zeroPadInt w j) : i = j :=
  signed_inj (f := zeroPad (w - 1)) (fun _ _ => zeroPad_inj) (fun _ _ => zeroPad_inj)
    (minus_notMem_zeroPad w) h

end

/-! ## a decimal numeral in another base -/

def reread (c n : ℕ) : ℕ := Nat.ofDigitChars c (Nat.toDigits 10 n) 0

section
variable {c n k : ℕ}

theorem reread_of_lt (h : n < 10) : reread c n = n := by
  unfold reread
  rw [Nat.toDigits_of_lt_base h, Nat.ofDigitChars_cons_digitChar_of_lt_ten h, Nat.ofDigitChars_nil,
    Nat.mul_zero, Nat.zero_add]

theorem reread_step (h : 10 ≤ n) : reread c n = c * reread c (n / 10) + n % 10 := by
  unfold reread
  rw [Nat.toDigits_of_base_le (by decide) h, Nat.ofDigitChars_append,
    Nat.ofDigitChars_cons_digitChar_of_lt_ten (Nat.mod_lt n (by decide)), Nat.ofDigitChars_nil]

theorem reread_lt (hc : 10 ≤ c) (hk : 0 < k) (h : n < 10 ^ k) : reread c n < c ^ k := by
  induction k generalizing n with
  | zero => omega
  | succ k ih =>
    by_cases hn : n < 10
    · rw [reread_of_lt hn]
      calc n < c := by omega
        _ ≤ c ^ (k + 1) := Nat.le_self_pow (by omega) c
    · have hdiv : n / 10 < 10 ^ k := by
        rw [Nat.div_lt_iff_lt_mul (by decide)]
        rwa [Nat.pow_succ] at h
      have hpos : 0 < k := by
        rcases Nat.eq_zero_or_pos k with rfl | hpos
        · exact absurd h hn
        · exact hpos
      rw [reread_step (by omega)]
      calc c * reread c (n / 10) + n % 10 < c * reread c (n / 10) + c := by omega
        _ = c * (reread c (n / 10) + 1) := by rw [Nat.mul_add, Nat.mul_one]
        _ ≤ c * c ^ k := Nat.mul_le_mul_left c (ih hpos hdiv)
        _ = c ^ (k + 1) := (Nat.pow_succ').symm

theorem reread_pos (hc : 0 < c) (h : 0 < n) : 0 < reread c n := by
  induction n using Nat.strongRecOn with
  | ind n ih =>
    by_cases hn : n < 10
    · rwa [reread_of_lt hn]
    · rw [reread_step (by omega)]
      exact Nat.add_pos_left (Nat.mul_pos hc (ih (n / 10) (by omega) (by omega))) _

theorem le_reread (hc : 0 < c) (h : 10 ^ k ≤ n) : c ^ k ≤ reread c n := by
  induction k generalizing n with
  | zero => exact reread_pos hc h
  | succ k ih =>
    have hten : 10 ≤ n := Nat.le_trans (Nat.le_self_pow (by omega) 10) h
    have hdiv : 10 ^ k ≤ n / 10 := by
      rw [Nat.le_div_iff_mul_le (by decide)]
      rwa [Nat.pow_succ] at h
    rw [reread_step hten]
    calc c ^ (k + 1) = c * c ^ k := Nat.pow_succ'
      _ ≤ c * reread c (n / 10) := Nat.mul_le_mul_left c (ih hdiv)
      _ ≤ c * reread c (n / 10) + n % 10 := Nat.le_add_right _ _

end
