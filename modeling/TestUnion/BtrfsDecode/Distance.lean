import TestUnion.BtrfsDecode.Messages
import Mathlib.Data.Finset.Card
import Mathlib.Data.Finset.Range
import Mathlib.Data.Nat.Bitwise
import Mathlib.Order.Interval.Finset.Nat

/-!
# btrfs-decode: the distance of the two values

* `bitDiff`         the number of bit positions in which two numbers differ;
* `popcount_xor`    this is what the loop counts in their xor;
* `text_d_iff`      `%d` prints the number that has the bits, as long as the highest one is not set;
* `Message.found`, `Message.wanted`   the two values of a message;
* `record_printed`  the program prints the record of each line that matches;
* `Right`           the fields of the record are those of the two values;
* `right_iff`       when they are.
-/

namespace BtrfsDecode

open PerlRegex

/-- for numbers below `2 ^ 64` -/
def bitDiff (a b : ℕ) : ℕ := ((Finset.range 64).filter fun i => a.testBit i ≠ b.testBit i).card

/-! ## bits -/

section
variable {x a b : UInt64} {i n : ℕ} {w : Word}

theorem and_shift_ne_zero (hi : i < 64) :
    x &&& (1 <<< UInt64.ofNat i) ≠ 0 ↔ x.toNat.testBit i = true := by
  have hshift : ((1 : UInt64) <<< UInt64.ofNat i).toNat = 2 ^ i := by
    have hpow : 2 ^ i < 2 ^ 64 := Nat.pow_lt_pow_right (by decide) hi
    rw [UInt64.toNat_shiftLeft, UInt64.toNat_ofNat_of_lt' (Nat.lt_trans hi (by decide)),
      Nat.mod_eq_of_lt hi, UInt64.toNat_one, Nat.one_shiftLeft, Nat.mod_eq_of_lt hpow]
  rw [ne_eq, ← UInt64.toNat_inj, UInt64.toNat_and, hshift, Nat.and_two_pow, UInt64.toNat_zero]
  cases x.toNat.testBit i
  · simp
  · simp

/-- the first `n` passes of the loop -/
theorem foldl_popcount (hn : n ≤ 64) :
    (List.range n).foldl
        (fun cnt i => if x &&& (1 <<< UInt64.ofNat i) ≠ 0 then cnt + 1 else cnt) 0 =
      ((Finset.range n).filter fun i => x.toNat.testBit i = true).card := by
  induction n with
  | zero => rfl
  | succ n ih =>
    rw [List.range_succ, List.foldl_append, ih (by omega), List.foldl_cons, List.foldl_nil,
      Finset.range_add_one, Finset.filter_insert]
    by_cases hbit : x.toNat.testBit n = true
    · rw [if_pos ((and_shift_ne_zero (by omega)).mpr hbit), if_pos hbit,
        Finset.card_insert_of_notMem (by simp)]
    · rw [if_neg fun h => hbit ((and_shift_ne_zero (by omega)).mp h), if_neg hbit]

theorem popcount_xor : popcount (a ^^^ b) = bitDiff a.toNat b.toNat := by
  unfold popcount bitDiff
  rw [foldl_popcount le_rfl]
  congr 1
  apply Finset.filter_congr
  intro i _
  rw [UInt64.toNat_xor, Nat.testBit_xor]
  simp

theorem bitDiff_le (k l : ℕ) : bitDiff k l ≤ 64 := by
  have hcard := Finset.card_filter_le (Finset.range 64) fun i => k.testBit i ≠ l.testBit i
  rwa [Finset.card_range] at hcard

/-! ## what is printed of 64 bits -/

theorem text_x : (Arg.x x).text = Nat.toDigits 16 x.toNat := rfl

/-- A number with the highest bit is printed with a sign. -/
theorem text_d_iff : (Arg.d x).text = Nat.toDigits 10 x.toNat ↔ x.toNat < 2 ^ 63 := by
  have hx := x.toNat_lt
  have hint : x.toInt64.toInt =
      if 2 * x.toNat < 2 ^ 64 then (x.toNat : ℤ) else (x.toNat : ℤ) - (2 ^ 64 : ℕ) :=
    BitVec.toInt_eq_toNat_cond x.toBitVec
  show decimal x.toInt64.toInt = _ ↔ _
  unfold decimal
  by_cases hsmall : x.toNat < 2 ^ 63
  · rw [if_pos (by omega)] at hint
    rw [hint, if_neg (by omega), Int.natAbs_natCast]
    exact ⟨fun _ => hsmall, fun _ => rfl⟩
  · rw [if_neg (by omega)] at hint
    rw [if_pos (by omega)]
    refine ⟨fun h => ?_, fun h => absurd h hsmall⟩
    exact absurd (h ▸ List.mem_cons_self) (minus_notMem_toDigits x.toNat)

/-- A count of bits is small. -/
theorem text_d_popcount :
    (Arg.d (UInt64.ofNat (popcount (a ^^^ b)))).text = Nat.toDigits 10 (bitDiff a.toNat b.toNat) := by
  have hle := bitDiff_le a.toNat b.toNat
  have hnat : (UInt64.ofNat (popcount (a ^^^ b))).toNat = bitDiff a.toNat b.toNat := by
    rw [popcount_xor, UInt64.toNat_ofNat_of_lt' (Nat.lt_of_le_of_lt hle (by decide))]
  rw [← hnat, text_d_iff, hnat]
  omega

end

/-! ## the values of a message -/

def value (caps : List Word) (n : ℕ) : ℕ := (number (group caps n)).toNat

def Message.found : Message → List Word → ℕ
  | _, caps => value caps 3

def Message.wanted : Message → List Word → ℕ
  | .transid, caps => value caps 2
  | .csum, caps => value caps 4
  | .csumExtent, caps => value caps 4

def Message.xorLabel : Message → String
  | .transid => ") delta=0x"
  | .csum => " xorbits="
  | .csumExtent => ") xorbits="

def Message.xorBase : Message → ℕ
  | .transid => 16
  | .csum => 10
  | .csumExtent => 10

def Message.bitsLabel : Message → String
  | .transid => " xorbits="
  | .csum => " popcnt="
  | .csumExtent => " popcnt="

/-- The program prints a record of the line, which has the xor of the two values and the number of
bits in which they differ. -/
structure Right (m : Message) (line : List Char) (caps : List Word) : Prop where
  printed : ∀ lines, line ∈ lines → sprintf (m.fields caps) m.tail ++ ['\n'] <:+: decode lines
  xor : argText m.xorLabel (m.fields caps) =
    some (Nat.toDigits m.xorBase (m.found caps ^^^ m.wanted caps))
  bits : argText m.bitsLabel (m.fields caps) =
    some (Nat.toDigits 10 (bitDiff (m.found caps) (m.wanted caps)))

/-- The xor of the checksums is printed as a signed number, and the bits of the other message are
those of the extent and the checksum. -/
def Fits : Message → List Word → Prop
  | .transid, _ => True
  | .csum, caps => value caps 3 ^^^ value caps 4 < 2 ^ 63
  | .csumExtent, caps => value caps 3 ^^^ value caps 4 < 2 ^ 63 ∧
    bitDiff (value caps 2) (value caps 3) = bitDiff (value caps 3) (value caps 4)

section
variable {m : Message} {line : List Char} {caps : List Word} {n : ℕ} {d : Word}

theorem number_digits (h : IsDigits d) : 0 ≤ number d := by
  unfold number
  split
  · next hminus =>
    obtain ⟨s, rfl⟩ := List.head?_eq_some_iff.mp hminus
    exact absurd (h.2 '-' List.mem_cons_self) (by decide)
  · exact Int.natCast_nonneg _

/-- The mirror is the fifth group. -/
theorem patterns_digits {p : List Item} (hp : p ∈ m.patterns) (hn : n < 4) :
    ∀ item, (p.filter Item.isGroup)[n]? = some item → item = .digits := by
  have hcases : n = 0 ∨ n = 1 ∨ n = 2 ∨ n = 3 := by omega
  intro item hitem
  cases m with
  | transid =>
    rw [List.mem_singleton.mp hp] at hitem
    rcases hcases with rfl | rfl | rfl | rfl <;> cases hitem <;> rfl
  | csum =>
    rcases List.mem_cons.mp hp with rfl | hp
    · rcases hcases with rfl | rfl | rfl | rfl <;> cases hitem <;> rfl
    · rw [List.mem_singleton.mp hp] at hitem
      rcases hcases with rfl | rfl | rfl | rfl <;> cases hitem <;> rfl
  | csumExtent =>
    rw [List.mem_singleton.mp hp] at hitem
    rcases hcases with rfl | rfl | rfl | rfl <;> cases hitem <;> rfl

/-- All groups but the mirror capture digits. -/
theorem number_group (h : m.captures line = some caps) (hn : n - 1 < 4) :
    0 ≤ number (group caps n) := by
  obtain ⟨p, hp, hsearch⟩ := List.exists_of_findSome?_eq_some h
  rcases getD_captures (search_captures hsearch) (patterns_digits hp hn) with hnil | hdigits
  · unfold group
    rw [hnil]
    exact le_refl 0
  · exact number_digits hdigits

theorem number_group_lt (hsmall : ∀ w ∈ caps, number w < 2 ^ 64) :
    number (group caps n) < 2 ^ 64 := by
  unfold group
  rw [List.getD_eq_getElem?_getD]
  cases hget : caps[n - 1]? with
  | none => decide
  | some w => exact hsmall w (List.mem_of_getElem? hget)

/-- The numbers fit, and Perl computes with them. -/
theorem uv_toNat (h : m.captures line = some caps) (hsmall : ∀ w ∈ caps, number w < 2 ^ 64)
    (hn : n - 1 < 4) : (uv (group caps n)).toNat = value caps n := by
  have hnonneg := number_group h hn
  have hlt := number_group_lt (n := n) hsmall
  unfold uv uvOfInt value
  rw [min_eq_left (by omega), max_eq_right (by omega)]
  show (UInt64.ofNat (number (group caps n) % 2 ^ 64).toNat).toNat = _
  rw [Int.emod_eq_of_lt hnonneg hlt, UInt64.toNat_ofNat_of_lt']
  show (number (group caps n)).toNat < 2 ^ 64
  omega

/-! ## the fields -/

theorem bitDiff_comm (k l : ℕ) : bitDiff k l = bitDiff l k := by
  unfold bitDiff
  congr 1
  apply Finset.filter_congr
  intro i _
  exact ne_comm

/-- the arguments after the labels of the two fields -/
theorem argText_transid : argText ") delta=0x" (transidFields caps) =
      some (Arg.x (uv (group caps 2) ^^^ uv (group caps 3))).text ∧
    argText " xorbits=" (transidFields caps) =
      some (Arg.d (UInt64.ofNat (popcount (uv (group caps 2) ^^^ uv (group caps 3))))).text := by
  simp [argText, transidFields]

theorem argText_csum : argText " xorbits=" (csumFields caps) =
      some (Arg.d (uv (group caps 3) ^^^ uv (group caps 4))).text ∧
    argText " popcnt=" (csumFields caps) =
      some (Arg.d (UInt64.ofNat (popcount (uv (group caps 3) ^^^ uv (group caps 4))))).text := by
  simp [argText, csumFields]

theorem argText_csumExtent : argText ") xorbits=" (csumExtentFields caps) =
      some (Arg.d (uv (group caps 3) ^^^ uv (group caps 4))).text ∧
    argText " popcnt=" (csumExtentFields caps) =
      some (Arg.d (UInt64.ofNat (popcount (uv (group caps 2) ^^^ uv (group caps 3))))).text := by
  simp [argText, csumExtentFields]

/-- `%d` of the xor of two numbers below `2 ^ 64` -/
theorem text_d_xor_iff {n k : ℕ} (h : m.captures line = some caps)
    (hsmall : ∀ w ∈ caps, number w < 2 ^ 64) (hn : n - 1 < 4) (hk : k - 1 < 4) :
    (Arg.d (uv (group caps n) ^^^ uv (group caps k))).text =
        Nat.toDigits 10 (value caps n ^^^ value caps k) ↔
      value caps n ^^^ value caps k < 2 ^ 63 := by
  rw [← uv_toNat h hsmall hn, ← uv_toNat h hsmall hk, ← UInt64.toNat_xor]
  exact text_d_iff

theorem text_bits {n k : ℕ} (h : m.captures line = some caps)
    (hsmall : ∀ w ∈ caps, number w < 2 ^ 64) (hn : n - 1 < 4) (hk : k - 1 < 4) :
    (Arg.d (UInt64.ofNat (popcount (uv (group caps n) ^^^ uv (group caps k))))).text =
      Nat.toDigits 10 (bitDiff (value caps n) (value caps k)) := by
  rw [text_d_popcount, uv_toNat h hsmall hn, uv_toNat h hsmall hk]

/-- The records are printed at the end. -/
theorem record_printed (h : m.captures line = some caps) {lines : List (List Char)}
    (hline : line ∈ lines) : sprintf (m.fields caps) m.tail ++ ['\n'] <:+: decode lines := by
  have hrecord : sprintf (m.fields caps) m.tail ∈ Message.all.filterMap fun m => m.record line := by
    refine List.mem_filterMap.mpr ⟨m, by cases m <;> decide, ?_⟩
    unfold Message.record
    rw [h]
    rfl
  have hofLine : sprintf (m.fields caps) m.tail ++ ['\n'] <:+:
      (Message.all.filterMap fun m => m.record line).flatMap fun r => r ++ ['\n'] :=
    List.infix_of_mem_flatten (List.mem_map_of_mem (f := fun r => r ++ ['\n']) hrecord)
  have hofLines := hofLine.trans (List.infix_of_mem_flatten (List.mem_map_of_mem (f := fun line =>
    (Message.all.filterMap fun m => m.record line).flatMap fun r => r ++ ['\n']) hline))
  unfold decode
  exact (hofLines.trans (List.suffix_append _ _).isInfix).trans (List.prefix_append _ _).isInfix

theorem transid_right (h : Message.captures .transid line = some caps)
    (hsmall : ∀ w ∈ caps, number w < 2 ^ 64) : Right .transid line caps where
  printed _ hline := record_printed h hline
  xor := by
    refine argText_transid.1.trans (congrArg some ?_)
    show _ = Nat.toDigits 16 (value caps 3 ^^^ value caps 2)
    rw [text_x, UInt64.toNat_xor, uv_toNat h hsmall (by decide), uv_toNat h hsmall (by decide),
      Nat.xor_comm]
  bits := by
    refine argText_transid.2.trans (congrArg some ?_)
    show _ = Nat.toDigits 10 (bitDiff (value caps 3) (value caps 2))
    rw [text_bits h hsmall (by decide) (by decide), bitDiff_comm]

theorem csum_right_iff (h : Message.captures .csum line = some caps)
    (hsmall : ∀ w ∈ caps, number w < 2 ^ 64) :
    Right .csum line caps ↔ value caps 3 ^^^ value caps 4 < 2 ^ 63 := by
  have hxor := text_d_xor_iff (n := 3) (k := 4) h hsmall (by decide) (by decide)
  have hbits := text_bits (n := 3) (k := 4) h hsmall (by decide) (by decide)
  refine ⟨fun hright => hxor.mp ?_, fun hfits => ⟨?_, ?_, ?_⟩⟩
  · exact Option.some.inj (argText_csum.1.symm.trans hright.xor)
  · exact fun _ hline => record_printed h hline
  · exact argText_csum.1.trans (congrArg some (hxor.mpr hfits))
  · exact argText_csum.2.trans (congrArg some hbits)

theorem csumExtent_right_iff (h : Message.captures .csumExtent line = some caps)
    (hsmall : ∀ w ∈ caps, number w < 2 ^ 64) :
    Right .csumExtent line caps ↔ value caps 3 ^^^ value caps 4 < 2 ^ 63 ∧
      bitDiff (value caps 2) (value caps 3) = bitDiff (value caps 3) (value caps 4) := by
  have hxor := text_d_xor_iff (n := 3) (k := 4) h hsmall (by decide) (by decide)
  have hbits := text_bits (n := 2) (k := 3) h hsmall (by decide) (by decide)
  refine ⟨fun hright => ⟨hxor.mp ?_, ?_⟩, fun hfits => ⟨?_, ?_, ?_⟩⟩
  · exact Option.some.inj (argText_csumExtent.1.symm.trans hright.xor)
  · have hprinted := Option.some.inj (argText_csumExtent.2.symm.trans hright.bits)
    exact toDigits_inj (hbits.symm.trans hprinted)
  · exact fun _ hline => record_printed h hline
  · exact argText_csumExtent.1.trans (congrArg some (hxor.mpr hfits.1))
  · refine argText_csumExtent.2.trans (congrArg some (hbits.trans ?_))
    rw [hfits.2]
    rfl

end

/-- The record of a line is about the two values unless their xor is printed as a negative number or,
with an extent, the bits of other numbers are counted. -/
theorem right_iff (m : Message) {line : List Char} {caps : List Word}
    (hmatch : m.captures line = some caps) (hsmall : ∀ w ∈ caps, number w < 2 ^ 64) :
    Right m line caps ↔ Fits m caps := by
  cases m with
  | transid => exact ⟨fun _ => trivial, fun _ => transid_right hmatch hsmall⟩
  | csum => exact csum_right_iff hmatch hsmall
  | csumExtent => exact csumExtent_right_iff hmatch hsmall

theorem right_iff_transid : Right .transid
    "parent transid verify failed on 5083380932608 wanted 332337 found 339991\n".toList
    ["5083380932608".toList, "332337".toList, "339991".toList] :=
  (right_iff .transid (by decide) (by decide)).mpr trivial

def extentLine : List Char :=
  "csum failed ino 687504 extent 99728945152 csum 1248216615 wanted 2035797115 mirror -1703457408\n".toList

def extentCaps : List Word :=
  ["687504".toList, "99728945152".toList, "1248216615".toList, "2035797115".toList,
    "-1703457408".toList]

/-- the example of the message in the source -/
theorem not_right : Message.captures .csumExtent extentLine = some extentCaps ∧
    (∀ w ∈ extentCaps, number w < 2 ^ 64) ∧ ¬ Right .csumExtent extentLine extentCaps := by
  have hmatch : Message.captures .csumExtent extentLine = some extentCaps := by decide
  have hsmall : ∀ w ∈ extentCaps, number w < 2 ^ 64 := by decide
  refine ⟨hmatch, hsmall, fun h => ?_⟩
  have hbits := ((csumExtent_right_iff hmatch hsmall).mp h).2
  exact absurd hbits (by decide)

end BtrfsDecode
