import TestUnion.Decimal
import TestUnion.PerlRegex
import Mathlib.Tactic.Common

/-!
# slab-calc

* `sizes`           the groups of the pattern, a size and maybe a slab size;
* `Report`, `compute`   what is computed from the two;
* `slabCalc`        the program;
* `sizesOf_text`    two sizes with a slash between them are read as they are;
* `perobjslack_eq`  the share of the slack is what an object is short of its part of the slab;
* `Spare`           the objects stay as many when each of them grows by the share;
* `spare_iff_opers` the program prints the same number of objects for the grown size;
* `spare_iff`       when they do.
-/

namespace SlabCalc

open PerlRegex

/-- `(\d+)(?:/(\d+))?`: the optional part is tried first. -/
def sizes : List Char → Option (List (List Char))
  | [] => none
  | c :: s =>
    (matchHere [.digits, .text ['/'], .digits] (c :: s)).or
      ((matchHere [.digits] (c :: s)).or (sizes s))

/-- the size of the object and the size of the slab -/
def sizesOf (answer : List Char) : Option (ℕ × ℕ) :=
  (sizes answer).map fun groups =>
    (Nat.ofDigitChars 10 (groups.getD 0 []) 0,
      if groups.getD 1 [] = [] then 4096 else Nat.ofDigitChars 10 (groups.getD 1 []) 0)

/-- The alignment is 8 for the computation, whatever is printed. -/
def aligned (objsize : ℕ) : ℕ :=
  if objsize % 8 > 0 then objsize + (8 - objsize % 8) else objsize

structure Report where
  objsizeUnaligned : ℕ
  objsize : ℕ
  alignment : ℕ
  slabsize : ℕ
  opers : ℕ
  slack : ℕ
  perobjslack : ℕ
  deriving DecidableEq

/-- the formats that are printed, with their arguments -/
def Report.lines (r : Report) : List (String × List ℕ) :=
  [("Object size:     %d", [r.objsizeUnaligned]),
    ("O. size aligned: %d (align=%d, used for following calculations)", [r.objsize, r.alignment]),
    ("Slab size:       %d", [r.slabsize]),
    ("Objects/slab:    %d", [r.opers]),
    ("Slack:           %d", [r.slack]),
    ("Slack/object:    %.1f (how many bytes you can add to struct to keep objs/slab)",
      [r.perobjslack])]

/-- Both divisions can be by zero. -/
def compute (objsize slabsize : ℕ) : Option Report :=
  if aligned objsize = 0 then none
  else
    let opers := slabsize / aligned objsize
    let slack := slabsize - opers * aligned objsize
    if opers = 0 then none
    else some ⟨objsize, aligned objsize, 16, slabsize, opers, slack, slack / opers⟩

inductive Outcome where
  | invalid
  | zeroDivision
  | printed (r : Report)
  deriving DecidableEq

def slabCalc (answer : List Char) : Outcome :=
  match sizesOf answer with
  | none => .invalid
  | some (objsize, slabsize) =>
    match compute objsize slabsize with
    | none => .zeroDivision
    | some r => .printed r

/-- what is typed in for the two sizes -/
def text (objsize slabsize : ℕ) : List Char :=
  Nat.toDigits 10 objsize ++ '/' :: Nat.toDigits 10 slabsize

/-- The slab has the room when each of the objects grows by its share of the slack. -/
def Spare (answer : List Char) : Prop :=
  ∃ r, slabCalc answer = .printed r ∧
    r.opers * aligned (r.objsizeUnaligned + r.perobjslack) ≤ r.slabsize

section
variable {s slab n : ℕ} {answer : List Char} {r : Report}

theorem isDigits_toDigits : IsDigits (Nat.toDigits 10 n) :=
  ⟨Nat.toDigits_ne_nil, fun _ hc => isDigit_of_mem_toDigits hc⟩

theorem takeWhile_toDigits : (Nat.toDigits 10 n).takeWhile Char.isDigit = Nat.toDigits 10 n :=
  List.takeWhile_eq_self_iff.mpr fun _ hc => isDigit_of_mem_toDigits hc

theorem sizes_text :
    sizes (text s slab) = some [Nat.toDigits 10 s, Nat.toDigits 10 slab] := by
  have hmatch : matchHere [.digits, .text ['/'], .digits] (text s slab) =
      some [Nat.toDigits 10 s, Nat.toDigits 10 slab] := by
    have hgroup : matchHere [.digits, .text ['/'], .digits] (text s slab) =
        (matchHere [.text ['/'], .digits] ('/' :: Nat.toDigits 10 slab)).map
          fun caps => Nat.toDigits 10 s :: caps :=
      matchHere_digits_text isDigits_toDigits (fun a ha => by cases ha; rfl) rfl
    have hslash : matchHere [.text ['/'], .digits] ('/' :: Nat.toDigits 10 slab) =
        matchHere [.digits] (Nat.toDigits 10 slab) := matchHere_text_append (w := ['/'])
    rw [hgroup, hslash, matchHere_digits, takeWhile_toDigits, if_neg Nat.toDigits_ne_nil]
    rfl
  cases htext : text s slab with
  | nil => exact absurd (List.append_eq_nil_iff.mp htext).1 Nat.toDigits_ne_nil
  | cons c rest =>
    rw [htext] at hmatch
    unfold sizes
    rw [hmatch]
    rfl

theorem sizesOf_text : sizesOf (text s slab) = some (s, slab) := by
  unfold sizesOf
  rw [sizes_text]
  show some (Nat.ofDigitChars 10 (Nat.toDigits 10 s) 0,
    if Nat.toDigits 10 slab = [] then 4096 else Nat.ofDigitChars 10 (Nat.toDigits 10 slab) 0) = _
  rw [if_neg Nat.toDigits_ne_nil, Nat.ofDigitChars_ten_toDigits, Nat.ofDigitChars_ten_toDigits]

/-! ## the numbers -/

theorem aligned_bounds (s : ℕ) : s ≤ aligned s ∧ aligned s < s + 8 ∧ aligned s % 8 = 0 := by
  unfold aligned
  split
  · refine ⟨?_, ?_, ?_⟩ <;> omega
  · refine ⟨?_, ?_, ?_⟩ <;> omega

theorem aligned_le_iff : aligned s ≤ n ↔ s ≤ n - n % 8 := by
  have h := aligned_bounds s
  omega

theorem compute_some (hs : 1 ≤ s) (hfit : aligned s ≤ slab) : compute s slab =
    some ⟨s, aligned s, 16, slab, slab / aligned s, slab - slab / aligned s * aligned s,
      (slab - slab / aligned s * aligned s) / (slab / aligned s)⟩ := by
  have hpos : 0 < aligned s := Nat.lt_of_lt_of_le hs (aligned_bounds s).1
  unfold compute
  rw [if_neg hpos.ne']
  exact if_neg (Nat.div_pos hfit hpos).ne'

/-- The object and its share of the slack fill its part of the slab. -/
theorem perobjslack_eq : (slab - slab / n * n) / (slab / n) = slab / (slab / n) - n :=
  Nat.sub_mul_div _ _ _

theorem slabCalc_printed (hs : 1 ≤ s) (hfit : aligned s ≤ slab)
    (h : sizesOf answer = some (s, slab)) : slabCalc answer =
    .printed ⟨s, aligned s, 16, slab, slab / aligned s, slab - slab / aligned s * aligned s,
      slab / (slab / aligned s) - aligned s⟩ := by
  unfold slabCalc
  rw [h, ← perobjslack_eq]
  show (match compute s slab with
    | none => Outcome.zeroDivision
    | some r => .printed r) = _
  rw [compute_some hs hfit]

theorem opers_of_printed (h : sizesOf answer = some (s, slab)) (hr : slabCalc answer = .printed r) :
    r.opers = slab / aligned s := by
  unfold slabCalc at hr
  rw [h] at hr
  cases hcompute : compute s slab with
  | none =>
    simp only [hcompute] at hr
    cases hr
  | some r' =>
    simp only [hcompute] at hr
    cases hr
    unfold compute at hcompute
    split at hcompute
    · cases hcompute
    · dsimp only at hcompute
      split at hcompute
      · cases hcompute
      · cases hcompute
        rfl

theorem aligned_mono {m : ℕ} (h : n ≤ m) : aligned n ≤ aligned m := by
  have hn := aligned_bounds n
  have hm := aligned_bounds m
  omega

theorem spare_iff_opers (hs : 1 ≤ s) (hfit : aligned s ≤ slab)
    (hr : slabCalc (text s slab) = .printed r) :
    Spare (text s slab) ↔
      ∃ r', slabCalc (text (s + r.perobjslack) slab) = .printed r' ∧ r'.opers = r.opers := by
  have hpos : 0 < aligned s := Nat.lt_of_lt_of_le hs (aligned_bounds s).1
  have hprinted := slabCalc_printed hs hfit sizesOf_text
  have hspare : Spare (text s slab) ↔ r.opers * aligned (s + r.perobjslack) ≤ slab := by
    unfold Spare
    rw [hr]
    rw [hprinted] at hr
    cases hr
    exact ⟨fun ⟨r', hr', hle⟩ => by cases hr'; exact hle, fun hle => ⟨_, rfl, hle⟩⟩
  have hopers : r.opers = slab / aligned s := opers_of_printed sizesOf_text hr
  have hn : 0 < slab / aligned s := Nat.div_pos hfit hpos
  have hgrown : aligned s ≤ aligned (s + r.perobjslack) := aligned_mono (Nat.le_add_right _ _)
  rw [hspare, hopers]
  constructor
  · intro hle
    have hfits : aligned (s + r.perobjslack) ≤ slab :=
      Nat.le_trans (Nat.le_mul_of_pos_left _ hn) hle
    refine ⟨_, slabCalc_printed (by omega) hfits sizesOf_text, ?_⟩
    show slab / aligned (s + r.perobjslack) = _
    apply Nat.le_antisymm
    · exact Nat.div_le_div_left hgrown hpos
    · rwa [Nat.le_div_iff_mul_le (by omega)]
  · rintro ⟨r', hr', heq⟩
    rw [opers_of_printed sizesOf_text hr'] at heq
    rw [← heq]
    exact Nat.div_mul_le_self slab _

/-- What a part of the slab has over a multiple of 8 is not more than the padding of the object. -/
theorem spare_iff (hs : 1 ≤ s) (hfit : aligned s ≤ slab) (h : sizesOf answer = some (s, slab)) :
    Spare answer ↔ slab / (slab / aligned s) % 8 ≤ aligned s - s := by
  have hpos : 0 < slab / aligned s := Nat.div_pos hfit (Nat.lt_of_lt_of_le hs (aligned_bounds s).1)
  have hpart : aligned s ≤ slab / (slab / aligned s) := by
    rw [Nat.le_div_iff_mul_le hpos]
    exact Nat.mul_div_le slab (aligned s)
  have hroom : Spare answer ↔
      slab / aligned s * aligned (s + (slab / (slab / aligned s) - aligned s)) ≤ slab := by
    unfold Spare
    rw [slabCalc_printed hs hfit h]
    exact ⟨fun ⟨r, hr, hle⟩ => by cases hr; exact hle, fun hle => ⟨_, rfl, hle⟩⟩
  have hbounds := aligned_bounds s
  rw [hroom, Nat.mul_comm, ← Nat.le_div_iff_mul_le hpos, aligned_le_iff]
  omega

theorem spare_iff_default :
    Spare "600".toList ↔ 4096 / (4096 / aligned 600) % 8 ≤ aligned 600 - 600 :=
  spare_iff (by decide) (by decide) (by decide)

/-- Six objects of 600 bytes leave 82 bytes to each, and only five of 682 bytes fit. -/
theorem not_spare : ¬ ∀ s slab, 1 ≤ s → aligned s ≤ slab → Spare (text s slab) := by
  intro h
  obtain ⟨r, hr, hle⟩ := h 600 4096 (by decide) (by decide)
  rw [slabCalc_printed (by decide) (by decide) sizesOf_text] at hr
  cases hr
  exact absurd hle (by decide)

end

end SlabCalc
