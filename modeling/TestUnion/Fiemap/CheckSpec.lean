import TestUnion.Fiemap.Checks

/-!
# fiemap-test: what the checkers decide on block-aligned replies

Throughout the block size is `2 ^ k`.  `Covers k e i` says that block `i` lies inside the extent
`e`; `Aligned k es` is a reply with sorted, disjoint, non-empty extents whose logical offset and
length are block aligned and do not wrap.

* `checkFlags_ok_iff`   `check_flags` accepts iff every extent has `FlagsOk`;
* `checkDataScan_eq`    the scan stops at the first covering extent;
* `checkData_ok_iff`, `checkHole_ok_iff`   the decisions of the two scanning checkers.
-/

namespace Fiemap

open CInt

variable {k : ℕ} {blocksize : Int32}

def Covers (k : ℕ) (e : Extent) (i : ℕ) : Prop :=
  e.feLogical.toNat ≤ i * 2 ^ k ∧ (i + 1) * 2 ^ k ≤ e.feLogical.toNat + e.feLength.toNat

instance (k : ℕ) (e : Extent) (i : ℕ) : Decidable (Covers k e i) := by
  unfold Covers
  infer_instance

structure AlignedExtent (k : ℕ) (e : Extent) : Prop where
  pos : 0 < e.feLength.toNat
  logical : 2 ^ k ∣ e.feLogical.toNat
  length : 2 ^ k ∣ e.feLength.toNat
  noWrap : e.feLogical.toNat + e.feLength.toNat < 2 ^ 64

structure Aligned (k : ℕ) (es : List Extent) : Prop where
  sorted : es.Pairwise fun a b => a.feLogical.toNat + a.feLength.toNat ≤ b.feLogical.toNat
  extent : ∀ e ∈ es, AlignedExtent k e

theorem Aligned.tail {e : Extent} {es : List Extent} (h : Aligned k (e :: es)) : Aligned k es :=
  ⟨h.sorted.tail, fun x hx => h.extent x (List.mem_cons_of_mem _ hx)⟩

theorem Aligned.head_le {e : Extent} {es : List Extent} (h : Aligned k (e :: es)) :
    ∀ x ∈ es, e.feLogical.toNat + e.feLength.toNat ≤ x.feLogical.toNat :=
  (List.pairwise_cons.mp h.sorted).1

theorem AlignedExtent.toNat_end {e : Extent} (h : AlignedExtent k e) :
    e.end.toNat = e.feLogical.toNat + e.feLength.toNat := by
  unfold Extent.end
  rw [UInt64.toNat_add, Nat.mod_eq_of_lt h.noWrap]

/-- a block that begins below the end of an aligned extent ends below it -/
theorem AlignedExtent.block_le {e : Extent} (h : AlignedExtent k e) {i : ℕ}
    (hi : i * 2 ^ k < e.feLogical.toNat + e.feLength.toNat) :
    (i + 1) * 2 ^ k ≤ e.feLogical.toNat + e.feLength.toNat := by
  obtain ⟨m, hm⟩ := Nat.dvd_add h.logical h.length
  rw [hm, Nat.mul_comm (2 ^ k) m] at hi ⊢
  exact Nat.mul_le_mul_right _ (Nat.lt_of_mul_lt_mul_right hi)

/-- An aligned extent with the first byte of a block has all of it. -/
theorem AlignedExtent.covers_iff {e : Extent} (h : AlignedExtent k e) {i : ℕ} : Covers k e i ↔
    e.feLogical.toNat ≤ i * 2 ^ k ∧ i * 2 ^ k < e.feLogical.toNat + e.feLength.toNat := by
  refine and_congr_right fun _ => ⟨?_, h.block_le⟩
  intro hle
  exact lt_of_lt_of_le (Nat.mul_lt_mul_of_pos_right (Nat.lt_succ_self i) (Nat.two_pow_pos k)) hle

theorem AlignedExtent.not_covers {e : Extent} (h : AlignedExtent k e) {i : ℕ}
    (hlt : e.feLogical.toNat + e.feLength.toNat < i * 2 ^ k) : ¬ Covers k e i := by
  rw [h.covers_iff]
  omega

/-- The extents behind one that begins behind the block begin even later. -/
theorem Aligned.none_later {e : Extent} {es : List Extent} (h : Aligned k (e :: es)) {i : ℕ}
    (hlt : (i + 1) * 2 ^ k < e.feLogical.toNat) : ∀ x ∈ e :: es, ¬ Covers k x i := by
  have hpow := Nat.two_pow_pos k
  have hmul : (i + 1) * 2 ^ k = i * 2 ^ k + 2 ^ k := Nat.succ_mul i (2 ^ k)
  intro x hx
  unfold Covers
  rcases List.mem_cons.mp hx with rfl | hx
  · omega
  · have hle := h.head_le x hx
    omega

theorem toNat_blocksize (hbs : blocksize.toInt = ((2 ^ k : ℕ) : ℤ)) :
    (u64 blocksize).toNat = 2 ^ k := by
  rw [toNat_u64 (by rw [hbs]; exact Int.natCast_nonneg _), hbs]
  rfl

/-- the offset of the next block -/
theorem toNat_blockEnd (hbs : blocksize.toInt = ((2 ^ k : ℕ) : ℤ)) {i : ℕ} {off : UInt64}
    (hoff : off.toNat = i * 2 ^ k) (hfit : (i + 1) * 2 ^ k < 2 ^ 64) :
    (off + u64 blocksize).toNat = (i + 1) * 2 ^ k := by
  rw [UInt64.toNat_add, hoff, toNat_blocksize hbs, ← Nat.succ_mul, Nat.mod_eq_of_lt hfit]

/-! ## check_flags -/

structure FlagsOk (k : ℕ) (e : Extent) (final : Prop) : Prop where
  notAligned : e.has extentNotAligned ↔ ¬ (2 ^ k ∣ e.fePhysical.toNat ∧ 2 ^ k ∣ e.feLength.toNat)
  last : e.has extentLast → final
  encrypted : e.has extentDataEncrypted → e.has extentEncoded
  delalloc : e.has extentDelalloc → e.has extentUnknown
  dataInline : e.has extentDataInline → e.has extentNotAligned
  dataTail : e.has extentDataTail → e.has extentNotAligned

theorem checkFlagsOf_ok_iff (hbs : blocksize.toInt = ((2 ^ k : ℕ) : ℤ)) (e : Extent) (more : Bool) :
    checkFlagsOf blocksize e more = .ok () ↔ FlagsOk k e (more = false) := by
  have hp := and_mask_eq_self (toNat_blocksize hbs) e.fePhysical
  have hl := and_mask_eq_self (toNat_blocksize hbs) e.feLength
  unfold checkFlagsOf
  simp only [hp, hl, ne_eq, ← not_and_or]
  refine ⟨?_, ?_⟩
  · intro h
    split_ifs at h with h1 h2 h3 h4 h5 h6 h7
    refine ⟨⟨fun hn ha => h3 ⟨hn, ha⟩, not_and_not_right.mp h1⟩, fun hx => ?_,
      not_and_not_right.mp h2, not_and_not_right.mp h5, not_and_not_right.mp h6,
      not_and_not_right.mp h7⟩
    exact Bool.eq_false_iff.mpr fun hm => h4 ⟨hx, hm⟩
  · intro h
    rw [if_neg (not_and_not_right.mpr h.notAligned.mpr), if_neg (not_and_not_right.mpr h.encrypted),
      if_neg (fun hx => h.notAligned.mp hx.1 hx.2),
      if_neg (fun hx => absurd hx.2 (Bool.eq_false_iff.mp (h.last hx.1))),
      if_neg (not_and_not_right.mpr h.delalloc), if_neg (not_and_not_right.mpr h.dataInline),
      if_neg (not_and_not_right.mpr h.dataTail)]

theorem checkFlags_ok_iff (hbs : blocksize.toInt = ((2 ^ k : ℕ) : ℤ)) (es : List Extent) :
    checkFlags blocksize es = .ok () ↔
      ∀ j (h : j < es.length), FlagsOk k es[j] (j + 1 = es.length) := by
  induction es with
  | nil => simp [checkFlags]
  | cons e rest ih =>
    have hmore : ((!rest.isEmpty) = false) ↔ 0 + 1 = (e :: rest).length := by
      cases rest <;> simp
    have hhead : checkFlagsOf blocksize e (!rest.isEmpty) = .ok () ↔
        FlagsOk k e (0 + 1 = (e :: rest).length) := by
      rw [checkFlagsOf_ok_iff hbs, hmore]
    refine ⟨?_, ?_⟩
    · intro h
      cases hc : checkFlagsOf blocksize e (!rest.isEmpty) with
      | error a => rw [checkFlags, hc] at h; cases h
      | ok u =>
        rw [checkFlags, hc] at h
        intro j hj
        cases j with
        | zero => exact hhead.mp hc
        | succ j => simpa using ih.mp h j (by simpa using hj)
    · intro h
      have h0 : checkFlagsOf blocksize e (!rest.isEmpty) = .ok () := hhead.mpr (h 0 (by simp))
      rw [checkFlags, h0]
      exact ih.mpr fun j hj => by simpa using h (j + 1) (Nat.succ_lt_succ hj)

/-! ## check_data -/

theorem checkDataScan_eq (hbs : blocksize.toInt = ((2 ^ k : ℕ) : ℤ)) (prealloc : Bool) {i : ℕ}
    {off : UInt64} (hoff : off.toNat = i * 2 ^ k) (hfit : (i + 1) * 2 ^ k < 2 ^ 64)
    (es : List Extent) (h : Aligned k es) :
    checkDataScan blocksize prealloc es off = .ok (es.find? fun e => decide (Covers k e i)) := by
  have hsum := toNat_blockEnd hbs hoff hfit
  induction es with
  | nil => rfl
  | cons e rest ih =>
    have he := h.extent e (List.mem_cons_self ..)
    have hcov := he.covers_iff (i := i)
    have ih' := ih h.tail
    rw [checkDataScan]
    simp only [gt_iff_lt, ge_iff_le, UInt64.lt_iff_toNat_lt, UInt64.le_iff_toNat_le, he.toNat_end,
      hsum, hoff]
    by_cases h1 : e.feLogical.toNat + e.feLength.toNat < i * 2 ^ k
    · have hno := he.not_covers h1
      rw [if_pos h1, ih', List.find?_cons_of_neg (by simpa using hno)]
    rw [if_neg h1]
    by_cases h2 : (i + 1) * 2 ^ k < e.feLogical.toNat
    · rw [if_pos h2, List.find?_eq_none.mpr (by simpa using h.none_later h2)]
    rw [if_neg h2]
    by_cases h3 : e.feLogical.toNat ≤ i * 2 ^ k ∧ i * 2 ^ k < e.feLogical.toNat + e.feLength.toNat
    · have hbit : cNot e.feFlags &&& extentUnwritten = 0 := cNot_and_bit e.feFlags
      have hle := he.block_le h3.2
      rw [if_pos h3, if_neg (by simp [hbit]), if_neg (by omega),
        List.find?_cons_of_pos (by simpa using hcov.mpr h3)]
    · rw [if_neg h3, ih', List.find?_cons_of_neg (by simpa using hcov.not.mpr h3)]

/-- a block lies inside one extent at most -/
theorem Aligned.covers_unique {es : List Extent} (h : Aligned k es) {i : ℕ} {e e' : Extent}
    (he : e ∈ es) (he' : e' ∈ es) (hc : Covers k e i) (hc' : Covers k e' i) : e = e' := by
  have hpow := Nat.two_pow_pos k
  have hmul : (i + 1) * 2 ^ k = i * 2 ^ k + 2 ^ k := Nat.succ_mul i (2 ^ k)
  unfold Covers at hc hc'
  induction es with
  | nil => cases he
  | cons x rest ih =>
    have hle := h.head_le
    rcases List.mem_cons.mp he with rfl | h1 <;> rcases List.mem_cons.mp he' with rfl | h2
    · rfl
    · have := hle e' h2
      omega
    · have := hle e h1
      omega
    · exact ih h.tail h1 h2

theorem checkData_ok_iff (hbs : blocksize.toInt = ((2 ^ k : ℕ) : ℤ)) (last prealloc : Bool) {i : ℕ}
    {off : UInt64} (hoff : off.toNat = i * 2 ^ k) (hfit : (i + 1) * 2 ^ k < 2 ^ 64)
    {es : List Extent} (h : Aligned k es) :
    checkData blocksize es off last prealloc = .ok () ↔
      ∃ e ∈ es, Covers k e i ∧ (last = true → e.has extentLast) := by
  unfold checkData
  rw [checkDataScan_eq hbs prealloc hoff hfit es h]
  cases hf : es.find? fun e => decide (Covers k e i) with
  | none =>
    have hnone := List.find?_eq_none.mp hf
    refine ⟨?_, ?_⟩
    · intro hx
      cases hx
    · intro hex
      obtain ⟨e, he, hc, _⟩ := hex
      exact absurd (by simpa using hc) (hnone e he)
  | some e =>
    have hmem := List.mem_of_find?_eq_some hf
    have hcov : Covers k e i := by simpa using List.find?_some hf
    simp only
    split
    · next hl =>
      refine ⟨?_, ?_⟩
      · intro hx
        cases hx
      · intro hall
        obtain ⟨e', he', hc', hl'⟩ := hall
        rw [h.covers_unique he' hmem hc' hcov] at hl'
        exact absurd (hl' hl.1) hl.2
    · next hl => exact ⟨fun _ => ⟨e, hmem, hcov, by tauto⟩, fun _ => rfl⟩

/-! ## check_hole -/

theorem checkHole_ok_iff (hbs : blocksize.toInt = ((2 ^ k : ℕ) : ℤ)) (weird : UInt64 → Bool) {i : ℕ}
    {off : UInt64} (hoff : off.toNat = i * 2 ^ k) (hfit : (i + 1) * 2 ^ k < 2 ^ 64)
    {es : List Extent} (h : Aligned k es) :
    checkHole blocksize weird off es = .ok () ↔ (∀ e ∈ es, ¬ Covers k e i) ∨ weird off = true := by
  have hsum := toNat_blockEnd hbs hoff hfit
  induction es with
  | nil => simp [checkHole]
  | cons e rest ih =>
    have he := h.extent e (List.mem_cons_self ..)
    have hcov := he.covers_iff (i := i)
    have ih' := ih h.tail
    rw [checkHole]
    simp only [gt_iff_lt, ge_iff_le, UInt64.lt_iff_toNat_lt, UInt64.le_iff_toNat_le, he.toNat_end,
      hsum, hoff]
    by_cases h1 : e.feLogical.toNat + e.feLength.toNat < i * 2 ^ k
    · have hno := he.not_covers h1
      rw [if_pos h1, List.forall_mem_cons, and_iff_right hno]
      exact ih'
    rw [if_neg h1]
    by_cases h2 : (i + 1) * 2 ^ k < e.feLogical.toNat
    · rw [if_pos h2]
      exact ⟨fun _ => .inl (h.none_later h2), fun _ => rfl⟩
    rw [if_neg h2]
    by_cases h3 : e.feLogical.toNat ≤ i * 2 ^ k ∧ i * 2 ^ k < e.feLogical.toNat + e.feLength.toNat
    · have hhere : ¬ ∀ x ∈ e :: rest, ¬ Covers k x i :=
        fun hall => hall e (List.mem_cons_self ..) (hcov.mpr h3)
      rw [if_pos h3, or_iff_right hhere]
      by_cases hw : weird off = true
      · simp [hw]
      · simp [hw]
    · rw [if_neg h3, List.forall_mem_cons, and_iff_right (hcov.not.mpr h3)]
      exact ih'

end Fiemap
