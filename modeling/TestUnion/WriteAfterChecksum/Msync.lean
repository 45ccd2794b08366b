import TestUnion.WriteJunk

/-!
# write-after-checksum: what `mmap_junk` syncs

* `roundToPage`     the two assignments before the `msync`, with the arithmetic of `long`, `uint64_t`
                    and `int`;
* `mmapSyncs`       the arguments of `msync` in the loop of `mmap_junk`;
* `Synced`          the range starts at the page of the access and ends where the access ends;
* `mmapSyncs_synced`     so it is for the accesses of the loop;
* `roundToPage_synced`   and for every access that fits into an `int` together with a page.
-/

namespace WriteAfterChecksum

open CInt

/-- `len += offset & (page_size - 1)` and `offset &= ~(page_size - 1)` -/
def roundToPage (pageSize : Int64) (offset : UInt64) (len : Int32) : UInt64 × Int32 :=
  let len := (u64 len + (offset &&& (pageSize - 1).toUInt64)).toUInt32.toInt32
  let offset := offset &&& (~~~(pageSize - 1)).toUInt64
  (offset, len)

/-- `len` is an `int` in the loop. -/
def mmapSyncs (A : Rounding) (c : Cfg) (pageSize : Int64) (s : Setup) (generation : UInt64)
    (rounds : List (Round A)) : List (UInt64 × Int32) :=
  if c.syncRange = true then
    (mmapJunk A c s generation rounds).1.map fun a =>
      roundToPage pageSize a.offset a.len.toUInt32.toInt32
  else []

structure Synced (pageSize : ℕ) (fileSize offset : UInt64) (len : Int32) (r : UInt64 × Int32) :
    Prop where
  aligned : pageSize ∣ r.1.toNat
  largest : r.1.toNat ≤ offset.toNat ∧ ∀ n, pageSize ∣ n → n ≤ offset.toNat → n ≤ r.1.toNat
  stop : (r.1.toNat : ℤ) + r.2.toInt = offset.toNat + len.toInt
  covers : ∀ x : ℤ, offset.toNat ≤ x → x < offset.toNat + len.toInt →
    r.1.toNat ≤ x ∧ x < r.1.toNat + r.2.toInt
  inside : (r.1.toNat : ℤ) + r.2.toInt ≤ fileSize.toNat

section
variable {k : ℕ} {pageSize : Int64} {fileSize offset : UInt64} {len : Int32}

theorem toNat_pageSize (hpage : pageSize.toInt = 2 ^ k) : pageSize.toUInt64.toNat = 2 ^ k := by
  have hnonneg : 0 ≤ pageSize := by
    rw [Int64.le_iff_toInt_le, hpage]
    exact (pow_pos (by norm_num) k).le
  rw [Int64.toNat_toUInt64_of_le hnonneg]
  show pageSize.toInt.toNat = _
  rw [hpage]
  exact_mod_cast Int.toNat_natCast (2 ^ k)

theorem roundToPage_start (hpage : pageSize.toInt = 2 ^ k) :
    (roundToPage pageSize offset len).1.toNat = offset.toNat / 2 ^ k * 2 ^ k :=
  toNat_and_mask (toNat_pageSize hpage) offset

/-- What the start goes down by is added to the length. -/
theorem roundToPage_len (hpage : pageSize.toInt = 2 ^ k) (hlen : 0 ≤ len.toInt)
    (hfit : len.toInt + pageSize.toInt < 2 ^ 31) :
    (roundToPage pageSize offset len).2.toInt = len.toInt + (offset.toNat % 2 ^ k : ℕ) := by
  have hpow := toNat_pageSize hpage
  have hpos : 0 < 2 ^ k := Nat.two_pow_pos k
  have hmod : offset.toNat % 2 ^ k < 2 ^ k := Nat.mod_lt _ hpos
  have hcast : ((2 ^ k : ℕ) : ℤ) = 2 ^ k := by push_cast; rfl
  have hone : (pageSize - 1).toUInt64.toNat = 2 ^ k - 1 := by
    have hsub : (pageSize - 1).toUInt64 = pageSize.toUInt64 - 1 := rfl
    have hle : (1 : UInt64) ≤ pageSize.toUInt64 := by
      rw [UInt64.le_iff_toNat_le, hpow]
      exact hpos
    rw [hsub, UInt64.toNat_sub_of_le _ _ hle, hpow]
    rfl
  have hand : (offset &&& (pageSize - 1).toUInt64).toNat = offset.toNat % 2 ^ k := by
    rw [UInt64.toNat_and, hone, Nat.and_two_pow_sub_one_eq_mod]
  have hsum : (u64 len + (offset &&& (pageSize - 1).toUInt64)).toNat =
      len.toInt.toNat + offset.toNat % 2 ^ k := by
    rw [UInt64.toNat_add, toNat_u64 hlen, hand, Nat.mod_eq_of_lt (by omega)]
  have hint : (u64 len + (offset &&& (pageSize - 1).toUInt64)).toUInt32.toNat =
      len.toInt.toNat + offset.toNat % 2 ^ k := by
    rw [UInt64.toNat_toUInt32, hsum, Nat.mod_eq_of_lt (by omega)]
  have htoInt : (roundToPage pageSize offset len).2.toInt =
      ((u64 len + (offset &&& (pageSize - 1).toUInt64)).toUInt32.toNat : ℤ) := by
    apply BitVec.toInt_eq_toNat_of_lt
    show 2 * (u64 len + (offset &&& (pageSize - 1).toUInt64)).toUInt32.toNat < 2 ^ 32
    omega
  rw [htoInt, hint]
  push_cast
  omega

/-- A range that starts at the page boundary and is longer by as much. -/
theorem synced_of_eq {r : UInt64 × Int32} (hstart : r.1.toNat = offset.toNat / 2 ^ k * 2 ^ k)
    (hlen : r.2.toInt = len.toInt + (offset.toNat % 2 ^ k : ℕ))
    (hin : offset.toNat + len.toInt ≤ fileSize.toNat) : Synced (2 ^ k) fileSize offset len r := by
  have hdiv := Nat.div_add_mod' offset.toNat (2 ^ k)
  refine ⟨?_, ⟨?_, ?_⟩, ?_, ?_, ?_⟩
  · rw [hstart]
    exact Nat.dvd_mul_left _ _
  · omega
  · intro n hdvd hle
    obtain ⟨m, rfl⟩ := hdvd
    rw [hstart, Nat.mul_comm]
    exact Nat.mul_le_mul_right _ ((Nat.le_div_iff_mul_le (Nat.two_pow_pos k)).mpr
      (by rw [Nat.mul_comm]; exact hle))
  · omega
  · intro x hlo hhi
    omega
  · omega

/-- Each `msync` of the loop is for the access before it, if this fits. -/
theorem mmapSyncs_synced {A : Rounding} {c : Cfg} {s : Setup} {generation : UInt64}
    {rounds : List (Round A)} (hpage : pageSize.toInt = 2 ^ k)
    (hall : ∀ a ∈ (mmapJunk A c s generation rounds).1,
      a.InBounds c ∧ a.len.toNat + pageSize.toInt < 2 ^ 31)
    {r : UInt64 × Int32} (hr : r ∈ mmapSyncs A c pageSize s generation rounds) :
    ∃ a ∈ (mmapJunk A c s generation rounds).1,
      Synced (2 ^ k) c.fileSize a.offset a.len.toUInt32.toInt32 r := by
  unfold mmapSyncs at hr
  split at hr
  · obtain ⟨a, ha, rfl⟩ := List.mem_map.mp hr
    obtain ⟨hin, hfit⟩ := hall a ha
    have hle := hin.2
    have hpos : 0 < pageSize.toInt := by
      rw [hpage]
      exact pow_pos (by norm_num) k
    have hlen : a.len.toUInt32.toInt32.toInt = a.len.toNat := by
      have hnat : a.len.toUInt32.toNat = a.len.toNat := by
        rw [UInt64.toNat_toUInt32, Nat.mod_eq_of_lt (by omega)]
      rw [← hnat]
      apply BitVec.toInt_eq_toNat_of_lt
      show 2 * a.len.toUInt32.toNat < 2 ^ 32
      omega
    exact ⟨a, ha, synced_of_eq (roundToPage_start hpage)
      (roundToPage_len hpage (by omega) (by omega)) (by omega)⟩
  · cases hr

/-- The `msync` is for the access, from the start of its page on. -/
theorem roundToPage_synced (hpage : pageSize.toInt = 2 ^ k) (hlen : 0 ≤ len.toInt)
    (hin : offset.toNat + len.toInt ≤ fileSize.toNat) (hfit : len.toInt + pageSize.toInt < 2 ^ 31) :
    Synced (2 ^ k) fileSize offset len (roundToPage pageSize offset len) :=
  synced_of_eq (roundToPage_start hpage) (roundToPage_len hpage hlen hfit) hin

/-- one access of 8 bytes in the second page -/
theorem roundToPage_synced_page :
    Synced (2 ^ 12) 8192 5000 8 (roundToPage 4096 5000 8) := by
  have hpage : (4096 : Int64).toInt = 2 ^ 12 := by decide
  have hin : (5000 : UInt64).toNat + (8 : Int32).toInt ≤ (8192 : UInt64).toNat := by decide
  exact roundToPage_synced hpage (by decide) hin (by decide)

end

end WriteAfterChecksum
