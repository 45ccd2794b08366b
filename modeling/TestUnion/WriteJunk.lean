import TestUnion.CInt
import TestUnion.Decimal
import TestUnion.Rounding
import Mathlib.Data.Nat.Digits.Defs

/-!
# write-after-checksum: where `write_junk` and `mmap_junk` write

* `getRandnum`, `getRandnumAlign`   the functions of these names, with the arithmetic of `double` as a
                    parameter and the quotient `rand() / (RAND_MAX + 1.0)` as a draw below 1;
* `Cfg`, `Access`   the options, and the offset and the length of one `pwrite` or `memcpy`;
* `junk`            the access of one round of the endless loops;
* `junkLoop`, `writeJunk`, `mmapJunk`   the loop of both functions, and the functions;
* `Fits`            the text, or the buffer with `O_DIRECT`, is no longer than the buffer and the file;
* `junk_inBounds_iff`   an access stays inside exactly when it fits.
-/

namespace WriteAfterChecksum

open CInt

section
variable (A : Rounding)

/-- `(uint64_t)((double)(max - min) * (rand() / (RAND_MAX + 1.0)))` -/
def randScaled (min max : UInt64) (draw : A.Draw) : UInt64 :=
  UInt64.ofNat ⌊A.fl (A.fl (max - min).toNat * draw.1)⌋₊

def getRandnum (min max : UInt64) (draw : A.Draw) : UInt64 := min + randScaled A min max draw

def getRandnumAlign (min max align : UInt64) (draw : A.Draw) : UInt64 :=
  (min + randScaled A min max draw) &&& ~~~(align - 1)

end

structure Cfg where
  bufsize : UInt32
  direct : Bool
  syncRange : Bool
  syncFile : Bool
  fileSize : UInt64
  pid : Int32

/-- what `snprintf` is asked to print; it returns the length of all of it -/
def junkText (pid : Int32) (generation : UInt64) : List Char :=
  decimal pid.toInt ++ " - ".toList ++ Nat.toDigits 10 generation.toNat

/-- the arguments of a `pwrite` or of a `memcpy`; the length is a `size_t` there -/
structure Access where
  offset : UInt64
  len : UInt64
  deriving DecidableEq, Repr

section
variable (A : Rounding) (c : Cfg)

def junk (generation : UInt64) (draw : A.Draw) : Access :=
  if c.direct = true then
    let len := c.bufsize.toInt32
    ⟨getRandnumAlign A 0 (c.fileSize - u64 len) c.bufsize.toUInt64 draw, u64 len⟩
  else
    let len := Int32.ofNat (junkText c.pid generation).length
    ⟨getRandnum A 0 (c.fileSize - u64 len) draw, u64 len⟩

/-- the draw of a round, and which of its calls fail -/
structure Round where
  draw : A.Draw
  pwriteFails : Bool
  rangeFails : Bool
  fsyncFails : Bool

/-- The accesses that the loop makes in these rounds and, when it has returned, what it returns. -/
def junkLoop (stop : Round A → Option ℕ) : UInt64 → List (Round A) → List Access × Option ℕ
  | _, [] => ([], none)
  | generation, r :: rounds =>
    match stop r with
    | some code => ([junk A c generation r.draw], some code)
    | none =>
      let (accesses, code) := junkLoop stop (generation + 1) rounds
      (junk A c generation r.draw :: accesses, code)

/-- the calls before the loop that fail -/
structure Setup where
  sysconfFails : Bool
  openFails : Bool
  memalignFails : Bool
  mmapFails : Bool

def writeJunk (s : Setup) (generation : UInt64) (rounds : List (Round A)) :
    List Access × Option ℕ :=
  if s.memalignFails = true then ([], some 66)
  else if s.openFails = true then ([], some 64)
  else
    junkLoop A c (fun r =>
      if r.pwriteFails = true then some 65
      else if c.syncRange = true ∧ r.rangeFails = true then some 67
      else if c.syncFile = true ∧ r.fsyncFails = true then some 68
      else none) generation rounds

/-- A `memcpy` does not fail; a range is synchronised by `msync`. -/
def mmapJunk (s : Setup) (generation : UInt64) (rounds : List (Round A)) :
    List Access × Option ℕ :=
  if s.sysconfFails = true then ([], some 101)
  else if s.openFails = true then ([], some 96)
  else if s.memalignFails = true then ([], some 102)
  else if s.mmapFails = true then ([], some 97)
  else
    junkLoop A c (fun r =>
      if c.syncRange = true ∧ r.rangeFails = true then some 99
      else if c.syncFile = true ∧ r.fsyncFails = true then some 100
      else none) generation rounds

end

/-! ## the offset -/

section
variable {A : Rounding} {c : Cfg}

/-- The conversion to `uint64_t` is one of a number that fits. -/
theorem scaled_range (min max : UInt64) (draw : A.Draw) :
    0 ≤ A.fl (A.fl (max - min).toNat * draw.1) ∧
      A.fl (A.fl (max - min).toNat * draw.1) ≤ ((max - min).toNat : ℚ) :=
  ⟨A.scale_nonneg (Nat.cast_nonneg _) draw, A.scale_le (Nat.cast_nonneg _) draw⟩

theorem randScaled_le (max : UInt64) (draw : A.Draw) :
    (randScaled A 0 max draw).toNat ≤ max.toNat := by
  have hfloor := Nat.floor_le_of_le (scaled_range 0 max draw).2
  have hmax := max.toNat_lt
  unfold randScaled
  rw [UInt64.sub_zero] at hfloor ⊢
  rw [UInt64.toNat_ofNat', Nat.mod_eq_of_lt (by omega)]
  exact hfloor

theorem getRandnum_le (max : UInt64) (draw : A.Draw) :
    (getRandnum A 0 max draw).toNat ≤ max.toNat := by
  unfold getRandnum
  rw [UInt64.zero_add]
  exact randScaled_le max draw

/-- The mask only takes bits away. -/
theorem getRandnumAlign_le (max align : UInt64) (draw : A.Draw) :
    (getRandnumAlign A 0 max align draw).toNat ≤ max.toNat := by
  unfold getRandnumAlign
  rw [UInt64.zero_add, UInt64.toNat_and]
  exact Nat.and_le_left.trans (randScaled_le max draw)

/-! ## the length -/

theorem toNat_u64_toInt32 (x : UInt32) :
    (u64 x.toInt32).toNat = if x.toNat < 2 ^ 31 then x.toNat else x.toNat + (2 ^ 64 - 2 ^ 32) := by
  have h : (u64 x.toInt32).toNat = (x.toBitVec.signExtend 64).toNat := rfl
  have hx := x.toNat_lt
  have h32 : x.toBitVec.toNat = x.toNat := rfl
  rw [h, BitVec.toNat_signExtend, BitVec.msb_eq_decide, BitVec.toNat_setWidth, h32]
  simp only [decide_eq_true_eq]
  split <;> split <;> omega

theorem junkText_length (pid : Int32) (generation : UInt64) :
    (junkText pid generation).length < 2 ^ 31 := by
  have hpid : (Nat.toDigits 10 pid.toInt.natAbs).length ≤ 10 := by
    apply Nat.toDigits_length _ _ _ (by norm_num)
    have h1 := pid.le_toInt
    have h2 := pid.toInt_lt
    omega
  have hgen : (Nat.toDigits 10 generation.toNat).length ≤ 20 :=
    Nat.toDigits_length _ _ _ (by norm_num) (generation.toNat_lt.trans (by norm_num))
  have hdec : (decimal pid.toInt).length ≤ 11 := by
    unfold decimal
    split
    · rw [List.length_cons]
      omega
    · omega
  unfold junkText
  rw [List.length_append, List.length_append]
  have hsep : " - ".toList.length = 3 := rfl
  omega

/-! ## inside the buffer and the file -/

variable (c) in
def Access.InBounds (a : Access) : Prop :=
  a.len.toNat ≤ c.bufsize.toNat ∧ a.offset.toNat + a.len.toNat ≤ c.fileSize.toNat

variable (c) in
/-- With `O_DIRECT` the length is the size of the buffer, as an `int`. -/
def Fits (generation : UInt64) : Prop :=
  if c.direct = true then c.bufsize.toNat < 2 ^ 31 ∧ c.bufsize.toNat ≤ c.fileSize.toNat
  else
    (junkText c.pid generation).length ≤ c.bufsize.toNat ∧
      (junkText c.pid generation).length ≤ c.fileSize.toNat

/-- An offset below `file_size - len` leaves room for `len` bytes exactly when `len` is no more
than the size of the file; otherwise the difference wraps. -/
theorem add_le_fileSize_iff {size len offset : UInt64} (h : offset.toNat ≤ (size - len).toNat) :
    offset.toNat + len.toNat ≤ size.toNat ↔ len.toNat ≤ size.toNat := by
  refine ⟨fun hle => by omega, ?_⟩
  intro hle
  rw [UInt64.toNat_sub_of_le _ _ (UInt64.le_iff_toNat_le.mpr hle)] at h
  omega

theorem junk_inBounds (generation : UInt64) (draw : A.Draw) :
    (junk A c generation draw).InBounds c ↔ Fits c generation := by
  unfold Access.InBounds Fits junk
  split
  · have hoff := getRandnumAlign_le (c.fileSize - u64 c.bufsize.toInt32) c.bufsize.toUInt64 draw
    have hbuf := c.bufsize.toNat_lt
    rw [add_le_fileSize_iff hoff, toNat_u64_toInt32]
    split <;> omega
  · have hoff := getRandnum_le
      (c.fileSize - u64 (Int32.ofNat (junkText c.pid generation).length)) draw
    have hlen : (u64 (Int32.ofNat (junkText c.pid generation).length)).toNat =
        (junkText c.pid generation).length := by
      have hint := toInt_ofNat (junkText_length c.pid generation)
      rw [toNat_u64 (by omega), hint, Int.toNat_natCast]
    rw [add_le_fileSize_iff hoff, hlen]

/-- The `k`-th access of a loop is made with the `k`-th generation. -/
theorem junkLoop_getElem? (stop : Round A → Option ℕ) {generation : UInt64}
    {rounds : List (Round A)} {k : ℕ} {a : Access}
    (h : (junkLoop A c stop generation rounds).1[k]? = some a) :
    ∃ draw, a = junk A c (generation + UInt64.ofNat k) draw := by
  induction rounds generalizing generation k with
  | nil => simp [junkLoop] at h
  | cons r rounds ih =>
    cases k with
    | zero =>
      refine ⟨r.draw, ?_⟩
      rw [junkLoop] at h
      split at h <;> simpa using h.symm
    | succ k =>
      rw [junkLoop] at h
      split at h
      · simp at h
      · obtain ⟨draw, ha⟩ := ih h
        refine ⟨draw, ?_⟩
        have hgen : generation + 1 + UInt64.ofNat k = generation + UInt64.ofNat (k + 1) := by
          rw [UInt64.ofNat_add, UInt64.add_assoc, UInt64.add_comm 1]
          rfl
        rw [ha, hgen]

theorem writeJunk_getElem? {s : Setup} {generation : UInt64} {rounds : List (Round A)} {k : ℕ}
    {a : Access} (h : (writeJunk A c s generation rounds).1[k]? = some a) :
    ∃ draw, a = junk A c (generation + UInt64.ofNat k) draw := by
  unfold writeJunk at h
  split at h
  · simp at h
  split at h
  · simp at h
  exact junkLoop_getElem? _ h

theorem mmapJunk_getElem? {s : Setup} {generation : UInt64} {rounds : List (Round A)} {k : ℕ}
    {a : Access} (h : (mmapJunk A c s generation rounds).1[k]? = some a) :
    ∃ draw, a = junk A c (generation + UInt64.ofNat k) draw := by
  unfold mmapJunk at h
  split at h
  · simp at h
  split at h
  · simp at h
  split at h
  · simp at h
  split at h
  · simp at h
  exact junkLoop_getElem? _ h

/-- The `k`-th access of either function is inside the buffer and the file exactly when the text of
its generation, or the buffer with `O_DIRECT`, is no longer than both. -/
theorem junk_inBounds_iff {s : Setup} {generation : UInt64} {rounds : List (Round A)} {k : ℕ}
    {a : Access}
    (h : (writeJunk A c s generation rounds).1[k]? = some a ∨
      (mmapJunk A c s generation rounds).1[k]? = some a) :
    a.InBounds c ↔ Fits c (generation + UInt64.ofNat k) := by
  obtain ⟨draw, ha⟩ : ∃ draw, a = junk A c (generation + UInt64.ofNat k) draw := by
    rcases h with h | h
    · exact writeJunk_getElem? h
    · exact mmapJunk_getElem? h
  rw [ha]
  exact junk_inBounds _ draw

end

section Examples

/-- no call fails -/
def calm : Setup := ⟨false, false, false, false⟩

/-- a draw of 0, and no call fails -/
def zeroRound : Round Rounding.double where
  draw := ⟨0, zero_mem_binary, by norm_num⟩
  pwriteFails := false
  rangeFails := false
  fsyncFails := false

/-- `-l size`, by process 1000 -/
def smallFile (size : UInt64) : Cfg where
  bufsize := 4096
  direct := false
  syncRange := false
  syncFile := false
  fileSize := size
  pid := 1000

theorem junk_inBounds_iff_first :
    (junk Rounding.double (smallFile 8) 0 zeroRound.draw).InBounds (smallFile 8) := by
  have hfirst : (mmapJunk Rounding.double (smallFile 8) calm 0 [zeroRound]).1[0]? =
      some (junk Rounding.double (smallFile 8) 0 zeroRound.draw) := rfl
  have hfits : Fits (smallFile 8) (0 + UInt64.ofNat 0) := by
    unfold Fits
    decide
  exact (junk_inBounds_iff (Or.inr hfirst)).mpr hfits

/-- The text `1000 - 0` does not fit into one byte. -/
theorem junk_overruns :
    ¬ ((∀ a ∈ (writeJunk Rounding.double (smallFile 1) calm 0 [zeroRound]).1,
        a.InBounds (smallFile 1)) ∧
      ∀ a ∈ (mmapJunk Rounding.double (smallFile 1) calm 0 [zeroRound]).1,
        a.InBounds (smallFile 1)) := by
  intro h
  have hle := (h.2 _ (List.mem_singleton.mpr rfl)).2
  have hlen : (junk Rounding.double (smallFile 1) 0 zeroRound.draw).len.toNat = 8 := by decide
  have hsize : (smallFile 1).fileSize.toNat = 1 := rfl
  omega

end Examples

end WriteAfterChecksum
