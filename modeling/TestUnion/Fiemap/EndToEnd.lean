import Mathlib.Tactic.IntervalCases
import TestUnion.Runs
import TestUnion.Fiemap.CompareSpec
import TestUnion.Fiemap.Create

/-!
# fiemap-test: no false alarm on a faithful file system

* `Shows`, `Piece`, `FaithfulReply`   what a faithful FIEMAP reply says: the maximal runs of
                   allocated blocks that meet the window, whole or clipped to it;
* `FaithfulReply.aligned`, `FaithfulReply.length_le`   such a reply has sorted, aligned extents, and
                   fits into the extent array of the request;
* `rightReply_of_faithful`   it is one the checkers accept;
* `noFalseAlarm`   the writer and then the comparison return 0, and every index was checked once.
-/

namespace Fiemap

open CInt Runs

/-- block `n` is the final allocated block -/
def IsFinal (f : ℕ → BlockState) (n : ℕ) : Prop := f n ≠ .hole ∧ ∀ m, n < m → f m = .hole

/-- the extent `e` shows the blocks `[lo, hi)` of a run -/
structure Shows (f : ℕ → BlockState) (k lo hi : ℕ) (e : Extent) : Prop where
  logical : e.feLogical.toNat = lo * 2 ^ k
  length : e.feLength.toNat = (hi - lo) * 2 ^ k
  physical : 2 ^ k ∣ e.fePhysical.toNat
  unwritten : e.has extentUnwritten ↔ f lo = .unwritten
  last : e.has extentLast ↔ ∃ n, lo ≤ n ∧ n < hi ∧ IsFinal f n
  others : ∀ flag, flag &&& (extentUnwritten ||| extentLast) = 0 → ¬ e.has flag

/-- the extent `e` shows a run, whole or clipped to the window `[s, t)` -/
def Piece (f : ℕ → BlockState) (k s t : ℕ) (run : ℕ × ℕ) (e : Extent) : Prop :=
  ∃ lo hi, (lo = run.1 ∨ lo = max run.1 s) ∧ (hi = run.2 ∨ hi = min run.2 t) ∧ Shows f k lo hi e

/-- `[a, b)` is a maximal run of allocated blocks that meets the window `[s, t)` -/
structure RunIn (f : ℕ → BlockState) (s t : ℕ) (run : ℕ × ℕ) : Prop where
  maxRun : MaxRun f run.1 run.2
  allocated : f run.1 ≠ .hole
  before : run.1 < t
  after : s < run.2

def FaithfulReply (f : ℕ → BlockState) (k s t : ℕ) (reply : List Extent) : Prop :=
  ∃ runs : List (ℕ × ℕ), runs.Pairwise (fun r r' => r.1 < r'.1) ∧
    (∀ run, run ∈ runs ↔ RunIn f s t run) ∧ List.Forall₂ (Piece f k s t) runs reply

def FaithfulIoctl (f : ℕ → BlockState) (k : ℕ) (ioctl : ℕ → Request → Option (List Extent)) :
    Prop :=
  ∀ w r s n, r.fmStart.toNat = s * 2 ^ k → r.fmLength.toNat = n * 2 ^ k → 0 < n →
    ∃ reply, ioctl w r = some reply ∧ FaithfulReply f k s (s + n) reply

section
variable {f : ℕ → BlockState} {k s t : ℕ} {run : ℕ × ℕ} {e : Extent}

theorem Piece.interval (h : Piece f k s t run e) (hr : RunIn f s t run) (hst : s < t) :
    ∃ lo hi, (run.1 ≤ lo ∧ lo ≤ max run.1 s ∧ lo < hi ∧ min run.2 t ≤ hi ∧ hi ≤ run.2) ∧
      Shows f k lo hi e := by
  obtain ⟨lo, hi, hlo, hhi, hs⟩ := h
  have h1 := hr.maxRun.lt
  have h2 := hr.before
  have h3 := hr.after
  exact ⟨lo, hi, by omega, hs⟩

theorem RunIn.ne_hole (hr : RunIn f s t run) {i : ℕ} (h : run.1 ≤ i) (h' : i < run.2) :
    f i ≠ .hole := by
  rw [hr.maxRun.same i h h']
  exact hr.allocated

theorem Shows.covers_iff {lo hi : ℕ} (h : Shows f k lo hi e) (hlt : lo < hi) (i : ℕ) :
    Covers k e i ↔ lo ≤ i ∧ i < hi := by
  have hpow := Nat.two_pow_pos k
  unfold Covers
  rw [h.logical, h.length, ← Nat.add_mul, Nat.add_sub_cancel' (Nat.le_of_lt hlt),
    Nat.mul_le_mul_right_iff hpow, Nat.mul_le_mul_right_iff hpow]
  rfl

theorem Shows.flagsOk {lo hi : ℕ} (h : Shows f k lo hi e) (final : Prop)
    (hlast : e.has extentLast → final) : FlagsOk k e final := by
  refine ⟨?_, hlast, fun hx => absurd hx (h.others _ (by decide)),
    fun hx => absurd hx (h.others _ (by decide)), fun hx => absurd hx (h.others _ (by decide)),
    fun hx => absurd hx (h.others _ (by decide))⟩
  have hlen : 2 ^ k ∣ e.feLength.toNat := by
    rw [h.length]
    exact Nat.dvd_mul_left _ _
  exact iff_of_false (h.others _ (by decide)) fun hn => hn ⟨h.physical, hlen⟩

/-! ## a faithful reply is a right one -/

/-- the run that extent `j` of a reply shows -/
theorem FaithfulReply.at {runs : List (ℕ × ℕ)} {reply : List Extent}
    (hmem : ∀ run, run ∈ runs ↔ RunIn f s t run) (hall : List.Forall₂ (Piece f k s t) runs reply)
    {j : ℕ} (hj : j < reply.length) :
    ∃ h : j < runs.length, RunIn f s t runs[j] ∧ Piece f k s t runs[j] reply[j] := by
  have hlen := hall.length_eq
  have hj' : j < runs.length := by omega
  exact ⟨hj', (hmem _).mp (List.getElem_mem hj'), hall.get hj' hj⟩

theorem FaithfulReply.mem {reply : List Extent} (h : FaithfulReply f k s t reply) (hst : s < t)
    (he : e ∈ reply) :
    ∃ run lo hi, RunIn f s t run ∧ run.1 ≤ lo ∧ lo < hi ∧ hi ≤ run.2 ∧ Shows f k lo hi e := by
  obtain ⟨runs, _, hmem, hall⟩ := h
  obtain ⟨j, hj, rfl⟩ := List.getElem_of_mem he
  obtain ⟨hj', hr, hp⟩ := FaithfulReply.at hmem hall hj
  obtain ⟨lo, hi, ⟨h1, _, h3, _, h5⟩, hs⟩ := hp.interval hr hst
  exact ⟨runs[j], lo, hi, hr, h1, h3, h5, hs⟩

theorem FaithfulReply.aligned {reply : List Extent} (h : FaithfulReply f k s t reply)
    (hst : s < t) {n : ℕ} (hend : ∀ i, n ≤ i → f i = .hole) (hn : n * 2 ^ k < 2 ^ 64) :
    Aligned k reply := by
  refine ⟨?_, ?_⟩
  · obtain ⟨runs, hasc, hmem, hall⟩ := h
    rw [List.pairwise_iff_getElem] at hasc ⊢
    intro i j hi hj hij
    obtain ⟨hi', hri, hpi⟩ := FaithfulReply.at hmem hall hi
    obtain ⟨hj', hrj, hpj⟩ := FaithfulReply.at hmem hall hj
    have hle := hri.maxRun.le_of_lt hrj.maxRun (hasc i j hi' hj' hij)
    obtain ⟨lo, hi, hb, hs⟩ := hpi.interval hri hst
    obtain ⟨lo', hi', hb', hs'⟩ := hpj.interval hrj hst
    rw [hs.logical, hs.length, hs'.logical, ← Nat.add_mul]
    exact Nat.mul_le_mul_right _ (by omega)
  · intro e he
    obtain ⟨run, lo, hi, hr, h1, h2, h3, hs⟩ := h.mem hst he
    have hpow := Nat.two_pow_pos k
    have hin : hi ≤ n := by
      by_contra hlt
      exact hr.ne_hole (i := hi - 1) (by omega) (by omega) (hend _ (by omega))
    refine ⟨?_, ?_, ?_, ?_⟩
    · rw [hs.length]
      exact Nat.mul_pos (by omega) hpow
    · rw [hs.logical]
      exact Nat.dvd_mul_left _ _
    · rw [hs.length]
      exact Nat.dvd_mul_left _ _
    · rw [hs.logical, hs.length, ← Nat.add_mul, Nat.add_sub_cancel' (Nat.le_of_lt h2)]
      exact lt_of_le_of_lt (Nat.mul_le_mul_right _ hin) hn

/-- A reply has no more extents than its window has blocks. -/
theorem FaithfulReply.length_le {reply : List Extent} {n : ℕ}
    (h : FaithfulReply f k s (s + n) reply) (hn : 0 < n) : reply.length ≤ n := by
  obtain ⟨runs, hasc, hmem, hall⟩ := h
  rw [← hall.length_eq]
  apply length_le_of_ascending runs (fun r => max r.1 s)
  · rw [List.pairwise_iff_getElem] at hasc ⊢
    intro i j hi hj hij
    have hri := (hmem _).mp (List.getElem_mem hi)
    have hrj := (hmem _).mp (List.getElem_mem hj)
    have hle := hri.maxRun.le_of_lt hrj.maxRun (hasc i j hi hj hij)
    have h1 := hri.maxRun.lt
    have h2 := hri.after
    show max runs[i].1 s < max runs[j].1 s
    omega
  · intro r hr
    have h1 := ((hmem r).mp hr).before
    have h2 := ((hmem r).mp hr).maxRun.lt
    have h3 := ((hmem r).mp hr).after
    show s ≤ max r.1 s ∧ max r.1 s < s + n
    omega

/-- an allocated block of the window lies in one extent, which says whether the block is final -/
theorem FaithfulReply.exists_covers {reply : List Extent} (h : FaithfulReply f k s t reply)
    {n : ℕ} (hend : ∀ i, n ≤ i → f i = .hole) {i : ℕ} (hs : s ≤ i) (ht : i < t)
    (hi : f i ≠ .hole) :
    ∃ e ∈ reply, Covers k e i ∧ (IsFinal f i → e.has extentLast) := by
  obtain ⟨a, b, hrun, hai, hib⟩ := exists_maxRun f i
    ⟨max i n, le_max_left _ _, by rw [hend _ (le_max_right _ _)]; exact hi.symm⟩
  obtain ⟨runs, _, hmem, hall⟩ := h
  have hr : RunIn f s t (a, b) :=
    ⟨hrun, by rw [← hrun.same i hai hib]; exact hi, lt_of_le_of_lt hai ht, lt_of_le_of_lt hs hib⟩
  obtain ⟨j, hj, hje⟩ := List.getElem_of_mem ((hmem _).mpr hr)
  have hj' : j < reply.length := by
    rw [← hall.length_eq]
    exact hj
  obtain ⟨_, _, hp⟩ := FaithfulReply.at hmem hall hj'
  rw [hje] at hp
  obtain ⟨lo, hi, ⟨_, h2, h3, h4, _⟩, hs⟩ := hp.interval hr (by omega)
  have hlo : lo ≤ i := by
    simp only at h2
    omega
  have hhi : i < hi := by
    simp only at h4
    omega
  exact ⟨reply[j], List.getElem_mem hj', (hs.covers_iff h3 i).mpr ⟨hlo, hhi⟩,
    fun hf => hs.last.mpr ⟨i, hlo, hhi, hf⟩⟩

theorem FaithfulReply.flags {reply : List Extent} (h : FaithfulReply f k s t reply) (hst : s < t)
    (j : ℕ) (hj : j < reply.length) : FlagsOk k reply[j] (j + 1 = reply.length) := by
  obtain ⟨runs, hasc, hmem, hall⟩ := h
  obtain ⟨hj', hr, hp⟩ := FaithfulReply.at hmem hall hj
  obtain ⟨lo, hi, hb, hs⟩ := hp.interval hr hst
  apply hs.flagsOk
  intro hl
  obtain ⟨n, hlo, hhi, hfin⟩ := hs.last.mp hl
  by_contra hne
  -- a later run would begin after the final allocated block
  have hj1 : j + 1 < runs.length := by
    have := hall.length_eq
    omega
  have hr1 := (hmem _).mp (List.getElem_mem hj1)
  have hlt : runs[j].1 < runs[j + 1].1 :=
    List.pairwise_iff_getElem.mp hasc j (j + 1) hj' hj1 (by omega)
  have hle := hr.maxRun.le_of_lt hr1.maxRun hlt
  exact hr1.allocated (hfin.2 _ (by omega))

end

/-! ## the map and its file -/

section
variable {K : Kernel} {map : List Char} {blocksize : Int32} {k : ℕ}

theorem mapState_of_lt {i : ℕ} (h : i < map.length) : mapState map i = stateOf map[i] := by
  unfold mapState
  rw [List.getElem?_eq_getElem h]
  rfl

theorem stateOf_hole {m : Char} (hm : m = 'H') : stateOf m = .hole := by
  rw [hm]
  rfl

theorem stateOf_ne_hole {m : Char} (hm : m = 'D' ∨ m = 'P') : stateOf m ≠ .hole := by
  rcases hm with rfl | rfl <;> decide

theorem isFinal_of_holes {i : ℕ} (hi : i < map.length) (hne : mapState map i ≠ .hole)
    (h : ∀ m ∈ map.drop (i + 1), m = 'H') : IsFinal (mapState map) i := by
  refine ⟨hne, ?_⟩
  intro j hij
  by_cases hj : j < map.length
  · rw [mapState_of_lt hj]
    apply stateOf_hole
    apply h
    rw [List.mem_iff_getElem]
    refine ⟨j - (i + 1), by rw [List.length_drop]; omega, ?_⟩
    rw [List.getElem_drop]
    congr 1
    omega
  · exact mapState_of_le (by omega)

theorem rightReply_of_faithful {w : ℕ} {reply : List Extent}
    (h : FaithfulReply (mapState map) k (w * K.blocksToMap map)
      (w * K.blocksToMap map + K.blocksToMap map) reply) :
    RightReply K map blocksize k w reply := by
  have hpos : 0 < K.blocksToMap map := blocksToMap_pos
  have hst : w * K.blocksToMap map < w * K.blocksToMap map + K.blocksToMap map := by omega
  have hmul : (w + 1) * K.blocksToMap map = w * K.blocksToMap map + K.blocksToMap map :=
    Nat.succ_mul _ _
  refine ⟨h.flags hst, ?_, ?_⟩
  · intro i hi hw hm
    have hne : mapState map i ≠ .hole := by
      rw [mapState_of_lt hi]
      exact stateOf_ne_hole hm
    obtain ⟨hw1, hw2⟩ := hw
    obtain ⟨e, he, hc, hl⟩ := h.exists_covers (n := map.length) (fun j hj => mapState_of_le hj)
      hw1 (by omega) hne
    exact ⟨e, he, hc, fun hholes => hl (isFinal_of_holes hi hne hholes)⟩
  · intro i hi _ hm
    left
    intro e he hc
    obtain ⟨run, lo, hi', hr, h1, h2, h3, hs⟩ := h.mem hst he
    obtain ⟨hlo, hhi⟩ := (hs.covers_iff h2 i).mp hc
    apply hr.ne_hole (i := i) (by omega) (by omega)
    rw [mapState_of_lt hi]
    exact stateOf_hole hm

theorem blocksToMap_le (hlen : 0 < map.length) : K.blocksToMap map ≤ map.length := by
  have := Nat.mod_lt K.random hlen
  unfold Kernel.blocksToMap
  omega

theorem requestOf_extentCount (hlen : 0 < map.length) (hn : map.length < 2 ^ 31) (w : ℕ) :
    (requestOf K map blocksize w).fmExtentCount.toNat = K.blocksToMap map := by
  have := blocksToMap_le (K := K) hlen
  show (UInt32.ofNat (K.blocksToMap map)).toNat = _
  exact UInt32.toNat_ofNat_of_lt' (by rw [UInt32.size]; omega)

/-- the reply to the request of a window -/
theorem faithful_window (hbs : blocksize.toInt = ((2 ^ k : ℕ) : ℤ)) (hlen : 0 < map.length)
    (hfit : map.length * 2 ^ k < 2 ^ 31) (hio : FaithfulIoctl (mapState map) k K.ioctl) {w : ℕ}
    (hw : w * K.blocksToMap map < map.length) :
    ∃ reply, K.ioctl w (requestOf K map blocksize w) = some reply ∧
      FaithfulReply (mapState map) k (w * K.blocksToMap map)
        (w * K.blocksToMap map + K.blocksToMap map) reply := by
  have hpow := Nat.two_pow_pos k
  have hle := blocksToMap_le (K := K) hlen
  have hn : map.length < 2 ^ 31 := lt_of_le_of_lt (Nat.le_mul_of_pos_right _ hpow) hfit
  have hstart : w * K.blocksToMap map * 2 ^ k < 2 ^ 31 :=
    lt_of_le_of_lt (Nat.mul_le_mul_right _ (Nat.le_of_lt hw)) hfit
  have hcount : K.blocksToMap map * 2 ^ k < 2 ^ 31 :=
    lt_of_le_of_lt (Nat.mul_le_mul_right _ hle) hfit
  exact hio w _ _ _ (toNat_u64_mul hbs (by omega) hstart) (toNat_u64_mul hbs (by omega) hcount)
    blocksToMap_pos

/-- Writer and comparison together, on a faithful file system. -/
theorem noFalseAlarm {σ : Type} {S : Calls σ} (F : Faithful S blocksize k)
    (hbs : blocksize.toInt = ((2 ^ k : ℕ) : ℤ)) (hlen : 0 < map.length)
    (hmap : ∀ m ∈ map, m = 'D' ∨ m = 'H' ∨ m = 'P') (hfit : map.length * 2 ^ k < 2 ^ 31)
    {s : σ} (hpos : F.pos s = 0) (hempty : ∀ i, F.block s i = .hole) (hm : K.malloc = true)
    (hio : FaithfulIoctl (F.block (createFileFromMapping S blocksize true map s).2) k K.ioctl) :
    (createFileFromMapping S blocksize true map s).1 = .ok () ∧
      (∀ i, F.block (createFileFromMapping S blocksize true map s).2 i = mapState map i) ∧
      (compareFiemapAndMap K map blocksize).ret = some 0 ∧
      (compareFiemapAndMap K map blocksize).windows.flatMap Window.checked
        = List.range map.length ∧
      ∀ x ∈ (compareFiemapAndMap K map blocksize).windows,
        x.reply.length ≤ x.request.fmExtentCount.toNat := by
  obtain ⟨s', hs', hb'⟩ := createFileFromMapping_spec F hbs map hmap hfit hpos hempty
  rw [hs'] at hio ⊢
  refine ⟨rfl, fun i => congrFun hb' i, ?_⟩
  rw [show F.block (Except.ok (), s').2 = mapState map from hb'] at hio
  have hpow := Nat.two_pow_pos k
  have hn : map.length < 2 ^ 31 := lt_of_le_of_lt (Nat.le_mul_of_pos_right _ hpow) hfit
  have hfit' (i : ℕ) (hi : i < map.length) : i * 2 ^ k < 2 ^ 31 :=
    lt_of_le_of_lt (Nat.mul_le_mul_right _ (Nat.le_of_lt hi)) hfit
  have hwin (w : ℕ) (hw : w * K.blocksToMap map < map.length) :
      WindowOk K map blocksize w := by
    obtain ⟨reply, hr, hf⟩ := faithful_window (K := K) hbs hlen hfit hio hw
    have hal : Aligned k reply := hf.aligned (Nat.lt_add_of_pos_right blocksToMap_pos)
      (fun i hi => mapState_of_le hi) (by omega)
    exact (windowOk_iff hbs hmap hfit' hr hal).mpr (rightReply_of_faithful hf)
  have hat : AtRound K map blocksize 0 map.length 0 := atRound_zero hlen
  obtain ⟨ws, hws, hcov, hall⟩ := windowLoop_ok hat fun w _ => hwin w
  rw [Nat.zero_mul] at hws hcov
  have hcmp : compareFiemapAndMap K map blocksize = ⟨ws, some (.ok ())⟩ := by
    rw [compareFiemapAndMap, if_pos hm]
    exact hws
  rw [hcmp]
  refine ⟨rfl, ?_, ?_⟩
  · rw [List.range_eq_range']
    exact hcov
  · intro x hx
    obtain ⟨w, hw, hreq, hrep⟩ := hall x hx
    obtain ⟨reply, hr, hf⟩ := faithful_window (K := K) hbs hlen hfit hio hw
    rw [hreq, hr] at hrep
    rw [hreq, requestOf_extentCount hlen hn, ← Option.some.inj hrep]
    exact hf.length_le blocksToMap_pos

end

/-! The map of a data block, a preallocated block and a hole, written to a file in memory. -/

structure MemFile where
  pos : ℕ
  block : ℕ → BlockState

def memCalls : Calls MemFile where
  write s len := (len.toInt64,
    ⟨s.pos + len.toInt.toNat, Function.update s.block (s.pos / len.toInt.toNat) .data⟩)
  fallocate s offset len := (0,
    ⟨s.pos, Function.update s.block (offset.toInt.toNat / len.toInt.toNat)
      (s.block (offset.toInt.toNat / len.toInt.toNat)).allocate⟩)
  lseek s len := (Int64.ofNat (s.pos + len.toInt.toNat), ⟨s.pos + len.toInt.toNat, s.block⟩)

def memFaithful {blocksize : Int32} {k : ℕ} (hbs : blocksize.toInt = ((2 ^ k : ℕ) : ℤ)) :
    Faithful memCalls blocksize k where
  pos := MemFile.pos
  block := MemFile.block
  write s i hpos _ := by
    have hlen : blocksize.toInt.toNat = 2 ^ k := by rw [hbs]; rfl
    refine ⟨_, rfl, ?_, ?_⟩
    · show s.pos + blocksize.toInt.toNat = _
      rw [hpos, hlen, Nat.succ_mul]
    · show Function.update s.block (s.pos / blocksize.toInt.toNat) _ = _
      rw [hpos, hlen, Nat.mul_div_cancel i (Nat.two_pow_pos k)]
  fallocate s i hfit := by
    have hlen : blocksize.toInt.toNat = 2 ^ k := by rw [hbs]; rfl
    have hoff : (Int32.ofNat (i * 2 ^ k)).toInt.toNat = i * 2 ^ k := by
      rw [Nat.succ_mul] at hfit
      rw [toInt_ofNat (by omega)]
      rfl
    refine ⟨_, rfl, rfl, ?_⟩
    show Function.update s.block _ (s.block _).allocate = _
    rw [hoff, hlen, Nat.mul_div_cancel i (Nat.two_pow_pos k)]
  lseek s i hpos _ := by
    have hnext : s.pos + blocksize.toInt.toNat = (i + 1) * 2 ^ k := by
      rw [hpos, hbs, Nat.succ_mul]
      rfl
    refine ⟨⟨s.pos + blocksize.toInt.toNat, s.block⟩, ?_, hnext, rfl⟩
    rw [← hnext]
    rfl

def dphFaithful : Faithful memCalls 4096 12 := memFaithful (by decide)

def dphRuns (s t : ℕ) : List (ℕ × ℕ) :=
  (if s < 1 then [(0, 1)] else []) ++ if s < 2 ∧ 1 < t then [(1, 2)] else []

def dphExtent (run : ℕ × ℕ) : Extent :=
  if run.1 = 0 then ⟨0, 0x10000, 4096, 0⟩
  else ⟨4096, 0x20000, 4096, extentUnwritten ||| extentLast⟩

def dphIoctl (_ : ℕ) (r : Request) : Option (List Extent) :=
  let s := r.fmStart.toNat / 4096
  some ((dphRuns s (s + r.fmLength.toNat / 4096)).map dphExtent)

def dphEmpty : MemFile := ⟨0, fun _ => .hole⟩

def dphFileKernel : Kernel where
  malloc := true
  random := 4
  lastData := -1
  ioctl := dphIoctl
  checkWeirdFsHole _ := false

theorem dph_maxRun_zero : MaxRun (mapState dphMap) 0 1 := by
  refine ⟨by omega, ?_, by omega, by decide⟩
  intro i _ hi
  rw [Nat.lt_one_iff.mp hi]

theorem dph_maxRun_one : MaxRun (mapState dphMap) 1 2 := by
  refine ⟨by omega, ?_, ?_, by decide⟩
  · intro i hi hi'
    rw [show i = 1 by omega]
  · intro i hi
    rw [Nat.succ.inj hi]
    decide

theorem dph_isFinal (n : ℕ) : IsFinal (mapState dphMap) n ↔ n = 1 := by
  refine ⟨?_, ?_⟩
  · intro h
    obtain ⟨hne, hall⟩ := h
    have hlt : n < 3 := by
      by_contra hge
      exact hne (mapState_of_le (by show 3 ≤ n; omega))
    interval_cases n
    · exact absurd (hall 1 (by omega)) (by decide)
    · rfl
    · exact absurd rfl hne
  · rintro rfl
    exact isFinal_of_holes (by decide) (by decide) fun m hm => List.mem_singleton.mp hm

theorem mem_dphRuns (s t : ℕ) (run : ℕ × ℕ) :
    run ∈ dphRuns s t ↔ (run = (0, 1) ∧ s < 1) ∨ (run = (1, 2) ∧ s < 2 ∧ 1 < t) := by
  have key {p : Prop} [Decidable p] (r : ℕ × ℕ) : run ∈ (if p then [r] else []) ↔ run = r ∧ p := by
    by_cases hp : p
    · rw [if_pos hp, List.mem_singleton, and_iff_left hp]
    · rw [if_neg hp]
      simp [hp]
  unfold dphRuns
  rw [List.mem_append, key, key]

theorem dph_runIn (s t : ℕ) (hst : s < t) (run : ℕ × ℕ) :
    run ∈ dphRuns s t ↔ RunIn (mapState dphMap) s t run := by
  rw [mem_dphRuns]
  refine ⟨?_, ?_⟩
  · rintro (⟨rfl, hs⟩ | ⟨rfl, hs, ht⟩)
    · exact ⟨dph_maxRun_zero, by decide, by show 0 < t; omega, hs⟩
    · exact ⟨dph_maxRun_one, by decide, ht, hs⟩
  · intro hr
    obtain ⟨a, b⟩ := run
    have hlt := hr.maxRun.lt
    have ha : a < 3 := by
      by_contra hge
      exact hr.allocated (mapState_of_le (by show 3 ≤ a; omega))
    interval_cases a
    · obtain ⟨_, rfl⟩ := hr.maxRun.eq_of_mem dph_maxRun_zero (Nat.le_refl 0) hlt
        (Nat.le_refl 0) (by omega)
      exact .inl ⟨rfl, hr.after⟩
    · obtain ⟨_, rfl⟩ := hr.maxRun.eq_of_mem dph_maxRun_one (Nat.le_refl 1) hlt
        (Nat.le_refl 1) (by omega)
      exact .inr ⟨rfl, hr.after, hr.before⟩
    · exact absurd rfl hr.allocated

theorem dphExtent_shows {run : ℕ × ℕ} (h : run = (0, 1) ∨ run = (1, 2)) :
    Shows (mapState dphMap) 12 run.1 run.2 (dphExtent run) := by
  rcases h with rfl | rfl
  · refine ⟨rfl, rfl, by decide, by decide, ?_, ?_⟩
    · apply iff_of_false (by decide)
      intro hex
      obtain ⟨n, _, hn, hf⟩ := hex
      rw [(dph_isFinal n).mp hf] at hn
      exact absurd hn (by decide)
    · intro flag _ hx
      exact hx (UInt32.zero_and)
  · refine ⟨rfl, rfl, by decide, by decide, ?_, ?_⟩
    · exact iff_of_true (by decide) ⟨1, by decide, by decide, (dph_isFinal 1).mpr rfl⟩
    · intro flag hflag hx
      apply hx
      rw [UInt32.and_comm]
      exact hflag

theorem dphIoctl_faithful : FaithfulIoctl (mapState dphMap) 12 dphIoctl := by
  intro w r s n hs hn hpos
  have h1 : r.fmStart.toNat / 4096 = s := by omega
  have h2 : r.fmLength.toNat / 4096 = n := by omega
  refine ⟨(dphRuns s (s + n)).map dphExtent, by rw [dphIoctl, h1, h2], dphRuns s (s + n), ?_,
    dph_runIn s (s + n) (by omega), ?_⟩
  · unfold dphRuns
    split_ifs <;> simp
  · rw [List.forall₂_map_right_iff]
    apply List.forall₂_same.mpr
    intro run hrun
    refine ⟨run.1, run.2, .inl rfl, .inl rfl, dphExtent_shows ?_⟩
    rcases (mem_dphRuns _ _ _).mp hrun with ⟨h, _⟩ | ⟨h, _⟩
    · exact .inl h
    · exact .inr h

theorem dph_ioctl :
    FaithfulIoctl (dphFaithful.block
      (createFileFromMapping memCalls 4096 true dphMap dphEmpty).2) 12 dphFileKernel.ioctl := by
  obtain ⟨s', hs', hb'⟩ := createFileFromMapping_spec
    dphFaithful (by decide +kernel) dphMap mem_dphMap
    (by decide +kernel) (s := dphEmpty) rfl fun _ => rfl
  rw [hs']
  rw [hb']
  exact dphIoctl_faithful

theorem noFalseAlarm_dph :
    (compareFiemapAndMap dphFileKernel dphMap 4096).ret = some 0 :=
  (noFalseAlarm dphFaithful (by decide +kernel) (by decide) mem_dphMap (by decide +kernel)
    (s := dphEmpty) rfl (fun _ => rfl) rfl dph_ioctl).2.2.1

end Fiemap
