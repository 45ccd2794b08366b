import TestUnion.Fiemap.CompareSpec
import TestUnion.Fiemap.Main

/-!
# fiemap-test: the products of `main`

* `Val.Exact`       the value is the product in question, or a modulus that is positive;
* `Fits`            when the map of `-m` has entries, and the entries that are written end below
                    `2 ^ 31` bytes;
* `createVals_exact`, `compareVals_exact`   what the two functions compute for such a map;
* `generated_exact`, `mainLoop_exact`   maps that `main` makes are shorter than 2 MiB;
* `exact_iff`       `main` computes exact values, whatever happens in a run, iff the map fits.
-/

namespace Fiemap

open CInt

def Val.Exact (blocksize : Int32) : Val → Prop
  | .curOffset i v => v.toInt = i * blocksize.toInt
  | .modulus v => 0 < v.toInt
  | .mapLength n v => (v.toNat : ℤ) = n * blocksize.toInt
  | .mapStart i v => (v.toNat : ℤ) = i * blocksize.toInt
  | .logicalOffset i v => (v.toNat : ℤ) = i * blocksize.toInt

instance (blocksize : Int32) (v : Val) : Decidable (v.Exact blocksize) := by
  cases v <;> unfold Val.Exact <;> infer_instance

/-- an entry that `create_file_from_mapping` knows -/
def isEntry (m : Char) : Bool := m = 'D' ∨ m = 'H' ∨ m = 'P'

/-- The entries of the map that are written; `blocks` is an `int`. -/
def writtenEntries (map : List Char) : List Char :=
  (map.take (Int32.ofNat map.length).toInt.toNat).takeWhile isEntry

/-- The map has entries, and those that are written end below `2 ^ 31` bytes. -/
def Fits (blocksize : Int32) (map : List Char) : Prop :=
  0 < (Int32.ofNat map.length).toInt ∧
    ((writtenEntries map).length : ℤ) * blocksize.toInt < 2 ^ 31

section
variable {σ : Type} {S : Calls σ} {blocksize : Int32} {b : ℕ} {m : Char} {cur : Int32} {s : σ}
  {map ms : List Char} {i : ℕ}

/-! ## the writer -/

theorem createBlock_entry (h : (createBlock S blocksize m cur s).1 = .ok ()) :
    isEntry m = true := by
  unfold createBlock at h
  split at h
  · rfl
  · rfl
  · rfl
  · cases h

section
variable (hb : blocksize.toInt = b)
include hb

theorem toInt_next (hcur : cur.toInt = (i * b : ℕ)) (hfit : (i + 1) * b < 2 ^ 31) :
    (cur + blocksize).toInt = ((i + 1) * b : ℕ) := by
  have hsum : cur.toInt + blocksize.toInt = ((i + 1) * b : ℕ) := by
    rw [hcur, hb]
    push_cast
    ring
  rw [Int32.toInt_add, hsum, Int.bmod_eq_of_le (by omega) (by omega)]

theorem curOffset_exact (hcur : cur.toInt = (i * b : ℕ)) : (Val.curOffset i cur).Exact blocksize := by
  show cur.toInt = i * blocksize.toInt
  rw [hcur, hb]
  push_cast
  rfl

/-- The writer computes exact values up to the first entry that it does not know. -/
theorem createVals_exact (hcur : cur.toInt = (i * b : ℕ))
    (hfit : (i + (ms.takeWhile isEntry).length) * b < 2 ^ 31) :
    (∀ v ∈ (createVals S blocksize ms i cur s).1, v.Exact blocksize) ∧
      ((createVals S blocksize ms i cur s).2.1 = .ok () → ms.takeWhile isEntry = ms) := by
  have hexact := curOffset_exact hb hcur
  induction ms generalizing i cur s with
  | nil => exact ⟨List.forall_mem_singleton.mpr hexact, fun _ => rfl⟩
  | cons m ms ih =>
    unfold createVals
    rcases hblock : createBlock S blocksize m cur s with ⟨_ | _, s'⟩
    · exact ⟨List.forall_mem_singleton.mpr hexact, fun h => by cases h⟩
    · have hentry : isEntry m = true := createBlock_entry (by rw [hblock])
      have hlen : i + ((ms.takeWhile isEntry).length + 1) = i + 1 + (ms.takeWhile isEntry).length := by
        omega
      rw [List.takeWhile_cons_of_pos hentry, List.length_cons, hlen] at hfit
      have hnext := toInt_next hb hcur
        (lt_of_le_of_lt (Nat.mul_le_mul_right b (Nat.le_add_right _ _)) hfit)
      obtain ⟨hvals, hok⟩ := ih (s := s') hnext hfit (curOffset_exact hb hnext)
      refine ⟨List.forall_mem_cons.mpr ⟨hexact, hvals⟩, ?_⟩
      intro h
      rw [List.takeWhile_cons_of_pos hentry, hok h]

/-! ## the comparison -/

variable (hpos : 0 < b)
include hpos

/-- the products by an index, or by a number of blocks, that the map has -/
theorem u64_mul_exact {n : ℕ} (hn : n ≤ map.length) (hfit : map.length * b < 2 ^ 31) :
    ((u64 (Int32.ofNat n * blocksize)).toNat : ℤ) = n * blocksize.toInt := by
  have hnb : n * b < 2 ^ 31 := lt_of_le_of_lt (Nat.mul_le_mul_right b hn) hfit
  have hn31 : n < 2 ^ 31 := lt_of_le_of_lt (Nat.le_mul_of_pos_right n hpos) hnb
  rw [toNat_u64_mul hb hn31 hnb, hb]
  push_cast
  rfl

variable {K : Kernel} (hfit : map.length * b < 2 ^ 31)
include hfit

theorem checkVals_exact {fiemap : List Extent} {c : ℕ} (hi : i + ms.length ≤ map.length) :
    (∀ v ∈ (checkVals K map blocksize fiemap i c ms).1, v.Exact blocksize) ∧
      ∀ j, (checkVals K map blocksize fiemap i c ms).2.2 = .ok j → j ≤ map.length := by
  induction ms generalizing i c with
  | nil =>
    refine ⟨List.forall_mem_nil _, ?_⟩
    intro j hj
    cases hj
    exact hi
  | cons m ms ih =>
    rw [List.length_cons] at hi
    have hexact : (Val.logicalOffset i (u64 (Int32.ofNat i * blocksize))).Exact blocksize :=
      u64_mul_exact hb hpos (by omega) hfit
    unfold checkVals
    dsimp only
    split
    · refine ⟨List.forall_mem_singleton.mpr hexact, ?_⟩
      intro j hj
      cases hj
      omega
    · rcases checkBlock K map blocksize fiemap i m with _ | _
      · exact ⟨List.forall_mem_singleton.mpr hexact, fun j hj => by cases hj⟩
      · obtain ⟨hvals, hend⟩ := ih (i := i + 1) (c := c + 1) (by omega)
        exact ⟨List.forall_mem_cons.mpr ⟨hexact, hvals⟩, hend⟩

theorem windowVals_exact {mapLength mapStart : UInt64} {rounds w curExtent : ℕ}
    (hcur : curExtent ≤ map.length) :
    ∀ v ∈ (windowVals K map blocksize mapLength rounds w curExtent mapStart).1,
      v.Exact blocksize := by
  induction rounds generalizing w curExtent mapStart with
  | zero => exact List.forall_mem_nil _
  | succ rounds ih =>
    unfold windowVals
    dsimp only
    cases K.ioctl w ⟨mapStart, mapLength, fiemapFlagSync, UInt32.ofNat (K.blocksToMap map)⟩ with
    | none => exact List.forall_mem_nil _
    | some fiemap =>
      dsimp only
      cases checkFlags blocksize fiemap with
      | error a => exact List.forall_mem_nil _
      | ok u =>
        obtain ⟨hvals, hend⟩ : (∀ v ∈ (checkVals K map blocksize fiemap curExtent 1
            (map.drop curExtent)).1, v.Exact blocksize) ∧
            ∀ j, (checkVals K map blocksize fiemap curExtent 1 (map.drop curExtent)).2.2 = .ok j →
              j ≤ map.length :=
          checkVals_exact hb hpos hfit (by rw [List.length_drop]; omega)
        dsimp only
        rcases hcheck : checkVals K map blocksize fiemap curExtent 1 (map.drop curExtent) with
          ⟨vals, checked, _ | i⟩ <;> rw [hcheck] at hvals hend
        · exact hvals
        · have hi := hend i rfl
          have hstart : (Val.mapStart i (u64 (Int32.ofNat i * blocksize))).Exact blocksize :=
            u64_mul_exact hb hpos hi hfit
          dsimp only
          split
          · exact List.forall_mem_append.mpr ⟨hvals, List.forall_mem_cons.mpr ⟨hstart, ih hi⟩⟩
          · exact List.forall_mem_append.mpr ⟨hvals, List.forall_mem_singleton.mpr hstart⟩

theorem compareVals_exact (hlen : 0 < map.length) :
    ∀ v ∈ (compareVals K map blocksize).1, v.Exact blocksize := by
  have hmap : K.blocksToMap map ≤ map.length := Nat.mod_lt _ hlen
  have hzero : (Val.mapStart 0 0).Exact blocksize := by
    show ((0 : UInt64).toNat : ℤ) = (0 : ℕ) * blocksize.toInt
    simp
  unfold compareVals
  split
  · exact List.forall_mem_cons.mpr ⟨hzero, List.forall_mem_cons.mpr
      ⟨u64_mul_exact hb hpos hmap hfit, windowVals_exact hb hpos hfit (Nat.zero_le _)⟩⟩
  · exact List.forall_mem_nil _

end

/-! ## main -/

variable {O : Outside σ} {prealloc : Bool}

section
variable (hb : blocksize.toInt = b) (hpos : 0 < b)
include hb hpos

theorem testMap_exact {round : ℕ} {blocks : Int32}
    (hblocks : 0 < blocks.toInt) (hlen : blocks.toInt.toNat ≤ map.length)
    (hfit : ((map.take blocks.toInt.toNat).takeWhile isEntry).length * b < 2 ^ 31) :
    ∀ v ∈ (testMap O blocksize round map blocks s).1, v.Exact blocksize := by
  obtain ⟨hvals, hok⟩ :
      (∀ v ∈ (createVals O.calls blocksize (map.take blocks.toInt.toNat) 0 0 s).1,
        v.Exact blocksize) ∧
      ((createVals O.calls blocksize (map.take blocks.toInt.toNat) 0 0 s).2.1 = .ok () →
        (map.take blocks.toInt.toNat).takeWhile isEntry = map.take blocks.toInt.toNat) :=
    createVals_exact hb (by rw [Nat.zero_mul]; rfl) (by rwa [Nat.zero_add])
  unfold testMap
  dsimp only
  split
  · rcases hcreate : createVals O.calls blocksize (map.take blocks.toInt.toNat) 0 0 s with
      ⟨vals, _ | _, s'⟩ <;> rw [hcreate] at hvals hok
    · exact hvals
    · -- all entries were written
      rw [hok rfl] at hfit
      have hentries : 0 < (map.take blocks.toInt.toNat).length := by
        rw [List.length_take]
        omega
      dsimp only
      rw [if_neg (by omega)]
      exact List.forall_mem_append.mpr ⟨hvals, List.forall_mem_cons.mpr
        ⟨hblocks, compareVals_exact hb hpos hfit hentries⟩⟩
  · exact List.forall_mem_nil _

omit hb hpos in
theorem toInt_ofNat_le (n : ℕ) : (Int32.ofNat n).toInt.toNat ≤ n := by
  rw [Int32.toInt_ofNat', Int.bmod_def]
  have hsize : Int32.size = 2 ^ 32 := rfl
  rw [hsize]
  split <;> omega

/-- A map that `main` makes is shorter than 2 MiB. -/
theorem generated_exact {round n : ℕ} {random : ℕ → ℕ} (h0 : n ≠ 0) (hn : n < maxBlocks blocksize) :
    ∀ v ∈ (testMap O blocksize round (generateFileMapping random n prealloc) (Int32.ofNat n) s).1,
      v.Exact blocksize := by
  have hmax : maxBlocks blocksize * b ≤ 2 * 1024 * 1024 := by
    unfold maxBlocks
    rw [hb]
    exact Nat.div_mul_le_self _ b
  have hfit : n * b < 2 ^ 31 := by
    have := Nat.mul_le_mul_right b (Nat.le_of_lt hn)
    omega
  have hlen : (generateFileMapping random n prealloc).length = n := by
    unfold generateFileMapping
    rw [List.length_map, List.length_range]
  have hint : (Int32.ofNat n).toInt = n := by
    apply toInt_ofNat
    exact lt_of_le_of_lt (Nat.le_mul_of_pos_right n hpos) hfit
  have hentries := ((List.takeWhile_prefix isEntry).trans (List.take_prefix
    (Int32.ofNat n).toInt.toNat (generateFileMapping random n prealloc))).length_le
  rw [hlen] at hentries
  refine testMap_exact hb hpos ?_ ?_ ?_
  · rw [hint]
    omega
  · rw [hint, hlen]
    omega
  · exact lt_of_le_of_lt (Nat.mul_le_mul_right b hentries) hfit

theorem mainLoop_exact {fuel round : ℕ} {arg : Option (List Char)} {runs : Int32}
    (harg : ∀ map, arg = some map → Fits blocksize map) :
    ∀ v ∈ mainLoop O blocksize prealloc fuel round arg runs s, v.Exact blocksize := by
  induction fuel generalizing round arg runs s with
  | zero => exact List.forall_mem_nil _
  | succ fuel ih =>
    have hagain (s : σ) (runs : Int32) : ∀ v ∈ if runs ≠ 0 then
        mainLoop O blocksize prealloc fuel (round + 1) none runs s else [], v.Exact blocksize := by
      split
      · exact ih fun map h => by cases h
      · exact List.forall_mem_nil _
    unfold mainLoop
    cases arg with
    | some map =>
      obtain ⟨hblocks, hfit⟩ := harg map rfl
      rw [hb] at hfit
      refine List.forall_mem_append.mpr
        ⟨testMap_exact hb hpos hblocks (toInt_ofNat_le _) (by exact_mod_cast hfit), ?_⟩
      split
      · exact List.forall_mem_nil _
      · exact hagain _ _
    | none =>
      dsimp only
      split
      · exact List.forall_mem_nil _
      · next hmax =>
        split
        · exact hagain s runs
        · next hne =>
          split
          · have hn := Nat.mod_lt (O.randomBlocks round) (Nat.pos_of_ne_zero hmax)
            refine List.forall_mem_append.mpr ⟨generated_exact hb hpos hne hn, ?_⟩
            split
            · exact List.forall_mem_nil _
            · exact hagain _ _
          · exact List.forall_mem_nil _

end

/-! ## a run without errors -/

/-- calls that succeed -/
def flawless : Calls Unit where
  write _ n := (n.toInt64, ())
  fallocate _ _ _ := (0, ())
  lseek _ _ := (0, ())

theorem createBlock_flawless (blocksize : Int32) (hm : isEntry m = true) (cur : Int32) (u : Unit) :
    createBlock flawless blocksize m cur u = (.ok (), ()) := by
  have hseek : seekBlock flawless blocksize u = (.ok (), ()) := rfl
  have hm : m = 'D' ∨ m = 'H' ∨ m = 'P' := of_decide_eq_true hm
  rcases hm with rfl | rfl | rfl
  · have hnot : ¬ blocksize.toInt64.toInt32 < blocksize := by
      rw [Int32.toInt32_toInt64]
      exact Int32.lt_irrefl
    exact if_neg hnot
  · exact hseek
  · exact hseek

/-- `cur_offset` comes to the end of the entries that are written. -/
theorem curOffset_mem (blocksize : Int32) (ms : List Char) (i : ℕ) (cur : Int32) (u : Unit) :
    ∃ v, .curOffset (i + (ms.takeWhile isEntry).length) v ∈
      (createVals flawless blocksize ms i cur u).1 := by
  induction ms generalizing i cur u with
  | nil => exact ⟨cur, List.mem_singleton_self _⟩
  | cons m ms ih =>
    by_cases hm : isEntry m = true
    · obtain ⟨v, hv⟩ := ih (i + 1) (cur + blocksize) ()
      have hlen : i + ((ms.takeWhile isEntry).length + 1) = i + 1 + (ms.takeWhile isEntry).length := by
        omega
      refine ⟨v, ?_⟩
      unfold createVals
      rw [createBlock_flawless blocksize hm, List.takeWhile_cons_of_pos hm, List.length_cons, hlen]
      exact List.mem_cons_of_mem _ hv
    · refine ⟨cur, ?_⟩
      unfold createVals
      rw [List.takeWhile_cons_of_neg hm]
      rcases createBlock flawless blocksize m cur u with ⟨_ | _, u'⟩
      · exact List.mem_singleton_self _
      · exact List.mem_cons_self ..

def flawlessOutside : Outside Unit where
  calls := flawless
  randomBlocks _ := 0
  mallocMap _ := true
  randomTypes _ _ := 0
  mallocBuf _ := true
  kernel _ := ⟨true, 0, 0, fun _ _ => none, fun _ => true⟩
  rewind _ u := some u

theorem mem_testMap {blocks : Int32} {v : Val} (hv : v ∈ (createVals flawless blocksize
    (map.take blocks.toInt.toNat) 0 0 ()).1) :
    v ∈ (testMap flawlessOutside blocksize 0 map blocks ()).1 := by
  have hv : v ∈ (createVals flawlessOutside.calls blocksize (map.take blocks.toInt.toNat) 0 0 ()).1 :=
    hv
  have hmalloc : flawlessOutside.mallocBuf 0 = true := rfl
  unfold testMap
  dsimp only
  rw [if_pos hmalloc]
  rcases hcreate : createVals flawlessOutside.calls blocksize (map.take blocks.toInt.toNat) 0 0 ()
    with ⟨vals, _ | _, u⟩ <;> rw [hcreate] at hv
  · exact hv
  · dsimp only
    split <;> exact List.mem_append_left _ hv

/-- The round writes all entries that it can, and then comes to the modulus. -/
theorem fits_of_exact (hall : ∀ v ∈ (testMap flawlessOutside blocksize 0 map
    (Int32.ofNat map.length) ()).1, v.Exact blocksize) : Fits blocksize map := by
  have hblocks : 0 < (Int32.ofNat map.length).toInt := by
    by_contra hle
    have hmod : Val.modulus (Int32.ofNat map.length) ∈
        (testMap flawlessOutside blocksize 0 map (Int32.ofNat map.length) ()).1 := by
      have hnone : (Int32.ofNat map.length).toInt.toNat = 0 := by omega
      unfold testMap
      rw [hnone, List.take_zero]
      show _ ∈ (if (Int32.ofNat map.length).toInt ≤ 0 then _ else _ : List Val × Option Unit).1
      rw [if_pos (not_lt.mp hle)]
      exact List.mem_append_right _ (List.mem_singleton_self _)
    exact hle (hall _ hmod)
  refine ⟨hblocks, ?_⟩
  obtain ⟨v, hv⟩ := curOffset_mem blocksize (map.take (Int32.ofNat map.length).toInt.toNat) 0 0 ()
  have hexact : v.toInt = _ := hall _ (mem_testMap hv)
  have hlt := v.toInt_lt
  rw [hexact, Nat.zero_add] at hlt
  exact hlt

end

/-- **The values that `main` computes** are exact in every run iff the map of `-m` fits, when it is
accepted. -/
theorem exact_iff {blocksize : Int32} (hpos : 0 < blocksize.toInt) (prealloc : Bool)
    (map : Option (List Char)) (runs : Int32) :
    (∀ (σ : Type) (O : Outside σ) (fuel : ℕ) (s : σ),
      ∀ v ∈ mainVals O blocksize prealloc fuel map runs s, v.Exact blocksize) ↔
    (runs = -1 → ∀ m, map = some m → Fits blocksize m) := by
  refine ⟨?_, ?_⟩
  · rintro hall rfl m rfl
    apply fits_of_exact
    intro v hv
    apply hall Unit flawlessOutside 1 ()
    unfold mainVals
    rw [if_neg (by simp)]
    exact List.mem_append_left _ hv
  · intro hfits σ O fuel s
    obtain ⟨b, hb⟩ : ∃ b : ℕ, blocksize.toInt = b := ⟨_, (Int.toNat_of_nonneg (by omega)).symm⟩
    unfold mainVals
    split
    · exact List.forall_mem_nil _
    · next hruns =>
      apply mainLoop_exact hb (by omega)
      rintro m rfl
      apply hfits _ m rfl
      by_contra hne
      exact hruns ⟨hne, rfl⟩

theorem exact_iff_dph : dphMap.length = 3 ∧ ∀ v ∈ mainVals flawlessOutside 4096 true 1 (some dphMap)
    (-1) (), v.Exact 4096 := by
  have hfits : Fits 4096 dphMap := by
    refine ⟨?_, ?_⟩ <;> decide
  refine ⟨rfl, ?_⟩
  apply (exact_iff (by decide) true (some dphMap) (-1)).mpr
  rintro - m hm
  cases hm
  exact hfits

/-- The empty map: `random() % 0`. -/
theorem not_exact : ¬ ∀ (blocksize : Int32) (map : List Char), 0 < blocksize.toInt →
    ∀ v ∈ mainVals flawlessOutside blocksize true 1 (some map) (-1) (), v.Exact blocksize := by
  intro hall
  have hmod := hall 4096 [] (by decide) (.modulus 0) (by decide)
  exact absurd hmod (by decide)

end Fiemap
