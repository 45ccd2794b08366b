import TestUnion.CInt

/-!
# fiemap-test: `create_file_from_mapping`

* `Calls`        the three calls the writer makes on the open file, with a state of the file system;
* `createBlock`  the `switch` for one entry of the map, `createLoop` the `for` loop;
* `createFileFromMapping`   the function: `.ok ()` is the return value 0;
* `Faithful`     what the calls do on a file system that keeps its word, for one block at a time;
* `createFileFromMapping_spec`   the file then has the blocks of the map.
-/

namespace Fiemap

open CInt

/-- `write` and `lseek` return a 64-bit `ssize_t` and `off_t`, `fallocate` an `int`. -/
structure Calls (σ : Type) where
  write : σ → Int32 → Int64 × σ
  fallocate : σ → Int32 → Int32 → Int32 × σ
  lseek : σ → Int32 → Int64 × σ

inductive CreateError where
  | noMemory
  | shortWrite
  | fallocating
  | lseeking
  | unrecognized
  deriving DecidableEq, Repr

section
variable {σ : Type} (S : Calls σ) (blocksize : Int32)

/-- the `lseek` in which both `'P'` and `'H'` end -/
def seekBlock (s : σ) : Except CreateError Unit × σ :=
  let (ret, s) := S.lseek s blocksize
  if ret.toInt32 = -1 then (.error .lseeking, s) else (.ok (), s)

def createBlock (m : Char) (curOffset : Int32) (s : σ) : Except CreateError Unit × σ :=
  match m with
  | 'D' =>
    let (ret, s) := S.write s blocksize
    if ret.toInt32 < blocksize then (.error .shortWrite, s) else (.ok (), s)
  | 'P' =>
    let (ret, s) := S.fallocate s curOffset blocksize
    -- falls through to the case 'H'
    if ret < 0 then (.error .fallocating, s) else seekBlock S blocksize s
  | 'H' => seekBlock S blocksize s
  | _ => (.error .unrecognized, s)

def createLoop : List Char → Int32 → σ → Except CreateError Unit × σ
  | [], _, s => (.ok (), s)
  | m :: ms, curOffset, s =>
    match createBlock S blocksize m curOffset s with
    | (.error e, s) => (.error e, s)
    | (.ok (), s) => createLoop ms (curOffset + blocksize) s

def createFileFromMapping (malloc : Bool) (map : List Char) (s : σ) :
    Except CreateError Unit × σ :=
  if malloc = true then createLoop S blocksize map 0 s else (.error .noMemory, s)

end

/-! ## a faithful file system -/

inductive BlockState where
  | hole
  | data
  | unwritten
  deriving DecidableEq, Repr

/-- `fallocate` of a block -/
def BlockState.allocate : BlockState → BlockState
  | .hole => .unwritten
  | b => b

/-- The state shows the position of the file and the state of its blocks of `2 ^ k` bytes; a call on
one whole block that ends below `2 ^ 31` succeeds and changes this block only. -/
structure Faithful {σ : Type} (S : Calls σ) (blocksize : Int32) (k : ℕ) where
  pos : σ → ℕ
  block : σ → ℕ → BlockState
  write : ∀ s i, pos s = i * 2 ^ k → (i + 1) * 2 ^ k < 2 ^ 31 →
    ∃ s', S.write s blocksize = (blocksize.toInt64, s') ∧ pos s' = (i + 1) * 2 ^ k ∧
      block s' = Function.update (block s) i .data
  fallocate : ∀ s i, (i + 1) * 2 ^ k < 2 ^ 31 →
    ∃ s', S.fallocate s (Int32.ofNat (i * 2 ^ k)) blocksize = (0, s') ∧ pos s' = pos s ∧
      block s' = Function.update (block s) i (block s i).allocate
  lseek : ∀ s i, pos s = i * 2 ^ k → (i + 1) * 2 ^ k < 2 ^ 31 →
    ∃ s', S.lseek s blocksize = (Int64.ofNat ((i + 1) * 2 ^ k), s') ∧ pos s' = (i + 1) * 2 ^ k ∧
      block s' = block s

/-- the state an entry of the map asks for -/
def stateOf : Char → BlockState
  | 'D' => .data
  | 'P' => .unwritten
  | _ => .hole

def mapState (map : List Char) (i : ℕ) : BlockState := (map[i]?.map stateOf).getD .hole

section
variable {σ : Type} {S : Calls σ} {blocksize : Int32} {k : ℕ}

theorem mapState_cons_succ (m : Char) (ms : List Char) (i : ℕ) :
    mapState (m :: ms) (i + 1) = mapState ms i := rfl

theorem mapState_of_le {map : List Char} {i : ℕ} (h : map.length ≤ i) :
    mapState map i = .hole := by
  unfold mapState
  rw [List.getElem?_eq_none h]
  rfl

theorem seekBlock_spec (F : Faithful S blocksize k) {s : σ} {i : ℕ} (hpos : F.pos s = i * 2 ^ k)
    (hfit : (i + 1) * 2 ^ k < 2 ^ 31) :
    ∃ s', seekBlock S blocksize s = (.ok (), s') ∧ F.pos s' = (i + 1) * 2 ^ k ∧
      F.block s' = F.block s := by
  obtain ⟨s', hs, hp, hb⟩ := F.lseek s i hpos hfit
  refine ⟨s', ?_, hp, hb⟩
  have hne : (Int64.ofNat ((i + 1) * 2 ^ k)).toInt32 ≠ -1 := by
    intro h
    have h1 := congrArg Int32.toInt h
    rw [Int64.toInt_toInt32, Int64.toInt_ofNat_of_lt (by omega)] at h1
    have h2 : ((((i + 1) * 2 ^ k : ℕ) : ℤ)).bmod (2 ^ 32) = (((i + 1) * 2 ^ k : ℕ) : ℤ) :=
      Int.bmod_eq_of_le (by omega) (by omega)
    have h3 : (-1 : Int32).toInt = -1 := by decide
    omega
  unfold seekBlock
  rw [hs]
  exact if_neg hne

/-- one entry of the map: the two cursors are equal before it and one block further after it -/
theorem createBlock_spec (F : Faithful S blocksize k)
    {m : Char} (hm : m = 'D' ∨ m = 'H' ∨ m = 'P') {s : σ} {i : ℕ}
    (hpos : F.pos s = i * 2 ^ k) (hfit : (i + 1) * 2 ^ k < 2 ^ 31) (hi : F.block s i = .hole) :
    ∃ s', createBlock S blocksize m (Int32.ofNat (i * 2 ^ k)) s = (.ok (), s') ∧
      F.pos s' = (i + 1) * 2 ^ k ∧
      F.block s' = Function.update (F.block s) i (stateOf m) := by
  rcases hm with rfl | rfl | rfl
  · obtain ⟨s', hs, hp, hb⟩ := F.write s i hpos hfit
    refine ⟨s', ?_, hp, hb⟩
    have hnot : ¬ blocksize.toInt64.toInt32 < blocksize := by
      rw [Int32.toInt32_toInt64]
      exact Int32.lt_irrefl
    unfold createBlock
    rw [hs]
    exact if_neg hnot
  · obtain ⟨s', hs, hp, hb⟩ := seekBlock_spec F hpos hfit
    refine ⟨s', hs, hp, ?_⟩
    rw [hb]
    show F.block s = Function.update (F.block s) i .hole
    rw [← hi, Function.update_eq_self]
  · obtain ⟨s1, hs1, hp1, hb1⟩ := F.fallocate s i hfit
    obtain ⟨s2, hs2, hp2, hb2⟩ := seekBlock_spec F (hp1.trans hpos) hfit
    refine ⟨s2, ?_, hp2, ?_⟩
    · unfold createBlock
      rw [hs1]
      exact hs2
    · rw [hb2, hb1, hi]
      rfl

theorem createLoop_spec (F : Faithful S blocksize k) (hbs : blocksize.toInt = ((2 ^ k : ℕ) : ℤ))
    (ms : List Char) (hms : ∀ m ∈ ms, m = 'D' ∨ m = 'H' ∨ m = 'P') {s : σ} {i : ℕ}
    (hpos : F.pos s = i * 2 ^ k) (hfit : (i + ms.length) * 2 ^ k < 2 ^ 31)
    (hhole : ∀ j, i ≤ j → F.block s j = .hole) :
    ∃ s', createLoop S blocksize ms (Int32.ofNat (i * 2 ^ k)) s = (.ok (), s') ∧
      ∀ j, F.block s' j = if j < i then F.block s j else mapState ms (j - i) := by
  induction ms generalizing s i with
  | nil =>
    refine ⟨s, rfl, ?_⟩
    intro j
    split
    · rfl
    · next hj => rw [hhole j (by omega), mapState_of_le (Nat.zero_le _)]
  | cons m ms ih =>
    have hlen : i + (m :: ms).length = i + 1 + ms.length := by
      rw [List.length_cons]
      omega
    rw [hlen] at hfit
    have hfit1 : (i + 1) * 2 ^ k < 2 ^ 31 :=
      lt_of_le_of_lt (Nat.mul_le_mul_right _ (by omega)) hfit
    obtain ⟨s1, hs1, hp1, hb1⟩ := createBlock_spec F (hms m (List.mem_cons_self ..)) hpos hfit1
      (hhole i (Nat.le_refl i))
    have hhole1 (j : ℕ) (hj : i + 1 ≤ j) : F.block s1 j = .hole := by
      rw [hb1, Function.update_of_ne (by omega)]
      exact hhole j (by omega)
    obtain ⟨s', hs', hb'⟩ := ih (fun x hx => hms x (List.mem_cons_of_mem _ hx)) hp1 hfit hhole1
    have hcur : Int32.ofNat (i * 2 ^ k) + blocksize = Int32.ofNat ((i + 1) * 2 ^ k) := by
      have hb : blocksize = Int32.ofNat (2 ^ k) := by
        apply Int32.toInt_inj.mp
        have := blocksize.toInt_lt
        rw [hbs, toInt_ofNat (by omega)]
      rw [hb, ← Int32.ofNat_add, ← Nat.succ_mul]
    refine ⟨s', ?_, ?_⟩
    · unfold createLoop
      simp only [hs1]
      rw [hcur]
      exact hs'
    · intro j
      rw [hb' j]
      rcases Nat.lt_trichotomy j i with hlt | rfl | hgt
      · rw [if_pos (by omega), if_pos hlt, hb1, Function.update_of_ne (by omega)]
      · rw [if_pos (by omega), if_neg (by omega), hb1, Function.update_self, Nat.sub_self]
        rfl
      · rw [if_neg (by omega), if_neg (by omega)]
        rw [show j - i = j - (i + 1) + 1 by omega, mapState_cons_succ]

/-- On an empty file the writer returns 0 and leaves every block as the map says. -/
theorem createFileFromMapping_spec (F : Faithful S blocksize k)
    (hbs : blocksize.toInt = ((2 ^ k : ℕ) : ℤ)) (map : List Char)
    (hmap : ∀ m ∈ map, m = 'D' ∨ m = 'H' ∨ m = 'P') (hfit : map.length * 2 ^ k < 2 ^ 31) {s : σ}
    (hpos : F.pos s = 0) (hempty : ∀ i, F.block s i = .hole) :
    ∃ s', createFileFromMapping S blocksize true map s = (.ok (), s') ∧
      F.block s' = mapState map := by
  obtain ⟨s', hs', hb'⟩ := createLoop_spec F hbs map hmap (s := s) (i := 0) (by simpa using hpos)
    (by simpa using hfit) fun j _ => hempty j
  rw [Nat.zero_mul] at hs'
  refine ⟨s', ?_, ?_⟩
  · unfold createFileFromMapping
    rw [if_pos rfl]
    exact hs'
  · funext j
    rw [hb' j, if_neg (by omega), Nat.sub_zero]

end

end Fiemap
