import TestUnion.Fiemap.Compare
import TestUnion.Fiemap.Create

/-!
# fiemap-test: `main`, with the values that it computes

* `Val`             a value of `cur_offset`, of the modulus in `random() % blocks`, of `map_length`,
                    `map_start` or `logical_offset`, with the index or the number it is made from;
* `createVals`, `checkVals`, `windowVals`, `compareVals`   the functions of `Create` and `Compare` that
                    also list the values; `createVals_snd`, `compareVals_snd` forget them again;
* `generateFileMapping`   the random map;
* `Outside`         what `main` takes from outside, round by round;
* `testMap`, `mainLoop`, `mainVals`   a round of `main` with a map, the `do ... while` loop, and `main`
                    from the options `-m` and `-r` on.

A round ends with `none` where the program exits.  `FIGETBSZ` reports a positive block size.
-/

namespace Fiemap

open CInt

inductive Val where
  | curOffset (i : ℕ) (v : Int32)
  | modulus (v : Int32)
  | mapLength (blocksToMap : ℕ) (v : UInt64)
  | mapStart (i : ℕ) (v : UInt64)
  | logicalOffset (i : ℕ) (v : UInt64)
  deriving DecidableEq, Repr

section
variable {σ : Type} (S : Calls σ) (blocksize : Int32)

/-- `createLoop` from index `i` on -/
def createVals : List Char → ℕ → Int32 → σ → List Val × (Except CreateError Unit × σ)
  | [], i, curOffset, s => ([.curOffset i curOffset], (.ok (), s))
  | m :: ms, i, curOffset, s =>
    match createBlock S blocksize m curOffset s with
    | (.error e, s) => ([.curOffset i curOffset], (.error e, s))
    | (.ok (), s) =>
      let (vals, r) := createVals ms (i + 1) (curOffset + blocksize) s
      (.curOffset i curOffset :: vals, r)

theorem createVals_snd (ms : List Char) (i : ℕ) (curOffset : Int32) (s : σ) :
    (createVals S blocksize ms i curOffset s).2 = createLoop S blocksize ms curOffset s := by
  induction ms generalizing i curOffset s with
  | nil => rfl
  | cons m ms ih =>
    unfold createVals createLoop
    rcases createBlock S blocksize m curOffset s with ⟨_ | _, s'⟩
    · rfl
    · exact ih ..

end

section
variable (K : Kernel) (map : List Char) (blocksize : Int32)

/-- `checkWindow`; `logical_offset` is computed before the test that ends the window. -/
def checkVals (fiemap : List Extent) : ℕ → ℕ → List Char → List Val × (List ℕ × Except Alarm ℕ)
  | i, _, [] => ([], ([], .ok i))
  | i, c, m :: ms =>
    let logicalOffset := u64 (Int32.ofNat i * blocksize)
    if c > K.blocksToMap map then ([.logicalOffset i logicalOffset], ([], .ok i))
    else
      match checkBlock K map blocksize fiemap i m with
      | .error a => ([.logicalOffset i logicalOffset], ([i], .error a))
      | .ok () =>
        let (vals, (checked, r)) := checkVals fiemap (i + 1) (c + 1) ms
        (.logicalOffset i logicalOffset :: vals, (i :: checked, r))

theorem checkVals_snd (fiemap : List Extent) (i c : ℕ) (ms : List Char) :
    (checkVals K map blocksize fiemap i c ms).2 = checkWindow K map blocksize fiemap i c ms := by
  induction ms generalizing i c with
  | nil => rfl
  | cons m ms ih =>
    unfold checkVals checkWindow
    split
    · rfl
    · rcases checkBlock K map blocksize fiemap i m with _ | _
      · rfl
      · rw [← ih]

def windowVals (mapLength : UInt64) : ℕ → ℕ → ℕ → UInt64 → List Val × Outcome
  | 0, _, _, _ => ([], ⟨[], none⟩)
  | rounds + 1, w, curExtent, mapStart =>
    let request : Request :=
      ⟨mapStart, mapLength, fiemapFlagSync, UInt32.ofNat (K.blocksToMap map)⟩
    match K.ioctl w request with
    | none => ([], ⟨[], some (.error .ioctlFailed)⟩)
    | some fiemap =>
      match checkFlags blocksize fiemap with
      | .error a => ([], ⟨[⟨request, fiemap, []⟩], some (.error a)⟩)
      | .ok () =>
        let (vals, (checked, r)) := checkVals K map blocksize fiemap curExtent 1 (map.drop curExtent)
        match r with
        | .error a => (vals, ⟨[⟨request, fiemap, checked⟩], some (.error a)⟩)
        | .ok i =>
          let mapStart := u64 (Int32.ofNat i * blocksize)
          if i < map.length then
            let (vals', o) := windowVals mapLength rounds (w + 1) i mapStart
            (vals ++ .mapStart i mapStart :: vals', ⟨⟨request, fiemap, checked⟩ :: o.windows, o.result⟩)
          else (vals ++ [.mapStart i mapStart], ⟨[⟨request, fiemap, checked⟩], some (.ok ())⟩)

theorem windowVals_snd (mapLength : UInt64) (rounds w curExtent : ℕ) (mapStart : UInt64) :
    (windowVals K map blocksize mapLength rounds w curExtent mapStart).2 =
      windowLoop K map blocksize mapLength rounds w curExtent mapStart := by
  induction rounds generalizing w curExtent mapStart with
  | zero => rfl
  | succ rounds ih =>
    unfold windowVals windowLoop
    dsimp only
    cases K.ioctl w ⟨mapStart, mapLength, fiemapFlagSync, UInt32.ofNat (K.blocksToMap map)⟩ with
    | none => rfl
    | some fiemap =>
      dsimp only
      cases checkFlags blocksize fiemap with
      | error a => rfl
      | ok u =>
        dsimp only
        rw [← checkVals_snd]
        rcases checkVals K map blocksize fiemap curExtent 1 (map.drop curExtent) with
          ⟨vals, checked, _ | i⟩
        · rfl
        · dsimp only
          split
          · rw [← ih]
          · rfl

def compareVals : List Val × Outcome :=
  if K.malloc = true then
    let mapLength := u64 (Int32.ofNat (K.blocksToMap map) * blocksize)
    let (vals, o) := windowVals K map blocksize mapLength map.length 0 0 0
    (.mapStart 0 0 :: .mapLength (K.blocksToMap map) mapLength :: vals, o)
  else ([], ⟨[], some (.error .noMemory)⟩)

theorem compareVals_snd :
    (compareVals K map blocksize).2 = compareFiemapAndMap K map blocksize := by
  unfold compareVals compareFiemapAndMap
  split
  · exact windowVals_snd ..
  · rfl

end

/-! ## main -/

/-- the entry for the value `num` of `random() % num_types` -/
def mapEntry : ℕ → Char
  | 0 => 'D'
  | 1 => 'H'
  | _ => 'P'

def generateFileMapping (random : ℕ → ℕ) (blocks : ℕ) (prealloc : Bool) : List Char :=
  (List.range blocks).map fun i => mapEntry (random i % if prealloc = true then 3 else 2)

/-- `rewind` is the `ftruncate` and the `lseek` at the end of a round. -/
structure Outside (σ : Type) where
  calls : Calls σ
  randomBlocks : ℕ → ℕ
  mallocMap : ℕ → Bool
  randomTypes : ℕ → ℕ → ℕ
  mallocBuf : ℕ → Bool
  kernel : ℕ → Kernel
  rewind : ℕ → σ → Option σ

/-- `maxblocks` -/
def maxBlocks (blocksize : Int32) : ℕ := 2 * 1024 * 1024 / blocksize.toInt.toNat

section
variable {σ : Type} (O : Outside σ) (blocksize : Int32) (prealloc : Bool)

/-- One round with a map; `blocks` is an `int`, and the loops look at as many entries. -/
def testMap (round : ℕ) (map : List Char) (blocks : Int32) (s : σ) : List Val × Option σ :=
  let entries := map.take blocks.toInt.toNat
  if O.mallocBuf round = true then
    match createVals O.calls blocksize entries 0 0 s with
    | (vals, (.error _, _)) => (vals, none)
    | (vals, (.ok (), s)) =>
      -- a division by 0 ends the program, and no string is so long that `blocks` is negative
      if blocks.toInt ≤ 0 then (vals ++ [.modulus blocks], none)
      else
        let (vals', o) := compareVals (O.kernel round) entries blocksize
        (vals ++ .modulus blocks :: vals',
          match o.result with
          | some (.ok ()) => O.rewind round s
          | _ => none)
  else ([], none)

/-- The loop, for at most `fuel` rounds. -/
def mainLoop : ℕ → ℕ → Option (List Char) → Int32 → σ → List Val
  | 0, _, _, _, _ => []
  | fuel + 1, round, map, runs, s =>
    let again (s : σ) (runs : Int32) : List Val :=
      if runs ≠ 0 then mainLoop fuel (round + 1) none runs s else []
    let test (map : List Char) (blocks : Int32) : List Val :=
      let (vals, s) := testMap O blocksize round map blocks s
      vals ++
        match s with
        | none => []
        | some s => again s (if runs ≠ 0 then runs - 1 else runs)
    match map with
    | some map => test map (Int32.ofNat map.length)
    | none =>
      if maxBlocks blocksize = 0 then []
      else
        let blocks := O.randomBlocks round % maxBlocks blocksize
        if blocks = 0 then again s runs
        else if O.mallocMap round = true then
          test (generateFileMapping (O.randomTypes round) blocks prealloc) (Int32.ofNat blocks)
        else []

/-- `map` and `runs` are the arguments of `-m` and of `-r`, which is -1 when it is not given. -/
def mainVals (fuel : ℕ) (map : Option (List Char)) (runs : Int32) (s : σ) : List Val :=
  if runs ≠ -1 ∧ map.isSome = true then []
  else mainLoop O blocksize prealloc fuel 0 map (if map.isSome = true then 0 else runs) s

end

end Fiemap
