import TestUnion.Fiemap.Checks

/-!
# fiemap-test: `compare_fiemap_and_map`

The map is asked for in windows of `blocks_to_map` blocks; every window makes one FIEMAP call, and
its reply is given to `check_flags` and then to one checker for each block of the window.

* `Request`, `Kernel`   one FIEMAP call, and what the run takes from outside: the outcome of
                        `malloc`, the value of `random()`, the replies, `check_weird_fs_hole`, and
                        what the uninitialised `last_data` holds;
* `checkWindow`         the inner `for` loop;
* `windowLoop`          the `do ... while` loop;
* `compareFiemapAndMap` the function; its result also lists the windows, each with the request, the
                        reply and the indices whose block was given to a checker.

`windowLoop` gets a number of rounds to go; `none` says that they were not enough.
-/

namespace Fiemap

open CInt

structure Request where
  fmStart : UInt64
  fmLength : UInt64
  fmFlags : UInt32
  fmExtentCount : UInt32
  deriving DecidableEq, Repr

def fiemapFlagSync : UInt32 := 0x1

structure Kernel where
  malloc : Bool
  random : ℕ
  lastData : ℤ
  ioctl : ℕ → Request → Option (List Extent)
  checkWeirdFsHole : UInt64 → Bool

structure Window where
  request : Request
  reply : List Extent
  checked : List ℕ

structure Outcome where
  windows : List Window
  result : Option (Except Alarm Unit)

/-- the return value of a function that stops at an error -/
def toRet : Except Alarm Unit → ℤ
  | .ok () => 0
  | .error _ => -1

def Outcome.ret (o : Outcome) : Option ℤ := o.result.map toRet

/-- `blocks_to_map` -/
def Kernel.blocksToMap (K : Kernel) (map : List Char) : ℕ := K.random % map.length + 1

/-- the loop that sets `last_data`, from index `i` on -/
def lastDataFrom (i : ℕ) : List Char → ℤ → ℤ
  | [], last => last
  | m :: ms, last => lastDataFrom (i + 1) ms (if m ≠ 'H' then i else last)

section
variable (K : Kernel) (map : List Char) (blocksize : Int32)

/-- the `switch` for the block with index `i` -/
def checkBlock (fiemap : List Extent) (i : ℕ) (m : Char) : Except Alarm Unit :=
  let logicalOffset := u64 (Int32.ofNat i * blocksize)
  let last : Bool := lastDataFrom 0 map K.lastData = i
  match m with
  | 'D' => checkData blocksize fiemap logicalOffset last false
  | 'H' => checkHole blocksize K.checkWeirdFsHole logicalOffset fiemap
  | 'P' => checkData blocksize fiemap logicalOffset last true
  | c => .error (.weirdMap c)

/-- The inner loop, from index `i` on; `ms` are the entries of the map from `i` on.  It returns the
indices it has checked and the value of `i` after the loop. -/
def checkWindow (fiemap : List Extent) : ℕ → ℕ → List Char → List ℕ × Except Alarm ℕ
  | i, _, [] => ([], .ok i)
  | i, c, m :: ms =>
    if c > K.blocksToMap map then ([], .ok i)
    else
      match checkBlock K map blocksize fiemap i m with
      | .error a => ([i], .error a)
      | .ok () =>
        let (checked, r) := checkWindow fiemap (i + 1) (c + 1) ms
        (i :: checked, r)

def windowLoop (mapLength : UInt64) : ℕ → ℕ → ℕ → UInt64 → Outcome
  | 0, _, _, _ => ⟨[], none⟩
  | rounds + 1, w, curExtent, mapStart =>
    let request : Request :=
      ⟨mapStart, mapLength, fiemapFlagSync, UInt32.ofNat (K.blocksToMap map)⟩
    match K.ioctl w request with
    | none => ⟨[], some (.error .ioctlFailed)⟩
    | some fiemap =>
      match checkFlags blocksize fiemap with
      | .error a => ⟨[⟨request, fiemap, []⟩], some (.error a)⟩
      | .ok () =>
        let (checked, r) := checkWindow K map blocksize fiemap curExtent 1 (map.drop curExtent)
        match r with
        | .error a => ⟨[⟨request, fiemap, checked⟩], some (.error a)⟩
        | .ok i =>
          if i < map.length then
            let o := windowLoop mapLength rounds (w + 1) i (u64 (Int32.ofNat i * blocksize))
            ⟨⟨request, fiemap, checked⟩ :: o.windows, o.result⟩
          else ⟨[⟨request, fiemap, checked⟩], some (.ok ())⟩

def compareFiemapAndMap : Outcome :=
  if K.malloc = true then
    windowLoop K map blocksize (u64 (Int32.ofNat (K.blocksToMap map) * blocksize)) map.length 0 0 0
  else ⟨[], some (.error .noMemory)⟩

end

end Fiemap
