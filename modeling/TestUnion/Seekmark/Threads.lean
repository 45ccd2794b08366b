import TestUnion.CInt
import TestUnion.Lts
import TestUnion.Rounding
import Mathlib.Logic.Function.Basic

/-!
# seekmark: the options and the threads

* `Opt`, `Globals`, `getargs`   the options as `getopt` returns them, and what they set;
* `targetSize`      the global `size` of `main`;
* `RandR`, `datafill`   the generator, and the buffer that is filled for a write;
* `Mask`, `position`, `seekOffset`   the offset that `threadseek` passes on;
* `Target`, `seekThenReadWrite`   where the read or the write happens;
* `Step`            the iterations of all threads, in any order.

`position` starts as `size` times a random fraction, which is any number from 0 to `size` here.
-/

namespace Seekmark

/-! ## the options -/

/-- an option, with what `atoi` or `atoll` makes of its argument -/
inductive Opt where
  | f (name : List Char)
  | S (limit : Int64)
  | t (threads : Int32)
  | a (align : Int32)
  | s (seeks : Int32)
  | h
  | w (arg : List Char)
  | R
  | i (block : Int32)
  | q
  | d (delay : Int32)
  | e
  | unknown
  deriving DecidableEq

structure Globals where
  file : List Char := []
  seeks : Int32 := 5000
  numthreads : Int32 := 1
  sizelimit : Int64 := 0
  writetest : Bool := false
  block : Int32 := 512
  quiet : Bool := false
  writerandomdata : Bool := true
  delay : Int32 := 0
  endless : Bool := false
  align : Int32 := 0
  gotrequired : Bool := false

/-- the `switch`; an error exits -/
def getopt (g : Globals) : Opt → Option Globals
  | .f name => if name.length > 255 then none else some { g with file := name, gotrequired := true }
  | .S limit => if limit < 0 then none else some { g with sizelimit := limit }
  | .t threads => if threads < 1 then none else some { g with numthreads := threads }
  | .a align => if align < 1 then none else some { g with align := align }
  | .s seeks => if seeks < 1 then none else some { g with seeks := seeks }
  | .h => none
  | .w arg => if arg ≠ "destroy-data".toList then none else some { g with writetest := true }
  | .R => some { g with writerandomdata := false }
  | .i block => if block < 1 ∨ block > 1048577 then none else some { g with block := block }
  | .q => some { g with quiet := true }
  | .d delay => if delay < 1 ∨ delay > 10000 then none else some { g with delay := delay }
  | .e => some { g with endless := true }
  | .unknown => some g

def getargs (opts : List Opt) : Option Globals :=
  (opts.foldlM getopt {}).bind fun g => if g.gotrequired = true then some g else none

/-- `seekEnd` is what `lseek(fd, 0, SEEK_END)` returns. -/
def targetSize (g : Globals) (seekEnd : Int64) : Option Int64 :=
  let size := if g.sizelimit > 0 then g.sizelimit else seekEnd
  if size = -1 then none else some size

/-! ## the buffer -/

def randMax : ℕ := 2147483647

/-- `rand_r`: the number and the next state.  Not all numbers are in the upper half. -/
structure RandR where
  next : UInt32 → ℕ × UInt32
  le_randMax : ∀ state, (next state).1 ≤ randMax
  low : ∃ state, 2 * (next state).1 ≤ randMax

/-- the arithmetic of `float` -/
def fl (x : ℚ) : ℚ := (Rounding.binary 23).fl x

/-- `255 * ((float)rand_r(&rand_state)/RAND_MAX)`, as a `char` -/
def randchar (r : ℕ) : UInt8 := UInt8.ofNat ⌊fl (255 * fl (fl r / fl randMax))⌋₊

section
variable (R : RandR)

def fill : ℕ → UInt32 → List UInt8
  | 0, _ => []
  | n + 1, state => randchar (R.next state).1 :: fill n (R.next state).2

/-- The state of the generator has no value before. -/
def datafill (block : Int32) (_makerandom : Bool) (state : UInt32) : List UInt8 :=
  -- `makerandom = 1`
  let makerandom := true
  if makerandom = true then fill R block.toInt.toNat state
  else List.replicate block.toInt.toNat 234

/-! ## the threads -/

/-- The value of `~0<<align`; a shift by 32 bits or more is undefined, and nothing is known of it. -/
def Mask (align mask : Int32) : Prop := align.toInt < 32 → mask = ~~~0 <<< align

def position (g : Globals) (size draw : Int64) : Int64 :=
  if draw > size - g.block.toInt64 then size - g.block.toInt64 else draw

/-- The mask is an `int`, the position an `off_t`. -/
def seekOffset (g : Globals) (size draw : Int64) (mask : Int32) : Int64 :=
  position g size draw &&& mask.toInt64

/-- what the file or the device has of an end; a file grows -/
structure Target where
  stop : Option ℕ

/-- the position after the `lseek`, which fails for negative offsets and behind the end of a device -/
def Target.lseek (target : Target) (offset : Int64) (pos : ℕ) : ℕ :=
  if 0 ≤ offset.toInt ∧ ∀ stop ∈ target.stop, offset.toInt ≤ stop then offset.toInt.toNat else pos

/-- One call of `seekthenreadwrite`: the offset that it gets, the position at which it reads or writes,
what it gives to `write` and how many bytes are transferred. -/
structure Io where
  offset : Int64
  pos : ℕ
  buffer : Option (List UInt8)
  state : UInt32
  bytes : ℕ

def seekThenReadWrite (target : Target) (g : Globals) (offset : Int64) (pos : ℕ) (state : UInt32)
    (bytes : ℕ) : Io where
  offset := offset
  pos := target.lseek offset pos
  buffer := if g.writetest = true then some (datafill R g.block g.writerandomdata state) else none
  state := state
  bytes := bytes

/-- At most `block` bytes are transferred, and none behind the end of a device. -/
structure Io.Possible (target : Target) (g : Globals) (io : Io) : Prop where
  block : (io.bytes : ℤ) ≤ g.block.toInt
  stop : ∀ stop ∈ target.stop, 0 < io.bytes → io.pos + io.bytes ≤ stop

/-- the loop variable of `threadseek` and the position of the file -/
structure Thread where
  i : Int32
  pos : ℕ

abbrev St := ℕ → Thread

def start : St := fun _ => ⟨0, 0⟩

/-- `i+=endless^1` -/
def nextI (g : Globals) (i : Int32) : Int32 := i + ((if g.endless = true then 1 else 0) ^^^ 1)

/-- an iteration of the thread `k` -/
inductive Step (target : Target) (g : Globals) (size : Int64) : St → Io → St → Prop
  | iteration {s io} {k : ℕ} {draw mask state bytes} (lt : (k : ℤ) < g.numthreads.toInt)
    (more : (s k).i < g.seeks) (nonneg : 0 ≤ draw) (le : draw ≤ size) (shift : Mask g.align mask)
    (eq : io = seekThenReadWrite R target g (seekOffset g size draw mask) (s k).pos state bytes)
    (possible : io.Possible target g) :
    Step target g size s io (Function.update s k ⟨nextI g (s k).i, io.pos + io.bytes⟩)

end

/-! ## a generator -/

def lcg (next : UInt32) : UInt32 := next * 1103515245 + 12345

/-- 11, 10 and 10 bits of three states that follow -/
def glibcRandR : RandR where
  next state :=
    let next1 := lcg state
    let next2 := lcg next1
    let next3 := lcg next2
    let result := (next1.toNat / 65536 % 2048) <<< 10 ^^^ next2.toNat / 65536 % 1024
    (result <<< 10 ^^^ next3.toNat / 65536 % 1024, next3)
  le_randMax state := by
    have hbits (a b c : ℕ) : ((a % 2048) <<< 10 ^^^ b % 1024) <<< 10 ^^^ c % 1024 ≤ randMax := by
      have h1 : (a % 2048) <<< 10 ^^^ b % 1024 < 2 ^ 21 := by
        apply Nat.xor_lt_two_pow
        · rw [Nat.shiftLeft_eq]
          omega
        · omega
      have h2 : ((a % 2048) <<< 10 ^^^ b % 1024) <<< 10 ^^^ c % 1024 < 2 ^ 31 := by
        apply Nat.xor_lt_two_pow
        · rw [Nat.shiftLeft_eq]
          omega
        · omega
      exact Nat.le_of_lt_succ h2
    exact hbits _ _ _
  low := ⟨0, by decide⟩

end Seekmark
