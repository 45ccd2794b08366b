import TestUnion.Decimal
import TestUnion.PerlRegex
import Mathlib.Algebra.Order.Ring.Int

/-!
# btrfs-decode: the messages

* `number`, `uv`    the number that a text is, and the 64 bits that Perl computes with;
* `popcount`        the loop over the bits;
* `Field`, `sprintf`   a format with its arguments, each with the text before it;
* `Message`         the three messages, with their patterns and what is printed of them;
* `relocating`      the line about a block group;
* `decode`          the program.
-/

namespace BtrfsDecode

open PerlRegex

abbrev Word := List Char

/-! ## numbers -/

/-- a text of digits, with a `-` before it or not -/
def number (w : Word) : ℤ :=
  if w.head? = some '-' then -(Nat.ofDigitChars 10 w.tail 0 : ℤ) else (Nat.ofDigitChars 10 w 0 : ℤ)

/-- Numbers that do not fit are the largest or the smallest one that does; those below 0 have the
bits of the signed number. -/
def uvOfInt (z : ℤ) : UInt64 := UInt64.ofInt (max (-2 ^ 63) (min z (2 ^ 64 - 1)))

def uv (w : Word) : UInt64 := uvOfInt (number w)

def popcount (x : UInt64) : ℕ :=
  (List.range 64).foldl (fun cnt i => if x &&& (1 <<< UInt64.ofNat i) ≠ 0 then cnt + 1 else cnt) 0

/-! ## what is printed -/

/-- `%d` prints the bits as a signed number. -/
inductive Arg where
  | d (v : UInt64)
  | x (v : UInt64)

def Arg.text : Arg → List Char
  | .d v => decimal v.toInt64.toInt
  | .x v => Nat.toDigits 16 v.toNat

structure Field where
  label : String
  arg : Arg

def Field.text (f : Field) : List Char := f.label.toList ++ f.arg.text

/-- `tail` is what the format has after its last argument. -/
def sprintf (fields : List Field) (tail : List Char) : List Char :=
  fields.flatMap Field.text ++ tail

/-- the argument after a label, the first of this name -/
def argText (label : String) (fields : List Field) : Option (List Char) :=
  (fields.find? fun f => f.label = label).map fun f => f.arg.text

/-! ## the messages -/

inductive Message where
  | transid
  | csum
  | csumExtent
  deriving DecidableEq

def Message.all : List Message := [.transid, .csum, .csumExtent]

/-- the patterns, tried in this order -/
def Message.patterns : Message → List (List Item)
  | .transid =>
    [[.text "parent transid verify failed on ".toList, .digits, .text " wanted ".toList, .digits,
      .text " found ".toList, .digits]]
  | .csum =>
    [[.text "csum failed ino ".toList, .digits, .text " off ".toList, .digits,
      .text " csum ".toList, .digits, .text " private ".toList, .digits],
     [.text "csum failed ino ".toList, .digits, .text " off ".toList, .digits,
      .text " csum ".toList, .digits, .text " expected csum ".toList, .digits]]
  | .csumExtent =>
    [[.text "csum failed ino ".toList, .digits, .text " extent ".toList, .digits,
      .text " csum ".toList, .digits, .text " wanted ".toList, .digits,
      .text " mirror ".toList, .int]]

/-- the groups of the first pattern that matches -/
def Message.captures (m : Message) (line : List Char) : Option (List Word) :=
  m.patterns.findSome? fun p => search p line

/-- `$n` -/
def group (caps : List Word) (n : ℕ) : Word := caps.getD (n - 1) []

def transidFields (caps : List Word) : List Field :=
  let c1 := uv (group caps 1)
  let c2 := uv (group caps 2)
  let c3 := uv (group caps 3)
  [⟨"TRANSID: logical=", .d c1⟩, ⟨" wanted=", .d c2⟩, ⟨"(0x", .x c2⟩, ⟨") found=", .d c3⟩,
    ⟨"(0x", .x c3⟩, ⟨") delta=0x", .x (c2 ^^^ c3)⟩,
    ⟨" xorbits=", .d (UInt64.ofNat (popcount (c2 ^^^ c3)))⟩]

def csumFields (caps : List Word) : List Field :=
  let ino := uv (group caps 1)
  let off := uv (group caps 2)
  let csum := uv (group caps 3)
  let priv := uv (group caps 4)
  [⟨"CSUM: ino=", .d ino⟩, ⟨" offset=", .d off⟩, ⟨"(0x", .x off⟩, ⟨") csum=", .d csum⟩,
    ⟨"(0x", .x csum⟩, ⟨") priv/expected=0x", .x priv⟩, ⟨" xorbits=", .d (csum ^^^ priv)⟩,
    ⟨" popcnt=", .d (UInt64.ofNat (popcount (csum ^^^ priv)))⟩]

/-- The bits are counted in `$2` and `$3`, the extent and the checksum. -/
def csumExtentFields (caps : List Word) : List Field :=
  let ino := uv (group caps 1)
  let ext := uv (group caps 2)
  let csum := uv (group caps 3)
  let want := uv (group caps 4)
  let mirror := uv (group caps 5)
  [⟨"CSUM: ino=", .d ino⟩, ⟨" extent=", .d ext⟩, ⟨"(0x", .x ext⟩, ⟨") csum=", .d csum⟩,
    ⟨"(0x", .x csum⟩, ⟨") want=", .d want⟩, ⟨"(0x", .x want⟩, ⟨") xorbits=", .d (csum ^^^ want)⟩,
    ⟨" popcnt=", .d (UInt64.ofNat (popcount (uv (group caps 2) ^^^ uv (group caps 3))))⟩,
    ⟨" mirror=", .d mirror⟩, ⟨"(0x", .x mirror⟩]

def Message.fields : Message → List Word → List Field
  | .transid => transidFields
  | .csum => csumFields
  | .csumExtent => csumExtentFields

def Message.tail : Message → List Char
  | .transid => []
  | .csum => []
  | .csumExtent => [')']

/-- what a line gives to `output` -/
def Message.record (m : Message) (line : List Char) : Option (List Char) :=
  (m.captures line).map fun caps => sprintf (m.fields caps) m.tail

/-! ## the block groups -/

def relocatingPattern : List Item :=
  [.text "relocating block group ".toList, .digits, .text " flags ".toList, .digits]

/-- `$fl & flag` -/
def hasFlag (fl : UInt64) (bit : ℕ) : Bool := fl &&& (1 <<< UInt64.ofNat bit) ≠ 0

/-- the names of the flags, with the bits of `BTRFS_BLOCK_GROUP_*` -/
def kinds : List (ℕ × String) := [(0, "DATA "), (1, "SYS "), (2, "META ")]

def profiles : List (ℕ × String) := [(3, "RAID0 "), (4, "RAID1 "), (6, "RAID10 "), (5, "DUP ")]

def flagNames (fl : UInt64) (names : List (ℕ × String)) : List Char :=
  (names.filter fun f => hasFlag fl f.1).flatMap fun f => f.2.toList

/-- The digits of the flags are taken for hexadecimal ones. -/
def relocating (line : List Char) : List Char :=
  match search relocatingPattern line with
  | none => []
  | some caps =>
    let fl := uvOfInt (Nat.ofDigitChars 16 (group caps 2) 0)
    "relocating bg ".toList ++ group caps 1 ++ " type ".toList ++ flagNames fl kinds ++
      flagNames fl profiles ++ (if flagNames fl profiles = [] then "SINGLE ".toList else []) ++ ['\n']

/-! ## the program -/

/-- Every line is printed again, and the records come after the last one. -/
def decode (lines : List (List Char)) : List Char :=
  (lines.flatMap fun line => line ++ relocating line) ++ "OUTPUT:\n".toList ++
    (lines.flatMap fun line => (Message.all.filterMap fun m => m.record line).flatMap fun r =>
      r ++ ['\n']) ++ ['\n']

end BtrfsDecode
