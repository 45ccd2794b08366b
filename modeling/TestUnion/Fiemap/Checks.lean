import TestUnion.CInt

/-!
# fiemap-test: the three checkers of one FIEMAP reply

* `Extent`      `struct fiemap_extent`; a reply is the list of the `fm_mapped_extents` first extents
                of `fm_extents`;
* `Alarm`       the errors the checkers print, with the block number each one prints;
* `checkFlags`, `checkData`, `checkHole`   the functions of these names.  `.ok ()` is the return
                value 0, `.error a` the return value -1 after printing `a`;
* `checkWeirdFsHole` is a parameter of `checkHole`: whether the call for a block returns 0.
-/

namespace Fiemap

open CInt

/-- `struct fiemap_extent` -/
structure Extent where
  feLogical : UInt64
  fePhysical : UInt64
  feLength : UInt64
  feFlags : UInt32
  deriving DecidableEq, Repr

def extentLast : UInt32 := 0x1
def extentUnknown : UInt32 := 0x2
def extentDelalloc : UInt32 := 0x4
def extentEncoded : UInt32 := 0x8
def extentDataEncrypted : UInt32 := 0x80
def extentNotAligned : UInt32 := 0x100
def extentDataInline : UInt32 := 0x200
def extentDataTail : UInt32 := 0x400
def extentUnwritten : UInt32 := 0x800

/-- `fe_flags & flag` is not zero -/
def Extent.has (e : Extent) (flag : UInt32) : Prop := e.feFlags &&& flag ≠ 0

instance (e : Extent) (flag : UInt32) : Decidable (e.has flag) := by
  unfold Extent.has
  infer_instance

/-- `fe_logical + fe_length`, in 64 bits -/
def Extent.end (e : Extent) : UInt64 := e.feLogical + e.feLength

inductive Alarm where
  | noMemory
  | ioctlFailed
  | notAlignedUnset (block : UInt64)
  | encryptedNotEncoded (block : UInt64)
  | notAlignedSet (block : UInt64)
  | lastNotFinal (block : UInt64)
  | delallocNotUnknown (block : UInt64)
  | inlineNotUnaligned (block : UInt64)
  | tailNotUnaligned (block : UInt64)
  | preallocWritten (block : UInt64)
  | noExtent (block : UInt64)
  | lastUnset (block : UInt64)
  | holeAllocated (block : UInt64)
  | weirdMap (value : Char)
  deriving DecidableEq, Repr

/-! ## check_flags -/

/-- the tests on one extent; `more` says that extents are left after it -/
def checkFlagsOf (blocksize : Int32) (extent : Extent) (more : Bool) : Except Alarm Unit :=
  let alignedOffset := extent.fePhysical &&& ~~~(u64 blocksize - 1)
  let alignedLength := extent.feLength &&& ~~~(u64 blocksize - 1)
  let block := extent.feLogical / u64 blocksize
  if (alignedOffset ≠ extent.fePhysical ∨ alignedLength ≠ extent.feLength) ∧
      ¬ extent.has extentNotAligned then .error (.notAlignedUnset block)
  else if extent.has extentDataEncrypted ∧ ¬ extent.has extentEncoded then
    .error (.encryptedNotEncoded block)
  else if extent.has extentNotAligned ∧ alignedOffset = extent.fePhysical ∧
      alignedLength = extent.feLength then .error (.notAlignedSet block)
  else if extent.has extentLast ∧ more = true then .error (.lastNotFinal block)
  else if extent.has extentDelalloc ∧ ¬ extent.has extentUnknown then
    .error (.delallocNotUnknown block)
  else if extent.has extentDataInline ∧ ¬ extent.has extentNotAligned then
    .error (.inlineNotUnaligned block)
  else if extent.has extentDataTail ∧ ¬ extent.has extentNotAligned then
    .error (.tailNotUnaligned block)
  else .ok ()

def checkFlags (blocksize : Int32) : List Extent → Except Alarm Unit
  | [] => .ok ()
  | extent :: rest =>
    match checkFlagsOf blocksize extent (!rest.isEmpty) with
    | .error a => .error a
    | .ok () => checkFlags blocksize rest

/-! ## check_data -/

/-- The scan over the extents; its result is the extent at which it stops with `found = 1`.  An
extent that ends inside the block moves `logical_offset` one byte past that end. -/
def checkDataScan (blocksize : Int32) (prealloc : Bool) :
    List Extent → UInt64 → Except Alarm (Option Extent)
  | [], _ => .ok none
  | extent :: rest, logicalOffset =>
    if logicalOffset > extent.end then checkDataScan blocksize prealloc rest logicalOffset
    else if logicalOffset + u64 blocksize < extent.feLogical then .ok none
    else if logicalOffset ≥ extent.feLogical ∧ logicalOffset < extent.end then
      -- the source tests `!extent->fe_flags & FIEMAP_EXTENT_UNWRITTEN`: the negation comes first
      if prealloc = true ∧ cNot extent.feFlags &&& extentUnwritten ≠ 0 then
        .error (.preallocWritten (extent.feLogical / u64 blocksize))
      else if logicalOffset + u64 blocksize > extent.end then
        checkDataScan blocksize prealloc rest (extent.end + 1)
      else .ok (some extent)
    else checkDataScan blocksize prealloc rest logicalOffset

def checkData (blocksize : Int32) (fiemap : List Extent) (logicalOffset : UInt64)
    (last prealloc : Bool) : Except Alarm Unit :=
  match checkDataScan blocksize prealloc fiemap logicalOffset with
  | .error a => .error a
  | .ok none => .error (.noExtent (logicalOffset / u64 blocksize))
  | .ok (some extent) =>
    if last = true ∧ ¬ extent.has extentLast then
      .error (.lastUnset (logicalOffset / u64 blocksize))
    else .ok ()

/-! ## check_hole -/

def checkHole (blocksize : Int32) (checkWeirdFsHole : UInt64 → Bool) (logicalOffset : UInt64) :
    List Extent → Except Alarm Unit
  | [] => .ok ()
  | extent :: rest =>
    if logicalOffset > extent.end then checkHole blocksize checkWeirdFsHole logicalOffset rest
    else if logicalOffset + u64 blocksize < extent.feLogical then .ok ()
    else if logicalOffset ≥ extent.feLogical ∧ logicalOffset < extent.end then
      if checkWeirdFsHole logicalOffset = true then .ok ()
      else .error (.holeAllocated (extent.feLogical / u64 blocksize))
    else checkHole blocksize checkWeirdFsHole logicalOffset rest

end Fiemap
