import NativeForge.CodeBuffer
import NativeForge.Error

/-!
# Images

An image is a block of memory at an address. It can be filled and written until it is made
executable; from then on only patches of single sites change it. The system may refuse to make a
block executable: whether it does is a field of the block, so that a statement about every block
covers both answers. Where blocks are mapped and when they are unmapped is not described.
-/

namespace NativeForge

/-- A block of image memory. -/
structure Image where
  /-- Address of the first byte. -/
  base : Address
  /-- The bytes of the block. -/
  bytes : Array UInt8
  /-- The block is executable and refuses writes. -/
  executable : Bool := false
  /-- The system lets the block be made executable. -/
  lockable : Bool := true
deriving DecidableEq, Repr

/-- Bytes of a memory page. -/
def pageSize : Nat := 4096

/-- The largest block that can be had. -/
def addressSpaceSize : Nat := 0x8000_0000_0000

/-- The address from which on a place for a block is looked for. -/
def placementStart : Nat := 0x5555A0000000

/-- The size of a block that is asked for with `size` bytes: whole pages. After a place that is
refused, the search looks at the end of a second block behind it, which has to be a 64-bit word
also when no place is found. -/
def blockSize (size : Nat) : Result MemoryError Nat := do
  if size = 0 then report .invalidSize
  else
    let rounded ← word64 (roundUp size pageSize)
    let _ ← word64 (placementStart + rounded + rounded)
    if addressSpaceSize < rounded then report .allocationFailed else return rounded

namespace Image

/-- A writable block of zeros. -/
def blank (base : Address) (size : Nat) : Image := { base, bytes := Array.replicate size 0 }

/-- The number of bytes of the block. -/
def size (image : Image) : Nat := image.bytes.size

/-- Fill the whole block. -/
def fill (image : Image) (byte : UInt8) : Result MemoryError Image :=
  if image.executable then report .protectionFailed
  else .ok { image with bytes := Array.replicate image.size byte }

/-- Put bytes at an offset, whatever the protection says. -/
def poke (image : Image) (offset : Nat) (data : List UInt8) : Image :=
  { image with bytes := CodeBuffer.overwrite image.bytes offset data }

/-- Write bytes at an offset. -/
def write (image : Image) (offset : Nat) (data : List UInt8) : Result MemoryError Image :=
  if image.executable then report .protectionFailed
  else do
    let stop ← word64 (offset + data.length)
    if image.size < stop then report .invalidSize
    else return image.poke offset data

/-- The bytes of a range, which has to lie in the block. -/
def read {ε : Type} (image : Image) (offset count : Nat) : Result ε (List UInt8) :=
  if offset + count ≤ image.size then .ok (image.bytes.extract offset (offset + count)).toList
  else crash

/-- Make the block executable and refuse further writes. -/
def makeExecutable (image : Image) : Result MemoryError Image :=
  if image.executable then .ok image
  else if image.lockable then .ok { image with executable := true }
  else report .protectionFailed

/-- The address lies in the block. -/
def contains (image : Image) (a : Address) : Bool :=
  decide (image.base.toNat ≤ a.toNat ∧ a.toNat < image.base.toNat + image.size)

end Image

/-- A memory failure as a cause of failure. -/
def ofMemory {α : Type} (r : Result MemoryError α) : Result Error α := r.mapCause .outOfMemory

end NativeForge
