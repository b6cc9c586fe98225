import NativeForge.X64.Assembler

/-!
# Code buffers

Machine code grows at the end of a byte buffer. Fields that were emitted before can be
overwritten, the tail can be dropped, and the end can be aligned relative to the address the
buffer will be loaded at. Overwriting outside the buffer and alignment arithmetic beyond 64 bits
crash.
-/

namespace NativeForge

/-- A growing piece of machine code. -/
structure CodeBuffer where
  /-- The bytes emitted so far. -/
  bytes : Array UInt8 := #[]

namespace CodeBuffer

/-- The number of bytes emitted. -/
def size (buf : CodeBuffer) : Nat := buf.bytes.size

/-- Nothing was emitted. -/
def isEmpty (buf : CodeBuffer) : Bool := buf.bytes.isEmpty

/-- Append bytes. -/
def emit (buf : CodeBuffer) (bytes : List UInt8) : CodeBuffer := ⟨buf.bytes ++ bytes⟩

/-- Append the low `width` bytes of a 32-bit value. -/
def emitSized {ε : Type} (buf : CodeBuffer) (value : UInt32) (width : Nat) :
    Result ε CodeBuffer :=
  if width ≤ 4 then .ok (buf.emit ((Bytes.ofUInt32 value).take width)) else crash

/-- Append the instructions of an assembler request. -/
def assemble (buf : CodeBuffer) (directive : X64.Directive) : CodeBuffer :=
  buf.emit (X64.encodeAll directive.instrs)

/-- Overwrite bytes from `start` on. -/
def overwrite (bytes : Array UInt8) (start : Nat) : List UInt8 → Array UInt8
  | [] => bytes
  | b :: rest => overwrite (bytes.setIfInBounds start b) (start + 1) rest

/-- Overwrite one byte. -/
def patchByte {ε : Type} (buf : CodeBuffer) (start : Nat) (value : UInt8) :
    Result ε CodeBuffer :=
  if start < buf.size then .ok ⟨overwrite buf.bytes start [value]⟩ else crash

/-- Overwrite a 32-bit field. -/
def patchWord {ε : Type} (buf : CodeBuffer) (start : Nat) (value : UInt32) :
    Result ε CodeBuffer :=
  if start + 4 ≤ buf.size then .ok ⟨overwrite buf.bytes start (Bytes.ofUInt32 value)⟩ else crash

/-- Drop everything after the first `size` bytes. -/
def truncate (buf : CodeBuffer) (size : Nat) : CodeBuffer := ⟨buf.bytes.take size⟩

/-- How many bytes bring `current` to an alignment: the bits of `alignment - 1` are cleared in
`current + alignment - 1`. For a power of two that is the next multiple. -/
def alignmentGap {ε : Type} (current alignment : Nat) : Result ε Nat := do
  let raised ← word64 (current + alignment)
  if alignment = 0 then crash
  else
    let aligned := (UInt64.ofNat (raised - 1)) &&& ~~~ (UInt64.ofNat (alignment - 1))
    if aligned.toNat < current then crash else .ok (aligned.toNat - current)

/-- Pad with `fill` up to an alignment, measured from the address `base`. -/
def align {ε : Type} (buf : CodeBuffer) (base : Address) (alignment : Nat) (fill : UInt8) :
    Result ε CodeBuffer := do
  let current ← word64 (base.toNat + buf.size)
  let gap ← alignmentGap current alignment
  .ok (buf.emit (List.replicate gap fill))

end CodeBuffer

end NativeForge
