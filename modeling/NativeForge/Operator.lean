/-!
# Operations that both instruction sets share

Access widths, operand sizes and the arithmetic, bitwise and shift operations. The virtual
machine and the native machine name the same operations, so one enumeration serves both.
-/

namespace NativeForge

/-- How many bytes a memory access moves. -/
inductive Width where
  | byte
  | half
  | word
  | double
deriving DecidableEq, Repr

/-- The access width in bytes. -/
def Width.bytes : Width → Nat
  | .byte => 1
  | .half => 2
  | .word => 4
  | .double => 8

/-- Whether an operation works on 32-bit or on 64-bit operands. -/
inductive OpSize where
  | narrow
  | wide
deriving DecidableEq, Repr

/-- The operand size is 64 bits. -/
def OpSize.isWide : OpSize → Bool
  | .narrow => false
  | .wide => true

/-- The access width of an operand of this size. -/
def OpSize.width : OpSize → Width
  | .narrow => .word
  | .wide => .double

/-- Two-operand operations with a register and an immediate form. -/
inductive AluOp where
  | add
  | sub
  | and
  | or
  | xor
deriving DecidableEq, Repr

/-- Shifts: left, right with zeros, right with the sign. -/
inductive ShiftOp where
  | left
  | right
  | arithmetic
deriving DecidableEq, Repr

/-- Atomic read-modify-write operations on a memory cell. -/
inductive LockedOp where
  /-- Combine the cell with the source register. -/
  | alu (op : AluOp)
  /-- Add the source and return the old value in it. -/
  | fetchAdd
  /-- Swap the cell and the source register. -/
  | exchange
  /-- Store the source if the cell equals the accumulator. -/
  | compareExchange
deriving DecidableEq, Repr

end NativeForge
