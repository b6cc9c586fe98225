import NativeForge.Virtual.Insn

/-!
# Building instruction slots

One builder per kind of instruction. Operation codes, sizes and register numbers are plain bytes,
as in the format.
-/

namespace NativeForge.Virtual.Build

/-- A slot with some fields left at zero. -/
def slot (code dst src : UInt8) (off : Int16) (imm : Int32) : Insn := ⟨code, dst, src, off, imm⟩

/-- 64-bit move of an immediate. -/
def move64Imm (dst : UInt8) (imm : Int32) : Insn := slot 0xB7 dst 0 0 imm

/-- 64-bit move of a register. -/
def move64Reg (dst src : UInt8) : Insn := slot 0xBF dst src 0 0

/-- 32-bit move of an immediate. -/
def move32Imm (dst : UInt8) (imm : Int32) : Insn := slot 0xB4 dst 0 0 imm

/-- 64-bit operation with an immediate. -/
def alu64Imm (op dst : UInt8) (imm : Int32) : Insn := slot (0x07 ||| op) dst 0 0 imm

/-- 64-bit operation with a register. -/
def alu64Reg (op dst src : UInt8) : Insn := slot (0x0F ||| op) dst src 0 0

/-- 32-bit operation with an immediate. -/
def alu32Imm (op dst : UInt8) (imm : Int32) : Insn := slot (0x04 ||| op) dst 0 0 imm

/-- 32-bit operation with a register. -/
def alu32Reg (op dst src : UInt8) : Insn := slot (0x0C ||| op) dst src 0 0

/-- The two slots of a 64-bit immediate load. -/
def loadWide (dst : UInt8) (imm : UInt64) : Insn × Insn :=
  (slot 0x18 dst 0 0 imm.toUInt32.toInt32, slot 0 0 0 0 (imm >>> 32).toUInt32.toInt32)

/-- Memory load. -/
def load (size dst src : UInt8) (off : Int16) : Insn := slot (0x61 ||| size) dst src off 0

/-- Fault-tolerant memory load. -/
def probeLoad (size dst src : UInt8) (off : Int16) : Insn := slot (0x21 ||| size) dst src off 0

/-- Store of a register. -/
def store (size dst src : UInt8) (off : Int16) : Insn := slot (0x63 ||| size) dst src off 0

/-- Store of an immediate. -/
def storeImm (size dst : UInt8) (off : Int16) (imm : Int32) : Insn :=
  slot (0x62 ||| size) dst 0 off imm

/-- Unconditional jump. -/
def jump (off : Int16) : Insn := slot 0x05 0 0 off 0

/-- Conditional jump against an immediate. -/
def branchImm (op dst : UInt8) (imm : Int32) (off : Int16) : Insn :=
  slot (0x05 ||| op) dst 0 off imm

/-- Conditional jump against a register. -/
def branchReg (op dst src : UInt8) (off : Int16) : Insn := slot (0x0D ||| op) dst src off 0

/-- Call of a helper. -/
def call (id : Int32) : Insn := slot 0x85 0 0 0 id

/-- Tail call; zero stands for the indirect form. -/
def tailCall (descriptor : Int32) : Insn := slot 0xF5 0 0 0 descriptor

/-- Program exit. -/
def exit : Insn := slot 0x95 0 0 0 0

end NativeForge.Virtual.Build
