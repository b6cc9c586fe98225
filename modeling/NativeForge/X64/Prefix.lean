import NativeForge.X64.Operand
import NativeForge.X64.Register

/-!
# Prefix and operand bytes

The prefix byte carries the 64-bit mark and the fourth bits of the register numbers; the operand
byte carries an addressing mode and two three-bit register fields. `plusCode` and `plusCodes` add
register codes to an arbitrary byte and crash when the sum leaves the byte; the encoder itself
only uses `operandByte`, whose fields never overlap.
-/

namespace NativeForge.X64

/-- Mark an extended register in the r/m position of a prefix byte. -/
def markBase (byte : UInt8) (rm : Reg) : UInt8 :=
  if rm.extended then byte ||| 1 else byte

/-- Mark extended registers in the r/m and the reg position of a prefix byte. -/
def markPair (byte : UInt8) (rm reg : Reg) : UInt8 :=
  let byte := markBase byte rm
  if reg.extended then byte ||| 4 else byte

/-- Add a register code to a byte, checked. -/
def plusCode {ε : Type} (byte : UInt8) (reg : Reg) : Result ε UInt8 :=
  if byte.toNat + reg.code.toNat < 256 then .ok (byte + reg.code) else crash

/-- Add two register codes to a byte, the second in the reg position, checked. -/
def plusCodes {ε : Type} (byte : UInt8) (rm reg : Reg) : Result ε UInt8 :=
  if byte.toNat + rm.code.toNat + 8 * reg.code.toNat < 256 then
    .ok (byte + rm.code + (reg.code <<< 3))
  else crash

/-- An operand byte: addressing mode, reg field, r/m field. -/
def operandByte (mode reg rm : UInt8) : UInt8 := mode ||| (reg <<< 3) ||| rm

/-- Operand byte of two registers. -/
def registerPair (rm reg : Reg) : UInt8 := operandByte 0xC0 reg.code rm.code

/-- Operand byte of one register, with an operation field in the reg position. -/
def registerField (field : UInt8) (rm : Reg) : UInt8 := operandByte 0xC0 field rm.code

/-- Operand bytes of a memory cell `[base + disp]` with a three-bit reg field. -/
def memoryField (base : Reg) (field : UInt8) (disp : SignedField) : List UInt8 :=
  match disp with
  | .byte _ => operandByte 0x40 field base.code :: disp.bytes
  | .dword _ => operandByte 0x80 field base.code :: disp.bytes

/-- Operand bytes of a memory cell `[base + disp]` and a register. -/
def memoryPair (base reg : Reg) (disp : SignedField) : List UInt8 :=
  memoryField base reg.code disp

/-- Prefix of an instruction on two operands: always present for 64-bit operands, otherwise only
when an extended register takes part. -/
def pairPrefix (size : OpSize) (rm reg : Reg) : List UInt8 :=
  if size.isWide then [markPair 0x48 rm reg]
  else if rm.extended || reg.extended then [markPair 0x40 rm reg]
  else []

/-- Prefix of an instruction on one operand. -/
def basePrefix (size : OpSize) (rm : Reg) : List UInt8 :=
  if size.isWide then [markBase 0x48 rm]
  else if rm.extended then [markBase 0x40 rm]
  else []

end NativeForge.X64
