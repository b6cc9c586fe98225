import NativeForge.X64.Assembler
import NativeForge.Virtual.Operation

/-!
# Arithmetic in native instructions

Most operations are one native instruction. Multiplication, division and shifts by a register
are short sequences, because the processor fixes the registers they work on; the sequences save
and restore those registers around the operation.
-/

namespace NativeForge.Lowering

open X64 Virtual

/-- Combine a register with an operand. -/
def alu (op : AluOp) (size : OpSize) (dst : VReg) : Operand → List Instr
  | .reg src => [.alu op size dst.native src.native]
  | .imm v => [aluWithImm op size dst.native v]

/-- Move an operand to a register; an immediate is sign-extended in the 64-bit form. -/
def move (size : OpSize) (dst : VReg) : Operand → List Instr
  | .reg src => [.mov size dst.native src.native]
  | .imm v => [loadImm32 dst.native v size.isWide]

/-- Shift by a register. The count has to be in `rcx`: a destination there is shifted in the
scratch register, and `rcx` is saved unless it already holds the count. -/
def shiftReg (op : ShiftOp) (size : OpSize) (dst src : VReg) : List Instr :=
  let target := if dst = .r4 then VReg.aux.native else dst.native
  (if dst = .r4 then copy VReg.aux.native .rcx else []) ++
  (if src = .r4 then [] else .push .rcx :: copy .rcx src.native) ++
  [.shiftCount op size target] ++
  (if src = .r4 then [] else [.pop .rcx]) ++
  (if dst = .r4 then copy .rcx VReg.aux.native else [])

/-- Shift by an operand; of an immediate count the low byte is kept. -/
def shift (op : ShiftOp) (size : OpSize) (dst : VReg) : Operand → List Instr
  | .reg src => shiftReg op size dst src
  | .imm v => [shiftBy op size dst.native v.toUInt32.toUInt8]

/-- Multiply a register. The product is in `rdx:rax`, so both are saved unless they are the
destination; the multiplicand goes through the scratch register. -/
def multiply (size : OpSize) (dst : VReg) (src : Operand) : List Instr :=
  (if dst = .r0 then [] else [.push .rax]) ++
  (if dst = .r3 then [] else [.push .rdx]) ++
  copy VReg.aux.native dst.native ++
  (match src with
    | .reg src => [.mov size .rax src.native]
    | .imm v => [loadImm32 .rax v size.isWide]) ++
  [.mul size VReg.aux.native] ++
  (if dst = .r3 then [] else [.pop .rdx]) ++
  (if dst = .r0 then [] else copy dst.native .rax ++ [.pop .rax])

/-- Divide a register. The dividend is `rdx:rax`; both are saved, and the result leaves through the
scratch register. -/
def divide (part : DivisionPart) (size : OpSize) (dst : VReg) (src : Operand) : List Instr :=
  [.push .rax, .push .rdx] ++
  (match src with
    | .reg src => copy VReg.aux.native src.native
    | .imm v => [loadImm32 VReg.aux.native v true]) ++
  copy .rax dst.native ++
  [.alu .xor .narrow .rdx .rdx, .div size VReg.aux.native,
    .mov .wide VReg.aux.native (match part with | .quotient => .rax | .remainder => .rdx),
    .pop .rdx, .pop .rax] ++
  copy dst.native VReg.aux.native

/-- Convert the low bytes of a register to a byte order. The machine is little-endian, so the
little order only clears the upper bytes. -/
def convert (order : ByteOrder) (width : Width) (dst : VReg) : List Instr :=
  match order, width with
  | .big, width => reverseBytes dst.native width
  | .little, .half => [.zeroExtendHalf dst.native]
  | .little, .word => [.mov .narrow dst.native dst.native]
  | .little, _ => []

end NativeForge.Lowering
