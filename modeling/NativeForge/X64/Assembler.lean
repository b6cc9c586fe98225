import NativeForge.X64.Instr

/-!
# Choice of instruction forms

The functions here take an operation as a generator means it and give the shortest form of it:
one byte instead of four where an immediate or a displacement fits, the accumulator form, a
cleared register instead of a loaded zero, no instruction at all for a copy of a register to
itself. `Directive` lists every request, so that a sequence of requests is a value.
-/

namespace NativeForge.X64

/-- Load a 32-bit immediate: zero clears the register, a negative value that must be
sign-extended takes the 64-bit form, anything else is zero-extended. -/
def loadImm32 (dst : Reg) (imm : Int32) (signExtend : Bool) : Instr :=
  if signExtend && imm < 0 then .movSigned dst imm
  else if imm = 0 then .alu .xor .narrow dst dst
  else .movZero dst imm

/-- Load a 64-bit immediate, by the 32-bit form when the upper half is zero. -/
def loadImm64 (dst : Reg) (imm : UInt64) : Instr :=
  if fitsUInt32 imm.toNat then loadImm32 dst imm.toUInt32.toInt32 false else .movWide dst imm

/-- Copy a 64-bit register unless source and destination are the same. -/
def copy (dst src : Reg) : List Instr :=
  if dst = src then [] else [.mov .wide dst src]

/-- Reverse the low bytes of a register at a width; the 16-bit form clears the rest. -/
def reverseBytes (dst : Reg) : Width → List Instr
  | .byte => []
  | .half => [.rotateHalf dst, .zeroExtendHalf dst]
  | .word => [.swapBytes .narrow dst]
  | .double => [.swapBytes .wide dst]

/-- Combine a register and an immediate: a one-byte immediate, else the accumulator form, else
four bytes. -/
def aluWithImm (op : AluOp) (size : OpSize) (dst : Reg) (imm : Int32) : Instr :=
  if fitsInt8 imm.toInt then .aluImm op size dst (.byte imm.toInt8)
  else if dst = .rax then .aluAccumulator op size imm
  else .aluImm op size dst (.dword imm)

/-- Shift by an immediate count; a count of one has a form of its own. -/
def shiftBy (op : ShiftOp) (size : OpSize) (dst : Reg) (count : UInt8) : Instr :=
  if count = 1 then .shiftOne op size dst else .shiftImm op size dst count

/-- As few instructions as possible that do nothing in `count` bytes. -/
def nops (count : Nat) : List Instr :=
  List.replicate (count / 8) (.nop 7) ++
    (if h : count % 8 = 0 then []
     else [.nop ⟨count % 8 - 1, by omega⟩])

/-- One request to the assembler. -/
inductive Directive where
  | loadImm32 (dst : Reg) (imm : Int32) (signExtend : Bool)
  | loadImm64 (dst : Reg) (imm : UInt64)
  | mov (dst src : Reg) (size : OpSize)
  | copy (dst src : Reg)
  | zeroExtendHalf (dst : Reg)
  | reverseBytes (dst : Reg) (width : Width)
  | load (width : Width) (dst base : Reg) (off : Int32)
  | loadSigned (width : Width) (dst base : Reg) (off : Int32)
  | store (width : Width) (base src : Reg) (off : Int32)
  | storeImm (width : Width) (base : Reg) (off imm : Int32)
  | lea (dst base : Reg) (off : Int32)
  | locked (op : LockedOp) (base src : Reg) (off : Int32) (size : OpSize)
  | alu (op : AluOp) (dst src : Reg) (size : OpSize)
  | aluImm (op : AluOp) (dst : Reg) (imm : Int32) (size : OpSize)
  | neg (dst : Reg) (size : OpSize)
  | shiftImm (op : ShiftOp) (dst : Reg) (count : UInt8) (size : OpSize)
  | shiftCount (op : ShiftOp) (dst : Reg) (size : OpSize)
  | mul (src : Reg) (size : OpSize)
  | div (src : Reg) (size : OpSize)
  | cmp (dst src : Reg) (size : OpSize)
  | cmpImm (dst : Reg) (imm : Int32) (size : OpSize)
  | test (dst src : Reg) (size : OpSize)
  | testImm (dst : Reg) (imm : Int32) (size : OpSize)
  | push (reg : Reg)
  | pop (reg : Reg)
  | jmpReg (reg : Reg)
  | leave
  | ret
  | jmpShort (rel : Int8)
  | jmpNear (rel : Int32)
  | call (rel : Int32)
  | jccShort (cond : Cond) (rel : Int8)
  | jccNear (cond : Cond) (rel : Int32)
  | nops (count : Nat)
deriving DecidableEq, Repr

/-- The instructions of a request. -/
def Directive.instrs : Directive → List Instr
  | .loadImm32 dst imm signExtend => [X64.loadImm32 dst imm signExtend]
  | .loadImm64 dst imm => [X64.loadImm64 dst imm]
  | .mov dst src size => [.mov size dst src]
  | .copy dst src => X64.copy dst src
  | .zeroExtendHalf dst => [.zeroExtendHalf dst]
  | .reverseBytes dst width => X64.reverseBytes dst width
  | .load width dst base off => [.load width dst base (.shortest off)]
  | .loadSigned width dst base off => [.loadSigned width dst base (.shortest off)]
  | .store width base src off => [.store width base src (.shortest off)]
  | .storeImm width base off imm => [.storeImm width base (.shortest off) imm]
  | .lea dst base off => [.lea dst base (.shortest off)]
  | .locked op base src off size => [.locked op size base src (.shortest off)]
  | .alu op dst src size => [.alu op size dst src]
  | .aluImm op dst imm size => [aluWithImm op size dst imm]
  | .neg dst size => [.neg size dst]
  | .shiftImm op dst count size => [shiftBy op size dst count]
  | .shiftCount op dst size => [.shiftCount op size dst]
  | .mul src size => [.mul size src]
  | .div src size => [.div size src]
  | .cmp dst src size => [.cmp size dst src]
  | .cmpImm dst imm size => [.cmpImm size dst (.shortest imm)]
  | .test dst src size => [.test size dst src]
  | .testImm dst imm size => [.testImm size dst imm]
  | .push reg => [.push reg]
  | .pop reg => [.pop reg]
  | .jmpReg reg => [.jmpReg reg]
  | .leave => [.leave]
  | .ret => [.ret]
  | .jmpShort rel => [.jmp (.byte rel)]
  | .jmpNear rel => [.jmp (.dword rel)]
  | .call rel => [.call rel]
  | .jccShort cond rel => [.jcc cond (.byte rel)]
  | .jccNear cond rel => [.jcc cond (.dword rel)]
  | .nops count => X64.nops count

end NativeForge.X64
