import NativeForge.X64.Prefix

/-!
# Native instructions and their encoding

One constructor per instruction form that the generators use. Fields that the instruction set
stores in one or four bytes are `SignedField`s, so that the form is part of the instruction and
`Instr.encode` makes no choice of its own: the byte string is read off the constructor.
-/

namespace NativeForge.X64

/-- A native instruction in one of the forms the generators use. -/
inductive Instr where
  /-- Load a sign-extended 32-bit immediate into a 64-bit register. -/
  | movSigned (dst : Reg) (imm : Int32)
  /-- Load a 32-bit immediate; the upper half becomes zero. -/
  | movZero (dst : Reg) (imm : Int32)
  /-- Load a 64-bit immediate. -/
  | movWide (dst : Reg) (imm : UInt64)
  /-- Copy a register; the 32-bit form clears the upper half. -/
  | mov (size : OpSize) (dst src : Reg)
  /-- Keep the low 16 bits of a register. -/
  | zeroExtendHalf (dst : Reg)
  /-- Rotate the low 16 bits left by eight. -/
  | rotateHalf (dst : Reg)
  /-- Reverse the bytes of a register. -/
  | swapBytes (size : OpSize) (dst : Reg)
  /-- Load from `[base + disp]`, zero-extended. -/
  | load (width : Width) (dst base : Reg) (disp : SignedField)
  /-- Load from `[base + disp]`, sign-extended. -/
  | loadSigned (width : Width) (dst base : Reg) (disp : SignedField)
  /-- Load 64 bits from `[base + 8 * index + disp]`. -/
  | loadIndexed (dst base index : Reg) (disp : Int32)
  /-- Store a register to `[base + disp]`. -/
  | store (width : Width) (base src : Reg) (disp : SignedField)
  /-- Store an immediate to `[base + disp]`, sign-extended to 64 bits in the widest form. -/
  | storeImm (width : Width) (base : Reg) (disp : SignedField) (imm : Int32)
  /-- Put the address `base + disp` into a register. -/
  | lea (dst base : Reg) (disp : SignedField)
  /-- Atomic read-modify-write of `[base + disp]`. -/
  | locked (op : LockedOp) (size : OpSize) (base src : Reg) (disp : SignedField)
  /-- Combine two registers. -/
  | alu (op : AluOp) (size : OpSize) (dst src : Reg)
  /-- Combine a register and an immediate. -/
  | aluImm (op : AluOp) (size : OpSize) (dst : Reg) (imm : SignedField)
  /-- Combine the accumulator and a four-byte immediate. -/
  | aluAccumulator (op : AluOp) (size : OpSize) (imm : Int32)
  /-- Two's complement negation. -/
  | neg (size : OpSize) (dst : Reg)
  /-- Shift by one. -/
  | shiftOne (op : ShiftOp) (size : OpSize) (dst : Reg)
  /-- Shift by an immediate count. -/
  | shiftImm (op : ShiftOp) (size : OpSize) (dst : Reg) (count : UInt8)
  /-- Shift by the count in the low byte of `rcx`. -/
  | shiftCount (op : ShiftOp) (size : OpSize) (dst : Reg)
  /-- Unsigned product of the accumulator and a register into `rdx:rax`. -/
  | mul (size : OpSize) (src : Reg)
  /-- Unsigned quotient of `rdx:rax` into `rax`, remainder into `rdx`. -/
  | div (size : OpSize) (src : Reg)
  /-- Compare two registers. -/
  | cmp (size : OpSize) (dst src : Reg)
  /-- Compare a register and an immediate. -/
  | cmpImm (size : OpSize) (dst : Reg) (imm : SignedField)
  /-- Compare the cell `[base + disp]` and a register. -/
  | cmpMem (size : OpSize) (base src : Reg) (disp : SignedField)
  /-- Compare the cell `[base + disp]` and a one-byte immediate. -/
  | cmpMemImm (size : OpSize) (base : Reg) (disp : SignedField) (imm : Int8)
  /-- Test the common bits of two registers. -/
  | test (size : OpSize) (dst src : Reg)
  /-- Test the common bits of a register and an immediate. -/
  | testImm (size : OpSize) (dst : Reg) (imm : Int32)
  /-- Push a register. -/
  | push (reg : Reg)
  /-- Pop a register. -/
  | pop (reg : Reg)
  /-- Drop the frame: `rsp` becomes `rbp`, then `rbp` is popped. -/
  | leave
  /-- Return to the caller. -/
  | ret
  /-- Jump by a displacement from the end of the instruction. -/
  | jmp (rel : SignedField)
  /-- Jump by a displacement if the condition holds. -/
  | jcc (cond : Cond) (rel : SignedField)
  /-- Call by a displacement from the end of the instruction. -/
  | call (rel : Int32)
  /-- Jump to the address in a register. -/
  | jmpReg (reg : Reg)
  /-- Do nothing in `extra + 1` bytes. -/
  | nop (extra : Fin 8)
deriving DecidableEq, Repr

/-- The lengths of instructions that do nothing are written as numerals. -/
instance neZero_eight : @NeZero Nat Zero.ofOfNat0 8 := ⟨by decide⟩

/-- The recommended encodings that do nothing, in one to eight bytes. -/
def nopBytes (extra : Fin 8) : List UInt8 :=
  match extra with
  | 0 => [0x90]
  | 1 => [0x66, 0x90]
  | 2 => [0x0F, 0x1F, 0x00]
  | 3 => [0x0F, 0x1F, 0x40, 0x00]
  | 4 => [0x0F, 0x1F, 0x44, 0x00, 0x00]
  | 5 => [0x66, 0x0F, 0x1F, 0x44, 0x00, 0x00]
  | 6 => [0x0F, 0x1F, 0x80, 0x00, 0x00, 0x00, 0x00]
  | 7 => [0x0F, 0x1F, 0x84, 0x00, 0x00, 0x00, 0x00, 0x00]

/-- Opcode bytes of an atomic operation. -/
def lockedOpcode : LockedOp → List UInt8
  | .alu op => [aluOpcode op]
  | .fetchAdd => [0x0F, 0xC1]
  | .exchange => [0x87]
  | .compareExchange => [0x0F, 0xB1]

/-- Prefix and opcode of a zero-extending load. Byte and half loads always take the 64-bit
prefix; a word load clears the upper half by itself. -/
def loadOpcode (width : Width) (dst base : Reg) : List UInt8 :=
  match width with
  | .byte => pairPrefix .wide base dst ++ [0x0F, 0xB6]
  | .half => pairPrefix .wide base dst ++ [0x0F, 0xB7]
  | .word => pairPrefix .narrow base dst ++ [0x8B]
  | .double => pairPrefix .wide base dst ++ [0x8B]

/-- Opcode of a sign-extending load. -/
def loadSignedOpcode : Width → List UInt8
  | .byte => [0x0F, 0xBE]
  | .half => [0x0F, 0xBF]
  | .word => [0x63]
  | .double => [0x63]

/-- Prefix and opcode of a store. A byte store needs a prefix for every register whose low byte
is not addressable without one. -/
def storeOpcode (width : Width) (base src : Reg) : List UInt8 :=
  match width with
  | .byte =>
    (if base.extended || src.needsBytePrefix then [markPair 0x40 base src] else []) ++ [0x88]
  | .half => 0x66 :: pairPrefix .narrow base src ++ [0x89]
  | .word => pairPrefix .narrow base src ++ [0x89]
  | .double => pairPrefix .wide base src ++ [0x89]

/-- Prefix and opcode of a store of an immediate. -/
def storeImmOpcode (width : Width) (base : Reg) : List UInt8 :=
  match width with
  | .byte => basePrefix .narrow base ++ [0xC6]
  | .half => 0x66 :: basePrefix .narrow base ++ [0xC7]
  | .word => basePrefix .narrow base ++ [0xC7]
  | .double => basePrefix .wide base ++ [0xC7]

/-- Opcode of an immediate form: one byte or four bytes of immediate. -/
def immOpcode : SignedField → UInt8
  | .byte _ => 0x83
  | .dword _ => 0x81

/-- The bytes of an instruction. -/
def Instr.encode : Instr → List UInt8
  | .movSigned dst imm => basePrefix .wide dst ++ [0xC7, registerField 0 dst] ++ Bytes.ofInt32 imm
  | .movZero dst imm => basePrefix .narrow dst ++ [0xB8 + dst.code] ++ Bytes.ofInt32 imm
  | .movWide dst imm => basePrefix .wide dst ++ [0xB8 + dst.code] ++ Bytes.ofUInt64 imm
  | .mov size dst src => pairPrefix size dst src ++ [0x89, registerPair dst src]
  | .zeroExtendHalf dst => pairPrefix .narrow dst dst ++ [0x0F, 0xB7, registerPair dst dst]
  | .rotateHalf dst => 0x66 :: basePrefix .narrow dst ++ [0xC1, registerField 1 dst, 8]
  | .swapBytes size dst => basePrefix size dst ++ [0x0F, 0xC8 + dst.code]
  | .load width dst base disp => loadOpcode width dst base ++ memoryPair base dst disp
  | .loadSigned width dst base disp =>
    pairPrefix .wide base dst ++ loadSignedOpcode width ++ memoryPair base dst disp
  | .loadIndexed dst base index disp =>
    [markPair 0x48 base dst ||| (if index.extended then 2 else 0), 0x8B,
      operandByte 0x80 dst.code 4, operandByte 0xC0 index.code base.code] ++ Bytes.ofInt32 disp
  | .store width base src disp => storeOpcode width base src ++ memoryPair base src disp
  | .storeImm width base disp imm =>
    storeImmOpcode width base ++ memoryField base 0 disp ++
      (Bytes.ofInt32 imm).take width.bytes
  | .lea dst base disp => pairPrefix .wide base dst ++ [0x8D] ++ memoryPair base dst disp
  | .locked op size base src disp =>
    0xF0 :: pairPrefix size base src ++ lockedOpcode op ++ memoryPair base src disp
  | .alu op size dst src => pairPrefix size dst src ++ [aluOpcode op, registerPair dst src]
  | .aluImm op size dst imm =>
    basePrefix size dst ++ [immOpcode imm, registerField (aluField op) dst] ++ imm.bytes
  | .aluAccumulator op size imm =>
    basePrefix size .rax ++ [aluAccumulatorOpcode op] ++ Bytes.ofInt32 imm
  | .neg size dst => basePrefix size dst ++ [0xF7, registerField 3 dst]
  | .shiftOne op size dst => basePrefix size dst ++ [0xD1, registerField (shiftField op) dst]
  | .shiftImm op size dst count =>
    basePrefix size dst ++ [0xC1, registerField (shiftField op) dst, count]
  | .shiftCount op size dst => basePrefix size dst ++ [0xD3, registerField (shiftField op) dst]
  | .mul size src => basePrefix size src ++ [0xF7, registerField 4 src]
  | .div size src => basePrefix size src ++ [0xF7, registerField 6 src]
  | .cmp size dst src => pairPrefix size dst src ++ [0x39, registerPair dst src]
  | .cmpImm size dst imm => basePrefix size dst ++ [immOpcode imm, registerField 7 dst] ++ imm.bytes
  | .cmpMem size base src disp => pairPrefix size base src ++ [0x39] ++ memoryPair base src disp
  | .cmpMemImm size base disp imm =>
    basePrefix size base ++ [0x83] ++ memoryField base 7 disp ++ [imm.toUInt8]
  | .test size dst src => pairPrefix size dst src ++ [0x85, registerPair dst src]
  | .testImm size dst imm => basePrefix size dst ++ [0xF7, registerField 0 dst] ++ Bytes.ofInt32 imm
  | .push reg => basePrefix .narrow reg ++ [0x50 + reg.code]
  | .pop reg => basePrefix .narrow reg ++ [0x58 + reg.code]
  | .leave => [0xC9]
  | .ret => [0xC3]
  | .jmp (.byte rel) => [0xEB, rel.toUInt8]
  | .jmp (.dword rel) => 0xE9 :: Bytes.ofInt32 rel
  | .jcc cond (.byte rel) => [cond.shortOpcode, rel.toUInt8]
  | .jcc cond (.dword rel) => 0x0F :: cond.nearOpcode :: Bytes.ofInt32 rel
  | .call rel => 0xE8 :: Bytes.ofInt32 rel
  | .jmpReg reg => basePrefix .narrow reg ++ [0xFF, registerField 4 reg]
  | .nop extra => nopBytes extra

/-- The number of bytes of an instruction. -/
def Instr.size (i : Instr) : Nat := i.encode.length

/-- The bytes of a sequence of instructions. -/
def encodeAll (code : List Instr) : List UInt8 := code.flatMap Instr.encode

/-- The number of bytes of a sequence of instructions. -/
def codeSize (code : List Instr) : Nat := (code.map Instr.size).foldr (· + ·) 0

/-- The size of a sequence is the number of bytes it encodes to. -/
theorem length_encodeAll (code : List Instr) : (encodeAll code).length = codeSize code := by
  induction code with
  | nil => rfl
  | cons i rest ih =>
    simp only [encodeAll, List.flatMap_cons, List.length_append, codeSize, List.map_cons,
      List.foldr_cons, Instr.size] at ih ⊢
    omega

end NativeForge.X64
