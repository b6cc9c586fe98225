import NativeForge.X64.Assembler

/-!
# Reading instructions back

The processor's view of a byte string: an operand-size or lock prefix, a prefix that extends the
register numbers, an opcode, an operand byte with what follows it, and an immediate. The tables
here are those of the instruction set and know nothing of the encoder; bytes that stand for
something else than an `Instr` are not read.
-/

namespace NativeForge.X64

/-- What the extension prefix of an instruction says. -/
structure Rex where
  /-- There is an extension prefix. -/
  present : Bool
  /-- The operands have 64 bits. -/
  wide : Bool
  /-- Fourth bit of the register in the reg field. -/
  reg : Bool
  /-- Fourth bit of the index register. -/
  index : Bool
  /-- Fourth bit of the register in the r/m field or of the base register. -/
  base : Bool
deriving DecidableEq, Repr

/-- The operand size that a prefix selects. -/
def Rex.size (e : Rex) : OpSize := if e.wide then .wide else .narrow

/-- Take the extension prefix off, if there is one. -/
def readRex : List UInt8 → Rex × List UInt8
  | [] => (⟨false, false, false, false, false⟩, [])
  | b :: rest =>
    if b &&& 0xF0 = 0x40 then
      (⟨true, b &&& 8 != 0, b &&& 4 != 0, b &&& 2 != 0, b &&& 1 != 0⟩, rest)
    else (⟨false, false, false, false, false⟩, b :: rest)

/-- The register of a three-bit code and a fourth bit. -/
def Reg.ofBits (fourth : Bool) (code : UInt8) : Reg :=
  Reg.all.getD (code.toNat + if fourth then 8 else 0) .rax

/-- What an operand byte and the bytes behind it designate. -/
inductive Place where
  /-- A register. -/
  | register (r : Reg)
  /-- The cell at a register's address. -/
  | plain (base : Reg)
  /-- The cell at a displacement from a register's address. -/
  | memory (base : Reg) (disp : SignedField)
  /-- The cell at a displacement from a base and an index that is scaled by a power of two. -/
  | indexed (base index : Reg) (scale : UInt8) (disp : SignedField)
deriving DecidableEq, Repr

/-- Read a one-byte field. -/
def readInt8 : List UInt8 → Option (Int8 × List UInt8)
  | b :: rest => some (b.toInt8, rest)
  | [] => none

/-- Read a two-byte field. -/
def readInt16 : List UInt8 → Option (Int16 × List UInt8)
  | a :: b :: rest => some ((UInt16.ofNat (Bytes.value [a, b])).toInt16, rest)
  | _ => none

/-- Read a four-byte field. -/
def readInt32 : List UInt8 → Option (Int32 × List UInt8)
  | a :: b :: c :: d :: rest => some ((UInt32.ofNat (Bytes.value [a, b, c, d])).toInt32, rest)
  | _ => none

/-- Read an eight-byte field. -/
def readUInt64 : List UInt8 → Option (UInt64 × List UInt8)
  | a :: b :: c :: d :: e :: f :: g :: h :: rest =>
    some (UInt64.ofNat (Bytes.value [a, b, c, d, e, f, g, h]), rest)
  | _ => none

/-- Read a sign-extended field of one or four bytes. -/
def readField (byte : Bool) (bytes : List UInt8) : Option (SignedField × List UInt8) :=
  if byte then (readInt8 bytes).map fun (v, rest) => (.byte v, rest)
  else (readInt32 bytes).map fun (v, rest) => (.dword v, rest)

/-- Read the byte that names base and index, and the displacement behind it. The stack pointer as
an index stands for no index. -/
def readIndexed (e : Rex) (mode field : UInt8) :
    List UInt8 → Option (UInt8 × Place × List UInt8)
  | [] => none
  | s :: rest => do
    let (disp, rest) ← if mode = 0 then none else readField (mode = 1) rest
    let index := Reg.ofBits e.index ((s >>> 3) &&& 7)
    let base := Reg.ofBits e.base (s &&& 7)
    if index = .rsp then return (field, .memory base disp, rest)
    else return (field, .indexed base index (s >>> 6) disp, rest)

/-- Read an operand byte and what belongs to it. The first result is the reg field. Addresses
relative to the instruction and addresses without a base are not read. -/
def readPlace (e : Rex) : List UInt8 → Option (UInt8 × Place × List UInt8)
  | [] => none
  | b :: rest =>
    let mode := b >>> 6
    let field := (b >>> 3) &&& 7
    let rm := b &&& 7
    if mode = 3 then some (field, .register (.ofBits e.base rm), rest)
    else if rm = 4 then readIndexed e mode field rest
    else if mode = 0 then
      if rm = 5 then none else some (field, .plain (.ofBits e.base rm), rest)
    else do
      let (disp, rest) ← readField (mode = 1) rest
      return (field, .memory (.ofBits e.base rm) disp, rest)

/-- The operation of an opcode with a register source. -/
def aluOfOpcode? (b : UInt8) : Option AluOp :=
  if b = 0x01 then some .add
  else if b = 0x09 then some .or
  else if b = 0x21 then some .and
  else if b = 0x29 then some .sub
  else if b = 0x31 then some .xor
  else none

/-- The operation of an accumulator form. -/
def aluOfAccumulator? (b : UInt8) : Option AluOp :=
  if b = 0x05 then some .add
  else if b = 0x0D then some .or
  else if b = 0x25 then some .and
  else if b = 0x2D then some .sub
  else if b = 0x35 then some .xor
  else none

/-- The operation of the reg field of an immediate form. -/
def aluOfField? (field : UInt8) : Option AluOp :=
  if field = 0 then some .add
  else if field = 1 then some .or
  else if field = 4 then some .and
  else if field = 5 then some .sub
  else if field = 6 then some .xor
  else none

/-- The shift of the reg field of a shift form. -/
def shiftOfField? (field : UInt8) : Option ShiftOp :=
  if field = 4 then some .left
  else if field = 5 then some .right
  else if field = 7 then some .arithmetic
  else none

/-- The condition of a four-bit code. -/
def condOfCode? (code : UInt8) : Option Cond :=
  if code = 0x2 then some .below
  else if code = 0x3 then some .aboveEqual
  else if code = 0x4 then some .equal
  else if code = 0x5 then some .notEqual
  else if code = 0x6 then some .belowEqual
  else if code = 0x7 then some .above
  else if code = 0xC then some .less
  else if code = 0xD then some .greaterEqual
  else if code = 0xE then some .lessEqual
  else if code = 0xF then some .greater
  else none

/-- A form on a register or cell and the register of the reg field. -/
def pairForm (e : Rex) (bytes : List UInt8) (onRegister : Reg → Reg → Option Instr)
    (onMemory : Reg → SignedField → Reg → Option Instr) : Option (Instr × List UInt8) := do
  let (field, place, rest) ← readPlace e bytes
  let reg := Reg.ofBits e.reg field
  match place with
  | .register rm => (onRegister rm reg).map (·, rest)
  | .memory base disp => (onMemory base disp reg).map (·, rest)
  | _ => none

/-- A form on one register, with the reg field as a part of the opcode. -/
def fieldForm (e : Rex) (bytes : List UInt8)
    (form : UInt8 → Reg → List UInt8 → Option (Instr × List UInt8)) :
    Option (Instr × List UInt8) := do
  let (field, place, rest) ← readPlace e bytes
  match place with
  | .register rm => form field rm rest
  | _ => none

/-- An instruction with a four-byte field. -/
def int32Form (bytes : List UInt8) (form : Int32 → Instr) : Option (Instr × List UInt8) :=
  (readInt32 bytes).map fun (v, rest) => (form v, rest)

/-- Arithmetic and comparison with an immediate of one or four bytes. Only a comparison has a form
on a cell here, with an immediate of one byte. -/
def immediateForm (e : Rex) (byte : Bool) (bytes : List UInt8) : Option (Instr × List UInt8) := do
  let (field, place, rest) ← readPlace e bytes
  let (imm, rest) ← readField byte rest
  match place, imm with
  | .register rm, imm =>
    if field = 7 then return (.cmpImm e.size rm imm, rest)
    else (aluOfField? field).map fun op => (.aluImm op e.size rm imm, rest)
  | .memory base disp, .byte imm =>
    if field = 7 then return (.cmpMemImm e.size base disp imm, rest) else none
  | _, _ => none

/-- Instructions of the group that shares the opcode of negation. -/
def unaryForm (e : Rex) (bytes : List UInt8) : Option (Instr × List UInt8) :=
  fieldForm e bytes fun field rm rest =>
    if field = 0 then int32Form rest (.testImm e.size rm)
    else if field = 3 then some (.neg e.size rm, rest)
    else if field = 4 then some (.mul e.size rm, rest)
    else if field = 6 then some (.div e.size rm, rest)
    else none

/-- A load of an immediate: into a 64-bit register, or into a cell. -/
def loadImmediateForm (e : Rex) (bytes : List UInt8) : Option (Instr × List UInt8) := do
  let (field, place, rest) ← readPlace e bytes
  if field ≠ 0 then none
  else
    match place with
    | .register rm => if e.wide then int32Form rest (.movSigned rm) else none
    | .memory base disp => int32Form rest (.storeImm e.size.width base disp)
    | _ => none

/-- A load of a register from a cell; the indexed form scales by eight. -/
def loadForm (e : Rex) (bytes : List UInt8) : Option (Instr × List UInt8) := do
  let (field, place, rest) ← readPlace e bytes
  let dst := Reg.ofBits e.reg field
  match place with
  | .memory base disp => return (.load e.size.width dst base disp, rest)
  | .indexed base index scale (.dword disp) =>
    if e.wide ∧ scale = 3 then return (.loadIndexed dst base index disp, rest) else none
  | _ => none

/-- A store of the low byte of a register. Without a prefix the codes from four on name other
bytes. -/
def storeByteForm (e : Rex) (bytes : List UInt8) : Option (Instr × List UInt8) :=
  pairForm e bytes (fun _ _ => none) fun base disp reg =>
    if e.present ∨ reg.number < 4 then some (.store .byte base reg disp) else none

/-- A store of a one-byte immediate. -/
def storeByteImmediateForm (e : Rex) (bytes : List UInt8) : Option (Instr × List UInt8) := do
  let (field, place, rest) ← readPlace e bytes
  let (imm, rest) ← readInt8 rest
  match place with
  | .memory base disp =>
    if field = 0 then return (.storeImm .byte base disp imm.toInt32, rest) else none
  | _ => none

/-- The recommended instruction that does nothing, by its operand. -/
def nopForm (e : Rex) (bytes : List UInt8) : Option (Instr × List UInt8) := do
  let (field, place, rest) ← readPlace e bytes
  if field ≠ 0 then none
  else
    match place with
    | .plain _ => return (.nop 2, rest)
    | .memory _ (.byte _) => return (.nop 3, rest)
    | .indexed _ _ _ (.byte _) => return (.nop 4, rest)
    | .memory _ (.dword _) => return (.nop 6, rest)
    | .indexed _ _ _ (.dword _) => return (.nop 7, rest)
    | .register _ => none

/-- Instructions whose opcode carries a register or a condition in its low bits. -/
def decodeByRange (e : Rex) (b : UInt8) (rest : List UInt8) : Option (Instr × List UInt8) :=
  let reg := Reg.ofBits e.base (b &&& 7)
  if b &&& 0xF8 = 0x50 then some (.push reg, rest)
  else if b &&& 0xF8 = 0x58 then some (.pop reg, rest)
  else if b &&& 0xF8 = 0xB8 then
    if e.wide then (readUInt64 rest).map fun (v, rest) => (.movWide reg v, rest)
    else int32Form rest (.movZero reg)
  else if b &&& 0xF0 = 0x70 then do
    let cond ← condOfCode? (b &&& 0x0F)
    let (rel, rest) ← readInt8 rest
    return (.jcc cond (.byte rel), rest)
  else none

/-- Instructions with an opcode of one byte. -/
def decodeOne (e : Rex) (b : UInt8) (rest : List UInt8) : Option (Instr × List UInt8) :=
  match aluOfOpcode? b, aluOfAccumulator? b with
  | some op, _ => pairForm e rest (fun rm reg => some (.alu op e.size rm reg)) fun _ _ _ => none
  | none, some op => int32Form rest (.aluAccumulator op e.size)
  | none, none =>
    match b with
    | 0x39 => pairForm e rest (fun rm reg => some (.cmp e.size rm reg))
        fun base disp reg => some (.cmpMem e.size base reg disp)
    | 0x63 => pairForm e rest (fun _ _ => none) fun base disp reg =>
        if e.wide then some (.loadSigned .word reg base disp) else none
    | 0x81 => immediateForm e false rest
    | 0x83 => immediateForm e true rest
    | 0x85 => pairForm e rest (fun rm reg => some (.test e.size rm reg)) fun _ _ _ => none
    | 0x88 => storeByteForm e rest
    | 0x89 => pairForm e rest (fun rm reg => some (.mov e.size rm reg))
        fun base disp reg => some (.store e.size.width base reg disp)
    | 0x8B => loadForm e rest
    | 0x8D => pairForm e rest (fun _ _ => none) fun base disp reg =>
        if e.wide then some (.lea reg base disp) else none
    | 0x90 => if e.present then none else some (.nop 0, rest)
    | 0xC1 => fieldForm e rest fun field rm rest => do
        let op ← shiftOfField? field
        match rest with
        | count :: rest => return (.shiftImm op e.size rm count, rest)
        | [] => none
    | 0xC3 => some (.ret, rest)
    | 0xC6 => storeByteImmediateForm e rest
    | 0xC7 => loadImmediateForm e rest
    | 0xC9 => some (.leave, rest)
    | 0xD1 => fieldForm e rest fun field rm rest =>
        (shiftOfField? field).map fun op => (.shiftOne op e.size rm, rest)
    | 0xD3 => fieldForm e rest fun field rm rest =>
        (shiftOfField? field).map fun op => (.shiftCount op e.size rm, rest)
    | 0xE8 => int32Form rest .call
    | 0xE9 => int32Form rest fun rel => .jmp (.dword rel)
    | 0xEB => (readInt8 rest).map fun (rel, rest) => (.jmp (.byte rel), rest)
    | 0xF7 => unaryForm e rest
    | 0xFF => fieldForm e rest fun field rm rest =>
        if field = 4 then some (.jmpReg rm, rest) else none
    | _ => decodeByRange e b rest

/-- Instructions with an opcode of two bytes, the first of which is `0F`. -/
def decodeTwo (e : Rex) (b : UInt8) (rest : List UInt8) : Option (Instr × List UInt8) :=
  match b with
  | 0x1F => nopForm e rest
  | 0xB6 => pairForm e rest (fun _ _ => none) fun base disp reg =>
      if e.wide then some (.load .byte reg base disp) else none
  | 0xB7 => pairForm e rest
      (fun rm reg => if rm = reg ∧ e.wide = false then some (.zeroExtendHalf rm) else none)
      fun base disp reg => if e.wide then some (.load .half reg base disp) else none
  | 0xBE => pairForm e rest (fun _ _ => none) fun base disp reg =>
      if e.wide then some (.loadSigned .byte reg base disp) else none
  | 0xBF => pairForm e rest (fun _ _ => none) fun base disp reg =>
      if e.wide then some (.loadSigned .half reg base disp) else none
  | b =>
    if b &&& 0xF8 = 0xC8 then some (.swapBytes e.size (.ofBits e.base (b &&& 7)), rest)
    else if b &&& 0xF0 = 0x80 then
      (condOfCode? (b &&& 0x0F)).bind fun cond =>
        int32Form rest fun rel => .jcc cond (.dword rel)
    else none

/-- Instructions behind the prefix for 16-bit operands. -/
def decodeHalf (e : Rex) : List UInt8 → Option (Instr × List UInt8)
  | 0x90 :: rest => if e.present then none else some (.nop 1, rest)
  | 0x0F :: 0x1F :: 0x44 :: _ :: _ :: rest => if e.present then none else some (.nop 5, rest)
  | 0x89 :: rest => pairForm e rest (fun _ _ => none) fun base disp reg =>
      if e.wide then none else some (.store .half base reg disp)
  | 0xC1 :: rest => fieldForm e rest fun field rm rest =>
      match rest with
      | count :: rest =>
        if field = 1 ∧ count = 8 ∧ e.wide = false then some (.rotateHalf rm, rest) else none
      | [] => none
  | 0xC7 :: rest => do
    let (field, place, rest) ← readPlace e rest
    let (imm, rest) ← readInt16 rest
    match place with
    | .memory base disp =>
      if field = 0 ∧ e.wide = false then return (.storeImm .half base disp imm.toInt32, rest)
      else none
    | _ => none
  | _ => none

/-- Instructions behind the lock prefix. -/
def decodeLocked (e : Rex) : List UInt8 → Option (Instr × List UInt8)
  | 0x0F :: 0xC1 :: rest => form .fetchAdd rest
  | 0x0F :: 0xB1 :: rest => form .compareExchange rest
  | 0x87 :: rest => form .exchange rest
  | b :: rest => (aluOfOpcode? b).bind fun op => form (.alu op) rest
  | [] => none
where
  /-- An atomic operation on a cell. -/
  form (op : LockedOp) (rest : List UInt8) : Option (Instr × List UInt8) :=
    pairForm e rest (fun _ _ => none) fun base disp reg => some (.locked op e.size base reg disp)

/-- Instructions without an operand-size or lock prefix. -/
def decodePlain (e : Rex) : List UInt8 → Option (Instr × List UInt8)
  | 0x0F :: b :: rest => decodeTwo e b rest
  | b :: rest => decodeOne e b rest
  | [] => none

/-- Read one instruction and give the bytes behind it. -/
def decode : List UInt8 → Option (Instr × List UInt8)
  | 0x66 :: rest => decodeHalf (readRex rest).1 (readRex rest).2
  | 0xF0 :: rest => decodeLocked (readRex rest).1 (readRex rest).2
  | bytes => decodePlain (readRex bytes).1 (readRex bytes).2

end NativeForge.X64
