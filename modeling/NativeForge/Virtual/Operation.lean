import NativeForge.Error
import NativeForge.Operator
import NativeForge.Virtual.Insn
import NativeForge.Virtual.Register

/-!
# Operations: what an instruction slot means

`Insn.operation` reads a slot as an operation on virtual registers, or says why it means nothing:
an unknown operation code, a register number without a register, a fault-tolerant load into the
frame pointer. `steps` cuts a program into the operations it consists of; a 64-bit immediate load
takes two slots, every other operation one.
-/

namespace NativeForge.Virtual

/-- The second operand of an operation. -/
inductive Operand where
  | reg (r : VReg)
  | imm (v : Int32)
deriving DecidableEq, Repr

/-- The condition of a conditional jump. -/
inductive Condition where
  | equal
  | greater
  | greaterEqual
  /-- Some bit is set in both operands. -/
  | anySet
  | notEqual
  | signedGreater
  | signedGreaterEqual
  | less
  | lessEqual
  | signedLess
  | signedLessEqual
deriving DecidableEq, Repr

/-- What a division keeps. -/
inductive DivisionPart where
  | quotient
  | remainder
deriving DecidableEq, Repr

/-- The byte order a value is converted to. -/
inductive ByteOrder where
  | little
  | big
deriving DecidableEq, Repr

/-- How a load extends its value. -/
inductive Extension where
  | zero
  | sign
deriving DecidableEq, Repr

/-- An operation on virtual registers. -/
inductive Operation where
  /-- Combine `dst` with the operand. -/
  | alu (op : AluOp) (size : OpSize) (dst : VReg) (src : Operand)
  /-- Shift `dst` by the operand. -/
  | shift (op : ShiftOp) (size : OpSize) (dst : VReg) (src : Operand)
  /-- Move the operand to `dst`. -/
  | move (size : OpSize) (dst : VReg) (src : Operand)
  /-- Negate `dst`. -/
  | negate (size : OpSize) (dst : VReg)
  /-- Multiply `dst` by the operand. -/
  | multiply (size : OpSize) (dst : VReg) (src : Operand)
  /-- Divide `dst` by the operand, unsigned. -/
  | divide (part : DivisionPart) (size : OpSize) (dst : VReg) (src : Operand)
  /-- Convert the low bytes of `dst` to a byte order and clear the rest. -/
  | convert (order : ByteOrder) (width : Width) (dst : VReg)
  /-- Load a 64-bit immediate. -/
  | loadWide (dst : VReg) (value : UInt64)
  /-- Load from memory. -/
  | load (ext : Extension) (width : Width) (dst base : VReg) (off : Int16)
  /-- Load from memory; a fault clears `dst` and continues. -/
  | probe (ext : Extension) (width : Width) (dst base : VReg) (off : Int16)
  /-- Store an immediate. -/
  | storeImm (width : Width) (base : VReg) (off : Int16) (imm : Int32)
  /-- Store a register. -/
  | store (width : Width) (base src : VReg) (off : Int16)
  /-- Atomic operation with a native form. -/
  | atomic (op : LockedOp) (size : OpSize) (base src : VReg) (off : Int16)
  /-- Atomic operation that returns the old value and has no native form. -/
  | fetch (op : AluOp) (size : OpSize) (base src : VReg) (off : Int16)
  /-- Jump by a number of slots. -/
  | jump (off : Int16)
  /-- Jump by a number of slots if the condition holds. -/
  | branch (cond : Condition) (size : OpSize) (dst : VReg) (src : Operand) (off : Int16)
  /-- Leave the program. -/
  | exit
  /-- Call a helper, or another sub-program. -/
  | call (id : Int32) (subprogram : Bool)
  /-- Continue in another program: by run-time index, or through a numbered descriptor. -/
  | tailCall (descriptor : Int32)
deriving DecidableEq, Repr

/-- The arithmetic or bitwise operation of an operation code. -/
def aluOp? (op : UInt8) : Option AluOp :=
  if op = 0x00 then some .add
  else if op = 0x10 then some .sub
  else if op = 0x40 then some .or
  else if op = 0x50 then some .and
  else if op = 0xA0 then some .xor
  else none

/-- The shift of an operation code. -/
def shiftOp? (op : UInt8) : Option ShiftOp :=
  if op = 0x60 then some .left
  else if op = 0x70 then some .right
  else if op = 0xC0 then some .arithmetic
  else none

/-- The condition of an operation code. -/
def condition? (op : UInt8) : Option Condition :=
  if op = 0x10 then some .equal
  else if op = 0x20 then some .greater
  else if op = 0x30 then some .greaterEqual
  else if op = 0x40 then some .anySet
  else if op = 0x50 then some .notEqual
  else if op = 0x60 then some .signedGreater
  else if op = 0x70 then some .signedGreaterEqual
  else if op = 0xA0 then some .less
  else if op = 0xB0 then some .lessEqual
  else if op = 0xC0 then some .signedLess
  else if op = 0xD0 then some .signedLessEqual
  else none

/-- The width of a size field. -/
def widthOf (size : UInt8) : Width :=
  if size = 0x10 then .byte
  else if size = 0x08 then .half
  else if size = 0x00 then .word
  else .double

/-- The register a field names. -/
def register (index : UInt8) : Except Defect VReg :=
  match VReg.ofIndex? index with
  | some r => .ok r
  | none => .error (.invalidRegister index)

namespace Insn

/-- The defect of an operation code without meaning. -/
def unknown {α : Type} (i : Insn) : Except Defect α := .error (.unknownOpcode i.code)

/-- The second operand: a register or the immediate. -/
def operand (i : Insn) : Except Defect Operand :=
  if i.fromRegister then do return .reg (← register i.src) else .ok (.imm i.imm)

/-- The operation of an arithmetic slot. -/
def arithmetic (i : Insn) (size : OpSize) : Except Defect Operation := do
  let dst ← register i.dst
  match aluOp? i.op, shiftOp? i.op with
  | some op, _ => return .alu op size dst (← i.operand)
  | none, some op => return .shift op size dst (← i.operand)
  | none, none =>
    if i.op = 0xB0 then return .move size dst (← i.operand)
    else if i.op = 0x80 then return .negate size dst
    else if i.op = 0x20 then return .multiply size dst (← i.operand)
    else if i.op = 0x30 then return .divide .quotient size dst (← i.operand)
    else if i.op = 0x90 then return .divide .remainder size dst (← i.operand)
    else if i.op = 0xD0 then
      let order := if i.fromRegister then ByteOrder.big else .little
      if i.imm = 16 then return .convert order .half dst
      else if i.imm = 32 then return .convert order .word dst
      else if i.imm = 64 then return .convert order .double dst
      else i.unknown
    else i.unknown

/-- The operation of a load slot. -/
def loading (i : Insn) : Except Defect Operation := do
  let dst ← register i.dst
  let base ← register i.src
  let width := widthOf i.size
  if i.mode = 0x60 then return .load .zero width dst base i.off
  else if i.mode = 0x80 ∧ width ≠ .double then return .load .sign width dst base i.off
  else if i.mode = 0x20 ∨ i.mode = 0x40 then
    if dst = .fp then .error (.probeDestination dst.name)
    else if i.mode = 0x20 then return .probe .zero width dst base i.off
    else if width ≠ .double then return .probe .sign width dst base i.off
    else i.unknown
  else i.unknown

/-- The operation of a slot that stores an immediate. -/
def storingImm (i : Insn) : Except Defect Operation := do
  if i.mode = 0x60 then
    let base ← register i.dst
    return .storeImm (widthOf i.size) base i.off i.imm
  else i.unknown

/-- The atomic operation that an immediate selects. -/
def atomicOf (i : Insn) (size : OpSize) (base src : VReg) : Except Defect Operation :=
  if i.imm = 0x00 then .ok (.atomic (.alu .add) size base src i.off)
  else if i.imm = 0x50 then .ok (.atomic (.alu .and) size base src i.off)
  else if i.imm = 0x40 then .ok (.atomic (.alu .or) size base src i.off)
  else if i.imm = 0xA0 then .ok (.atomic (.alu .xor) size base src i.off)
  else if i.imm = 0x01 then .ok (.atomic .fetchAdd size base src i.off)
  else if i.imm = 0x51 then .ok (.fetch .and size base src i.off)
  else if i.imm = 0x41 then .ok (.fetch .or size base src i.off)
  else if i.imm = 0xA1 then .ok (.fetch .xor size base src i.off)
  else if i.imm = 0xE1 then .ok (.atomic .exchange size base src i.off)
  else if i.imm = 0xF1 then .ok (.atomic .compareExchange size base src i.off)
  else i.unknown

/-- The operation of a slot that stores a register or works atomically. -/
def storing (i : Insn) : Except Defect Operation := do
  let base ← register i.dst
  let src ← register i.src
  let width := widthOf i.size
  if i.mode = 0x60 then return .store width base src i.off
  else if i.mode = 0xC0 ∧ width = .word then i.atomicOf .narrow base src
  else if i.mode = 0xC0 ∧ width = .double then i.atomicOf .wide base src
  else i.unknown

/-- The operation of a conditional jump slot. -/
def branching (i : Insn) (size : OpSize) : Except Defect Operation :=
  match condition? i.op with
  | none => i.unknown
  | some cond => do
    let dst ← register i.dst
    return .branch cond size dst (← i.operand) i.off

/-- The operation of a jump slot. -/
def jumping (i : Insn) : Except Defect Operation :=
  if i.op = 0x00 then .ok (.jump i.off)
  else if i.op = 0x90 then .ok .exit
  else if i.op = 0x80 then .ok (.call i.imm i.isSubprogramCall)
  else if i.op = 0xF0 then .ok (.tailCall i.imm)
  else i.branching .wide

/-- The operation of a slot that stands alone. -/
def operation (i : Insn) : Except Defect Operation :=
  if i.cls = 1 then i.loading
  else if i.cls = 2 then i.storingImm
  else if i.cls = 3 then i.storing
  else if i.cls = 4 then i.arithmetic .narrow
  else if i.cls = 5 then i.jumping
  else if i.cls = 6 then i.branching .narrow
  else if i.cls = 7 then i.arithmetic .wide
  else i.unknown

/-- The operation of a 64-bit immediate load: the low half stands in this slot, the high half in
the next one. -/
def wideOperation (i next : Insn) : Except Defect Operation := do
  let dst ← register i.dst
  return .loadWide dst ((next.imm.toUInt32.toUInt64 <<< 32) ||| i.imm.toUInt32.toUInt64)

end Insn

/-- One operation of a program, with the slots it takes. -/
structure Step where
  /-- Number of the first slot. -/
  index : Nat
  /-- How many slots the operation takes. -/
  slots : Nat
  /-- The operation, or why the slot means nothing. -/
  operation : Except Defect Operation

/-- The operations of a list of slots, the first of which has number `index`. -/
def stepsFrom (index : Nat) : List Insn → List Step
  | [] => []
  | i :: rest =>
    if i.isWideLoad then
      match rest with
      | [] => [⟨index, 1, .error .truncatedWideLoad⟩]
      | next :: rest => ⟨index, 2, i.wideOperation next⟩ :: stepsFrom (index + 2) rest
    else ⟨index, 1, i.operation⟩ :: stepsFrom (index + 1) rest

end NativeForge.Virtual
