import NativeForge.Virtual.Program

/-!
# What virtual programs mean

An interpreter of instruction slots, for arithmetic, 64-bit immediate loads, jumps and exits.
Operations on 64 bits wrap, operations on 32 bits work on the low halves and clear the upper half,
immediates are sign-extended, shift counts are taken modulo the width, division and remainder are
unsigned. The interpreter stops without a value at a division by zero, at a 32-bit shift by a count
of zero, and at every other slot.
-/

namespace NativeForge.Virtual

/-- The values of the virtual registers. -/
abbrev Registers : Type := VReg → BitVec 64

/-- Set a register. -/
def Registers.set (regs : Registers) (r : VReg) (v : BitVec 64) : Registers :=
  fun x => if x = r then v else regs x

/-- A shift by a count modulo the width. -/
def shiftResult {n : Nat} (shift : BitVec n → Nat → BitVec n) (a b : BitVec n) :
    Option (BitVec n) :=
  if n = 32 ∧ b.toNat % n = 0 then none else some (shift a (b.toNat % n))

/-- The result of an arithmetic operation code on two operands. -/
def arithmeticResult {n : Nat} (op : UInt8) (a b : BitVec n) : Option (BitVec n) :=
  if op = 0x00 then some (a + b)
  else if op = 0x10 then some (a - b)
  else if op = 0x20 then some (a * b)
  else if op = 0x30 then if b = 0 then none else some (a / b)
  else if op = 0x40 then some (a ||| b)
  else if op = 0x50 then some (a &&& b)
  else if op = 0x60 then shiftResult (fun a count => a <<< count) a b
  else if op = 0x70 then shiftResult (fun a count => a >>> count) a b
  else if op = 0x80 then some (-a)
  else if op = 0x90 then if b = 0 then none else some (a % b)
  else if op = 0xA0 then some (a ^^^ b)
  else if op = 0xB0 then some b
  else if op = 0xC0 then shiftResult (fun a count => a.sshiftRight count) a b
  else none

/-- Whether the condition of an operation code holds for two operands. -/
def conditionResult {n : Nat} (op : UInt8) (a b : BitVec n) : Option Bool :=
  if op = 0x10 then some (a == b)
  else if op = 0x20 then some (b.ult a)
  else if op = 0x30 then some (b.ule a)
  else if op = 0x40 then some (a &&& b != 0)
  else if op = 0x50 then some (a != b)
  else if op = 0x60 then some (b.slt a)
  else if op = 0x70 then some (b.sle a)
  else if op = 0xA0 then some (a.ult b)
  else if op = 0xB0 then some (a.ule b)
  else if op = 0xC0 then some (a.slt b)
  else if op = 0xD0 then some (a.sle b)
  else none

/-- The low bytes of a value in little or in big order, the rest cleared. -/
def orderedBytes (big : Bool) (count : Nat) (a : BitVec 64) : BitVec 64 :=
  let bytes := Bytes.littleEndian count a.toNat
  BitVec.ofNat 64 (Bytes.value (if big then bytes.reverse else bytes))

/-- The result of a byte order conversion of so many bits. -/
def conversionResult (big : Bool) (bits : Int32) (a : BitVec 64) : Option (BitVec 64) :=
  if bits = 16 then some (orderedBytes big 2 a)
  else if bits = 32 then some (orderedBytes big 4 a)
  else if bits = 64 then some (orderedBytes big 8 a)
  else none

namespace Insn

/-- The second operand: a register, or the sign-extended immediate. -/
def source (i : Insn) (regs : Registers) : Option (BitVec 64) :=
  if i.fromRegister then (VReg.ofIndex? i.src).map regs else some (BitVec.ofInt 64 i.imm.toInt)

/-- The result of a 64-bit arithmetic slot. -/
def result64 (i : Insn) (regs : Registers) (a : BitVec 64) : Option (BitVec 64) :=
  if i.op = 0x80 then some (-a)
  else (i.source regs).bind fun b => arithmeticResult i.op a b

/-- The result of a 32-bit arithmetic slot. -/
def result32 (i : Insn) (regs : Registers) (a : BitVec 64) : Option (BitVec 64) :=
  if i.op = 0xD0 then conversionResult i.fromRegister i.imm a
  else if i.op = 0x80 then some ((-a.setWidth 32).setWidth 64)
  else (i.source regs).bind fun b =>
    (arithmeticResult i.op (a.setWidth 32) (b.setWidth 32)).map fun v => v.setWidth 64

/-- Whether a conditional jump slot jumps. -/
def jumps (i : Insn) (regs : Registers) : Option Bool := do
  let a ← (VReg.ofIndex? i.dst).map regs
  let b ← i.source regs
  if i.cls = 5 then conditionResult i.op a b
  else conditionResult i.op (a.setWidth 32) (b.setWidth 32)

end Insn

/-- What a slot leads to. -/
inductive Event where
  /-- The program goes on at a slot with these registers. -/
  | goto (slot : Nat) (regs : Registers)
  /-- The program ends with a value. -/
  | exit (value : BitVec 64)

namespace Program

/-- Go on at a distance behind a slot. -/
def jumpFrom (slot : Nat) (off : Int16) (regs : Registers) : Option Event :=
  if 0 ≤ (slot : Int) + 1 + off.toInt then some (.goto ((slot : Int) + 1 + off.toInt).toNat regs)
  else none

/-- Interpret one slot. -/
def interpretSlot (p : Program) (slot : Nat) (regs : Registers) : Option Event := do
  let i ← p.insns[slot]?
  if i.isWideLoad then
    let next ← p.insns[slot + 1]?
    let dst ← VReg.ofIndex? i.dst
    some (.goto (slot + 2) (regs.set dst (next.imm.toBitVec ++ i.imm.toBitVec)))
  else if i.cls = 7 then
    let dst ← VReg.ofIndex? i.dst
    let v ← i.result64 regs (regs dst)
    some (.goto (slot + 1) (regs.set dst v))
  else if i.cls = 4 then
    let dst ← VReg.ofIndex? i.dst
    let v ← i.result32 regs (regs dst)
    some (.goto (slot + 1) (regs.set dst v))
  else if i.cls = 5 ∧ i.op = 0x00 then jumpFrom slot i.off regs
  else if i.cls = 5 ∧ i.op = 0x90 then some (.exit (regs .r0))
  else if i.cls = 5 ∨ i.cls = 6 then
    if ← i.jumps regs then jumpFrom slot i.off regs else some (.goto (slot + 1) regs)
  else none

/-- Interpret a program from a slot on, for so many slots at most. -/
def interpret (p : Program) : Nat → Nat → Registers → Option (BitVec 64)
  | 0, _, _ => none
  | limit + 1, slot, regs =>
    match p.interpretSlot slot regs with
    | some (.goto slot regs) => p.interpret limit slot regs
    | some (.exit value) => some value
    | none => none

end Program

end NativeForge.Virtual
