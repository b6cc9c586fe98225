import Mathlib.Algebra.Group.Int.Defs
import Mathlib.Algebra.Group.Nat.Defs
import NativeForge.Proofs.Decoding

/-!
# What native instructions do

The state of the processor that compiled code can see: sixteen registers, the status flags, and
memory of which some bytes may be read and written. `Instr.exec` is the effect of one instruction.
It has no result where the instruction faults: at memory that is not there, at a division by zero
or with a quotient that is too large. It has none either at a 32-bit shift by a masked count of
zero, and a condition has no result while the flags are left undefined; nothing is said about what
the processor does there.
-/

namespace NativeForge

/-- The number of bits of an operand. -/
@[reducible]
def OpSize.bits : OpSize → Nat
  | .narrow => 32
  | .wide => 64

/-- The result of an arithmetic or bitwise operation. -/
def AluOp.apply {n : Nat} (op : AluOp) (a b : BitVec n) : BitVec n :=
  match op with
  | .add => a + b
  | .sub => a - b
  | .and => a &&& b
  | .or => a ||| b
  | .xor => a ^^^ b

/-- The result of a shift by a count that is less than the width. -/
def ShiftOp.apply {n : Nat} (op : ShiftOp) (a : BitVec n) (count : Nat) : BitVec n :=
  match op with
  | .left => a <<< count
  | .right => a >>> count
  | .arithmetic => a.sshiftRight count

/-- A word with its bytes in the opposite order. -/
def reverseWord {n : Nat} (bytes : Nat) (a : BitVec n) : BitVec n :=
  BitVec.ofNat n (Bytes.value (Bytes.littleEndian bytes a.toNat).reverse)

namespace X64

/-- The status flags that conditions read. -/
structure Flags where
  /-- An unsigned result did not fit. -/
  carry : Bool
  /-- The result is zero. -/
  zero : Bool
  /-- The result is negative. -/
  sign : Bool
  /-- A signed result did not fit. -/
  overflow : Bool
deriving DecidableEq, Repr

namespace Flags

/-- The flags of a bitwise result. -/
def ofLogic {n : Nat} (a : BitVec n) : Flags := ⟨false, a == 0, a.msb, false⟩

/-- The flags of a sum. -/
def ofAdd {n : Nat} (a b : BitVec n) : Flags :=
  ⟨decide (2 ^ n ≤ a.toNat + b.toNat), a + b == 0, (a + b).msb,
    decide ((a + b).toInt ≠ a.toInt + b.toInt)⟩

/-- The flags of a difference. -/
def ofSub {n : Nat} (a b : BitVec n) : Flags :=
  ⟨decide (a.toNat < b.toNat), a - b == 0, (a - b).msb,
    decide ((a - b).toInt ≠ a.toInt - b.toInt)⟩

/-- The flags of an arithmetic or bitwise operation. -/
def ofAlu {n : Nat} (op : AluOp) (a b : BitVec n) : Flags :=
  match op with
  | .add => ofAdd a b
  | .sub => ofSub a b
  | .and => ofLogic (a &&& b)
  | .or => ofLogic (a ||| b)
  | .xor => ofLogic (a ^^^ b)

end Flags

/-- Whether a condition holds under the flags. -/
def Cond.holds (f : Flags) : Cond → Bool
  | .below => f.carry
  | .aboveEqual => !f.carry
  | .equal => f.zero
  | .notEqual => !f.zero
  | .belowEqual => f.carry || f.zero
  | .above => !(f.carry || f.zero)
  | .less => f.sign != f.overflow
  | .greaterEqual => f.sign == f.overflow
  | .lessEqual => f.zero || f.sign != f.overflow
  | .greater => !(f.zero || f.sign != f.overflow)

/-- Memory as the processor sees it. -/
structure Memory where
  /-- The byte at an address. -/
  byte : BitVec 64 → UInt8
  /-- The byte at the address may be read and written. -/
  mapped : BitVec 64 → Bool

namespace Memory

/-- The bytes from an address on. -/
def read (m : Memory) (a : BitVec 64) (count : Nat) : List UInt8 :=
  (List.range count).map fun k => m.byte (a + BitVec.ofNat 64 k)

/-- Put bytes at an address. -/
def write (m : Memory) (a : BitVec 64) (bytes : List UInt8) : Memory :=
  { m with byte := fun x => (bytes[(x - a).toNat]?).getD (m.byte x) }

/-- All bytes of a range may be read and written. -/
def allows (m : Memory) (a : BitVec 64) (count : Nat) : Bool :=
  (List.range count).all fun k => m.mapped (a + BitVec.ofNat 64 k)

end Memory

/-- The state of the processor. -/
structure State where
  /-- The registers. -/
  regs : Reg → BitVec 64
  /-- The flags, unless the last instruction that changed them left some of them undefined. -/
  flags : Option Flags
  /-- Memory. -/
  mem : Memory

namespace State

/-- Set a register. -/
def setReg (s : State) (r : Reg) (v : BitVec 64) : State :=
  { s with regs := fun x => if x = r then v else s.regs x }

/-- Set the flags. -/
def setFlags (s : State) (f : Option Flags) : State := { s with flags := f }

/-- Set memory. -/
def setMem (s : State) (m : Memory) : State := { s with mem := m }

/-- The low part of a register. -/
def value (s : State) (size : OpSize) (r : Reg) : BitVec size.bits := (s.regs r).setWidth size.bits

/-- Set a register; a 32-bit result clears the upper half. -/
def put (s : State) (size : OpSize) (r : Reg) (v : BitVec size.bits) : State :=
  s.setReg r (v.setWidth 64)

/-- The address at a displacement from a register. -/
def address (s : State) (base : Reg) (disp : Int) : BitVec 64 := s.regs base + BitVec.ofInt 64 disp

/-- Read a number of some bytes. -/
def load (s : State) (a : BitVec 64) (width : Width) : Option Nat :=
  if s.mem.allows a width.bytes then some (Bytes.value (s.mem.read a width.bytes)) else none

/-- Write a number in some bytes. -/
def store (s : State) (a : BitVec 64) (width : Width) (v : Nat) : Option State :=
  if s.mem.allows a width.bytes then
    some (s.setMem (s.mem.write a (Bytes.littleEndian width.bytes v)))
  else none

/-- Push a word. -/
def push (s : State) (v : BitVec 64) : Option State :=
  (s.store (s.regs .rsp - 8) .double v.toNat).map fun t => t.setReg .rsp (s.regs .rsp - 8)

/-- Pop a word to a register. -/
def pop (s : State) (r : Reg) : Option State :=
  (s.load (s.regs .rsp) .double).map fun v =>
    (s.setReg .rsp (s.regs .rsp + 8)).setReg r (BitVec.ofNat 64 v)

/-- Combine a register with a value. -/
def alu (s : State) (op : AluOp) (size : OpSize) (r : Reg) (v : BitVec size.bits) : State :=
  (s.put size r (op.apply (s.value size r) v)).setFlags (some (.ofAlu op (s.value size r) v))

/-- Shift a register. The processor masks the count; a count of zero changes nothing. -/
def shift (s : State) (op : ShiftOp) (size : OpSize) (r : Reg) (count : Nat) : Option State :=
  if count % size.bits = 0 then if size.isWide then some s else none
  else some ((s.put size r (op.apply (s.value size r) (count % size.bits))).setFlags none)

/-- Multiply the accumulator by a register into both halves of the result. -/
def multiply (s : State) (size : OpSize) (src : Reg) : State :=
  let product := (s.value size .rax).toNat * (s.value size src).toNat
  ((s.put size .rax (BitVec.ofNat _ product)).put size .rdx
    (BitVec.ofNat _ (product / 2 ^ size.bits))).setFlags none

/-- Divide both halves of the dividend by a register. -/
def divide (s : State) (size : OpSize) (src : Reg) : Option State :=
  let divisor := (s.value size src).toNat
  let dividend := (s.value size .rdx).toNat * 2 ^ size.bits + (s.value size .rax).toNat
  if divisor = 0 ∨ 2 ^ size.bits ≤ dividend / divisor then none
  else some (((s.put size .rax (BitVec.ofNat _ (dividend / divisor))).put size .rdx
    (BitVec.ofNat _ (dividend % divisor))).setFlags none)

/-- An atomic operation on a cell. -/
def locked (s : State) (op : LockedOp) (size : OpSize) (a : BitVec 64) (src : Reg) :
    Option State := do
  let old := BitVec.ofNat size.bits (← s.load a size.width)
  let v := s.value size src
  match op with
  | .alu op =>
    let t ← s.store a size.width (op.apply old v).toNat
    return t.setFlags (some (.ofAlu op old v))
  | .fetchAdd =>
    let t ← s.store a size.width (old + v).toNat
    return (t.put size src old).setFlags (some (.ofAdd old v))
  | .exchange =>
    let t ← s.store a size.width v.toNat
    return t.put size src old
  | .compareExchange =>
    let t := s.setFlags (some (.ofSub (s.value size .rax) old))
    if s.value size .rax = old then t.store a size.width v.toNat
    else return t.put size .rax old

end State

/-- Where the processor goes on behind an instruction. -/
inductive Control where
  /-- At the next instruction. -/
  | next
  /-- At a distance from the end of the instruction. -/
  | jump (distance : Int)
  /-- In a function at a distance from the end of the instruction. -/
  | call (distance : Int)
  /-- At an address. -/
  | goto (target : BitVec 64)
  /-- At the caller. -/
  | ret
deriving DecidableEq, Repr

/-- Go on at the next instruction. -/
def State.next (s : State) : Option (State × Control) := some (s, .next)

/-- The effect of an instruction. -/
def Instr.exec (i : Instr) (s : State) : Option (State × Control) :=
  match i with
  | .movSigned dst imm => (s.setReg dst (BitVec.ofInt 64 imm.toInt)).next
  | .movZero dst imm => (s.put .narrow dst (BitVec.ofInt 32 imm.toInt)).next
  | .movWide dst imm => (s.setReg dst imm.toBitVec).next
  | .mov size dst src => (s.put size dst (s.value size src)).next
  | .zeroExtendHalf dst => (s.setReg dst (((s.regs dst).setWidth 16).setWidth 64)).next
  | .rotateHalf dst =>
    let half := ((s.regs dst).setWidth 16).rotateLeft 8
    ((s.setReg dst ((s.regs dst >>> 16 <<< 16) ||| half.setWidth 64)).setFlags none).next
  | .swapBytes size dst => (s.put size dst (reverseWord size.width.bytes (s.value size dst))).next
  | .load width dst base disp => do
    let v ← s.load (s.address base disp.value) width
    (s.setReg dst (BitVec.ofNat 64 v)).next
  | .loadSigned width dst base disp => do
    let v ← s.load (s.address base disp.value) width
    (s.setReg dst ((BitVec.ofNat (8 * width.bytes) v).signExtend 64)).next
  | .loadIndexed dst base index disp => do
    let v ← s.load (s.address base disp.toInt + 8 * s.regs index) .double
    (s.setReg dst (BitVec.ofNat 64 v)).next
  | .store width base src disp => do
    (← s.store (s.address base disp.value) width (s.regs src).toNat).next
  | .storeImm width base disp imm => do
    (← s.store (s.address base disp.value) width (BitVec.ofInt 64 imm.toInt).toNat).next
  | .lea dst base disp => (s.setReg dst (s.address base disp.value)).next
  | .locked op size base src disp => do
    (← s.locked op size (s.address base disp.value) src).next
  | .alu op size dst src => (s.alu op size dst (s.value size src)).next
  | .aluImm op size dst imm => (s.alu op size dst (BitVec.ofInt _ imm.value)).next
  | .aluAccumulator op size imm => (s.alu op size .rax (BitVec.ofInt _ imm.toInt)).next
  | .neg size dst =>
    ((s.put size dst (-s.value size dst)).setFlags (some (.ofSub 0 (s.value size dst)))).next
  | .shiftOne op size dst => do (← s.shift op size dst 1).next
  | .shiftImm op size dst count => do (← s.shift op size dst count.toNat).next
  | .shiftCount op size dst => do (← s.shift op size dst ((s.regs .rcx).toNat % 256)).next
  | .mul size src => (s.multiply size src).next
  | .div size src => do (← s.divide size src).next
  | .cmp size dst src => (s.setFlags (some (.ofSub (s.value size dst) (s.value size src)))).next
  | .cmpImm size dst imm =>
    (s.setFlags (some (.ofSub (s.value size dst) (BitVec.ofInt _ imm.value)))).next
  | .cmpMem size base src disp => do
    let v ← s.load (s.address base disp.value) size.width
    (s.setFlags (some (.ofSub (BitVec.ofNat _ v) (s.value size src)))).next
  | .cmpMemImm size base disp imm => do
    let v ← s.load (s.address base disp.value) size.width
    (s.setFlags (some (.ofSub (BitVec.ofNat size.bits v) (BitVec.ofInt _ imm.toInt)))).next
  | .test size dst src =>
    (s.setFlags (some (.ofLogic (s.value size dst &&& s.value size src)))).next
  | .testImm size dst imm =>
    (s.setFlags (some (.ofLogic (s.value size dst &&& BitVec.ofInt _ imm.toInt)))).next
  | .push reg => do (← s.push (s.regs reg)).next
  | .pop reg => do (← s.pop reg).next
  | .leave => do (← (s.setReg .rsp (s.regs .rbp)).pop .rbp).next
  | .ret => some (s, .ret)
  | .jmp rel => some (s, .jump rel.value)
  | .jcc cond rel =>
    s.flags.bind fun f => some (s, if cond.holds f then .jump rel.value else .next)
  | .call rel => some (s, .call rel.toInt)
  | .jmpReg reg => some (s, .goto (s.regs reg))
  | .nop _ => s.next

/-- Execute instructions that go on one behind the other. -/
def execAll : List Instr → State → Option State
  | [], s => some s
  | i :: rest, s =>
    match i.exec s with
    | some (t, .next) => execAll rest t
    | _ => none

/-- The instruction at an offset of the code, and the offset of the next one. -/
def fetch (code : List UInt8) (offset : Nat) : Option (Instr × Nat) :=
  (decode (code.drop offset)).map fun p => (p.1, code.length - p.2.length)

/-- One step of the processor in a piece of code, from an offset and a state to the next ones. The
code is left by calls, by jumps to an address and by returns. -/
def step (code : List UInt8) (offset : Nat) (s : State) : Option (Nat × State) := do
  let (i, next) ← fetch code offset
  let (t, control) ← i.exec s
  match control with
  | .next => some (next, t)
  | .jump distance => if 0 ≤ next + distance then some ((next + distance).toNat, t) else none
  | _ => none

/-- Some steps of the processor. -/
def run (code : List UInt8) : Nat → Nat → State → Option (Nat × State)
  | 0, offset, s => some (offset, s)
  | count + 1, offset, s => (step code offset s).bind fun p => run code count p.1 p.2

/-- The processor gets from one offset and state to others in the code. -/
def Reaches (code : List UInt8) (offset : Nat) (s : State) (offset' : Nat) (s' : State) : Prop :=
  ∃ count, run code count offset s = some (offset', s')

end X64

end NativeForge
