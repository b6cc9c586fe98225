import NativeForge.X64.Assembler
import NativeForge.Virtual.Program
import NativeForge.Error

/-!
# Stack frames

The frame of a compiled program: its stack area rounded up to eight bytes, the tail-call counter,
and the registers it has to restore. The prologue builds the frame, the epilogue and the tail-call
teardown take it down, all from the same description.
-/

namespace NativeForge

open X64 Virtual

/-- The shape of a program's stack frame. -/
structure Frame where
  /-- Bytes of stack the program uses. -/
  stackDepth : UInt32
  /-- Registers to restore, in the order of saving. -/
  saved : List VReg
  /-- The frame carries a tail-call counter. -/
  counted : Bool
  /-- The program is called by another sub-program. -/
  isSubprogram : Bool
deriving DecidableEq, Repr

namespace Frame

/-- The frame of a program: a register is saved if some slot names it in either field. -/
def ofProgram (p : Program) : Frame where
  stackDepth := p.stackDepth
  saved := VReg.calleeSaved.filter fun r =>
    p.insns.any fun i => i.dst.toNat == r.number || i.src.toNat == r.number
  counted := p.tailCallReachable || p.insns.any Insn.isTailCall
  isSubprogram := p.isSubprogram

/-- The stack area rounded up to a multiple of eight, checked. -/
def roundedDepth {ε : Type} (f : Frame) : Result ε UInt32 :=
  if roundUp f.stackDepth.toNat 8 < UInt32.size then .ok (UInt32.ofNat (roundUp f.stackDepth.toNat 8))
  else crash

/-- Displacement of the tail-call counter from the frame pointer, for a rounded depth. The counter
is the upper half of the slot that the prologue pushes. -/
def counterOffset (depth : UInt32) : Int32 := -4 - depth.toInt32

/-- Save the registers to restore. -/
def pushes (f : Frame) : List Instr := f.saved.map fun r => .push r.native

/-- Restore the saved registers, last one first. -/
def pops (f : Frame) : List Instr := f.saved.reverse.map fun r => .pop r.native

/-- Build the frame. The first eleven bytes have the same layout in every program: a patchable
site, the counter or two bytes that do nothing, and the frame pointer. -/
def prologue (f : Frame) (depth : UInt32) : List Instr :=
  nops 5 ++
  (if f.counted && !f.isSubprogram then [.alu .xor .narrow .rax .rax] else nops 2) ++
  [.push .rbp, .mov .wide .rbp .rsp] ++
  (if f.stackDepth = 0 then [] else [.aluImm .sub .wide .rsp (.dword depth.toInt32)]) ++
  (if f.counted then [.push .rax] else []) ++
  f.pushes

/-- Take the frame down and return. -/
def epilogue (f : Frame) : List Instr := f.pops ++ [.leave, .ret]

/-- Take the frame down for a tail call: saved registers, counter slot, stack area. -/
def teardown (f : Frame) (depth : UInt32) : List Instr :=
  f.pops ++ [.pop .rax] ++
  (if f.stackDepth = 0 then [] else [.aluImm .add .wide .rsp (.dword depth.toInt32)])

end Frame

end NativeForge
