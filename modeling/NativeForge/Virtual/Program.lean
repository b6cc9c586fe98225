import NativeForge.TailCall.Site
import NativeForge.Virtual.Operation

/-!
# Programs

A program is a list of instruction slots together with what the generator has to know about its
frame and its tail calls.
-/

namespace NativeForge.Virtual

/-- A virtual program. -/
structure Program where
  /-- Name in reports. -/
  name : String
  /-- Instruction slots. -/
  insns : List Insn
  /-- Bytes of stack used below the frame pointer. -/
  stackDepth : UInt32 := 0
  /-- The program is called by another sub-program. -/
  isSubprogram : Bool := false
  /-- Some path from the program reaches a tail call. -/
  tailCallReachable : Bool := false
  /-- Direct tail calls, in the order of their numbers. -/
  descriptors : List TailCall.Descriptor := []
deriving Repr

namespace Program

/-- The program that a byte string holds, if its length is a multiple of eight. -/
def ofByteString? (name : String) (bytes : List UInt8) : Option Program :=
  (Insn.ofByteString? bytes).map fun insns => { name, insns }

/-- The number of slots. -/
def size (p : Program) : Nat := p.insns.length

/-- The number of slots that hold a fault-tolerant load. -/
def probeCount (p : Program) : Nat := p.insns.countP Insn.isProbeLoad

/-- The operations of the program in order. -/
def steps (p : Program) : List Step := stepsFrom 0 p.insns

end Program

end NativeForge.Virtual
