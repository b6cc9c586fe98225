import NativeForge.X64.Assembler
import NativeForge.Virtual.Operation

/-!
# Memory accesses in native instructions

Loads, stores and atomic operations. A fetching operation without a native form is a loop around
a compare-and-exchange; since that instruction works on the accumulator, the accumulator's own
value waits in a scratch register meanwhile.
-/

namespace NativeForge.Lowering

open X64 Virtual

/-- The displacement of a 16-bit offset. -/
def displacement (off : Int16) : SignedField := .shortest off.toInt32

/-- Load from memory. -/
def load (ext : Extension) (width : Width) (dst base : VReg) (off : Int16) : Instr :=
  match ext with
  | .zero => .load width dst.native base.native (displacement off)
  | .sign => .loadSigned width dst.native base.native (displacement off)

/-- Store a register. -/
def store (width : Width) (base src : VReg) (off : Int16) : Instr :=
  .store width base.native src.native (displacement off)

/-- Store an immediate. -/
def storeImm (width : Width) (base : VReg) (off : Int16) (imm : Int32) : Instr :=
  .storeImm width base.native (displacement off) imm

/-- An atomic operation with a native form. A successful 32-bit exchange leaves the accumulator
unwritten, so its upper half is cleared afterwards. -/
def atomic (op : LockedOp) (size : OpSize) (base src : VReg) (off : Int16) : List Instr :=
  .locked op size base.native src.native (displacement off) ::
    (if op = .compareExchange ∧ size = .narrow then [.mov .narrow .rax .rax] else [])

/-- The register of an operand while the accumulator's value waits in the scratch register. -/
def besideAccumulator (r : VReg) : Reg := if r = .r0 then VReg.ax.native else r.native

/-- One attempt of a fetching operation: read, combine, exchange if nobody intervened. -/
def fetchAttempt (op : AluOp) (size : OpSize) (base src : VReg) (off : Int16) : List Instr :=
  [.load size.width .rax (besideAccumulator base) (displacement off),
    .mov size VReg.aux.native .rax,
    .alu op size VReg.aux.native (besideAccumulator src),
    .locked .compareExchange size (besideAccumulator base) VReg.aux.native (displacement off)]

/-- A fetching operation: attempts until one of them succeeds, then the old value goes to the
source register. -/
def fetch (op : AluOp) (size : OpSize) (base src : VReg) (off : Int16) :
    Result Error (List Instr) :=
  let attempt := fetchAttempt op size base src off
  let rel : Int := -(codeSize attempt + 2)
  if fitsInt8 rel then
    .ok ([.mov .wide VReg.ax.native .rax] ++ attempt ++
      [.jcc .notEqual (.byte (Int8.ofInt rel)),
        .mov size (besideAccumulator src) .rax, .mov .wide .rax VReg.ax.native])
  else defect .atomicLoopTooLong

end NativeForge.Lowering
