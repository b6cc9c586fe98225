import NativeForge.ExceptionTable
import NativeForge.Lowering.Arithmetic
import NativeForge.Lowering.Memory
import NativeForge.TailCall.Code
import NativeForge.Target.Config

/-!
# Emission passes

A pass turns every operation of a program into native instructions. Branch displacements come
from the offsets of the pass before, so passes are repeated until the offsets stay the same. With
padding, a jump that could be shorter than before is filled up with instructions that do nothing,
so that lengths only grow from then on.

`Pass.lower` gives the instructions of one operation as a `Fragment`; `Pass.place` puts the
fragments one behind the other; `PassOutput` collects bytes, offsets and sites from them.
-/

namespace NativeForge

open X64 Virtual

/-- A call instruction, as the resolver of call targets sees it. -/
structure CallSite where
  /-- Number of the slot. -/
  index : Nat
  /-- Immediate of the slot. -/
  id : Int32
  /-- The callee is another sub-program. -/
  subprogram : Bool
deriving DecidableEq, Repr

/-- What a pass works from. -/
structure Pass where
  /-- Number of slots of the program. -/
  slots : Nat
  /-- Number of tail-call descriptors of the program. -/
  descriptors : Nat
  /-- Frame of the program. -/
  frame : Frame
  /-- Facts about the target. -/
  abi : Target.Abi
  /-- Addresses of call targets. -/
  resolve : CallSite → Option Address
  /-- Offset of every slot and of the end, from the pass before. -/
  offsets : Array Nat
  /-- Address of the image, in the final pass. -/
  base : Option Address
  /-- Jumps keep their length. -/
  padding : Bool
  /-- Greatest length of one instruction. -/
  maxInsnSize : Nat
  /-- Room kept beyond the previous length. -/
  insnSafety : Nat

/-- The native instructions of one operation and what has to be remembered about them. -/
structure Fragment where
  /-- The instructions. -/
  code : List Instr
  /-- Register slot to clear, if the code is a fault-tolerant load. -/
  probe : Option UInt8 := none
  /-- Patchable fields, if the code is a direct tail call. -/
  direct : Option TailCall.DirectSite := none
  /-- The code is a call whose target is not known yet. -/
  pending : Bool := false
  /-- The code is the shared epilogue. -/
  epilogue : Bool := false
deriving DecidableEq, Repr

namespace Pass

/-- Offset of a slot in the pass before. -/
def offset (p : Pass) (index : Nat) : Nat := p.offsets.getD index 0

/-- Distance from the end of slot `index` to the slot that a jump names. -/
def jumpDistance (p : Pass) (index : Nat) (off : Int16) : Result Error Int :=
  let target : Int := index + 1 + off.toInt
  if target < 0 ∨ (p.offsets.size : Int) ≤ target then
    defect (.jumpLeavesProgram index target)
  else .ok ((p.offset target.toNat : Int) - p.offset (index + 1))

/-- Fill up a jump to its previous length. `emitted` bytes precede it in its slot, `reserved` bytes
follow, and only the differences between two jump forms are `allowed`. -/
def pad (p : Pass) (index emitted reserved : Nat) (allowed : List Int) :
    Result Error (List Instr) :=
  if p.padding then
    let count : Int := (p.offset (index + 1) : Int) - p.offset index - emitted - reserved
    if count ∈ allowed then .ok (nops count.toNat)
    else defect (.unexpectedPadding count index)
  else .ok []

/-- A jump over a distance in its shortest form; a jump over nothing may be left out. -/
def jump (p : Pass) (index : Nat) (distance : Int) (mayVanish : Bool) :
    Result Error (List Instr) :=
  if distance = 0 ∧ mayVanish then p.pad index 0 0 [0, 2, 5]
  else if fitsInt8 distance then do
    let filler ← p.pad index 0 2 [0, 3]
    return filler ++ [.jmp (.byte (Int8.ofInt distance))]
  else if fitsInt32 distance then .ok [.jmp (.dword (Int32.ofInt distance))]
  else outOfRange .jumpDisplacement distance

/-- The native condition of a conditional jump. -/
def nativeCond : Condition → Cond
  | .equal => .equal
  | .notEqual => .notEqual
  | .anySet => .notEqual
  | .greater => .above
  | .less => .below
  | .greaterEqual => .aboveEqual
  | .lessEqual => .belowEqual
  | .signedGreater => .greater
  | .signedLess => .less
  | .signedGreaterEqual => .greaterEqual
  | .signedLessEqual => .lessEqual

/-- Set the flags for a condition. Comparison with zero is a test of the register with itself. -/
def compare (cond : Condition) (size : OpSize) (dst : VReg) (src : Operand) : Instr :=
  match src with
  | .reg src =>
    if cond = .anySet then .test size dst.native src.native else .cmp size dst.native src.native
  | .imm v =>
    if cond = .anySet then .testImm size dst.native v
    else if v = 0 then .test size dst.native dst.native
    else .cmpImm size dst.native (.shortest v)

/-- A conditional jump in its shortest form. -/
def branch (p : Pass) (index : Nat) (cond : Condition) (size : OpSize) (dst : VReg)
    (src : Operand) (off : Int16) : Result Error (List Instr) := do
  let test := compare cond size dst src
  let distance ← p.jumpDistance index off
  if fitsInt8 distance then
    let filler ← p.pad index test.size 2 [0, 4]
    return test :: filler ++ [.jcc (nativeCond cond) (.byte (Int8.ofInt distance))]
  else if fitsInt32 distance then
    return [test, .jcc (nativeCond cond) (.dword (Int32.ofInt distance))]
  else outOfRange .branchDisplacement distance

/-- Leave the program: the first exit is the epilogue, later ones jump to it. -/
def exit (p : Pass) (index : Nat) (epilogue : Option Nat) : Result Error Fragment :=
  match epilogue with
  | none => .ok { code := p.frame.epilogue, epilogue := true }
  | some start => do
    let code ← p.jump index ((start : Int) - p.offset (index + 1)) false
    return { code := code }

/-- Hand the tail-call counter to a callee. -/
def passCounter (p : Pass) (depth : UInt32) : Result Error (List Instr) :=
  if p.frame.counted then do
    let negated ← signedWord32 (-depth.toInt32.toInt)
    let off ← signedWord32 (negated.toInt - 8)
    return [.load .double .rax .rbp (.dword off)]
  else .ok []

/-- Displacement of a call, `before` bytes into its slot. Without an address of the image or of the
target it is a placeholder. -/
def callDisplacement (p : Pass) (index before : Nat) (target : Option Address) :
    Result Error Int32 :=
  match target, p.base with
  | some target, some base => do
    let start ← base.plus (p.offset index)
    let ip ← start.plus before
    let next ← signedWord64 (ip.signed + 5)
    let rel ← signedWord64 (target.signed - next)
    if fitsInt32 rel then return Int32.ofInt rel else outOfRange .callDisplacement rel
  | _, _ => .ok 0

/-- A call. A helper needs an address; a sub-program may get its address later. -/
def call (p : Pass) (depth : UInt32) (index : Nat) (id : Int32) (subprogram : Bool) :
    Result Error Fragment := do
  let target := p.resolve ⟨index, id, subprogram⟩
  if target.isNone && !subprogram then defect (.unresolvedHelper id index)
  else
    let counter ← p.passCounter depth
    let rel ← p.callDisplacement index (codeSize counter) target
    return { code := counter ++ [.call rel], pending := target.isNone }

/-- A tail call: zero selects the indirect form, other numbers a descriptor, counted from one. -/
def tailCall (p : Pass) (depth : UInt32) (id : Int32) : Result Error Fragment :=
  if id = 0 then do
    let code ← TailCall.indirect p.frame depth p.abi
    return { code := code }
  else
    let number := id.toInt - 1
    if number < 0 ∨ (p.descriptors : Int) ≤ number then defect (.missingDescriptor id)
    else do
      let (code, site) ← TailCall.direct p.frame depth number.toNat
      return { code := code, direct := some site }

/-- The native instructions of an operation in slot `index`. -/
def lower (p : Pass) (depth : UInt32) (index : Nat) (epilogue : Option Nat) :
    Operation → Result Error Fragment
  | .alu op size dst src => .ok { code := Lowering.alu op size dst src }
  | .shift op size dst src => .ok { code := Lowering.shift op size dst src }
  | .move size dst src => .ok { code := Lowering.move size dst src }
  | .negate size dst => .ok { code := [.neg size dst.native] }
  | .multiply size dst src => .ok { code := Lowering.multiply size dst src }
  | .divide part size dst src => .ok { code := Lowering.divide part size dst src }
  | .convert order width dst => .ok { code := Lowering.convert order width dst }
  | .loadWide dst value => .ok { code := [loadImm64 dst.native value] }
  | .load ext width dst base off => .ok { code := [Lowering.load ext width dst base off] }
  | .probe ext width dst base off =>
    .ok { code := [Lowering.load ext width dst base off], probe := some (p.abi.slot dst.native) }
  | .storeImm width base off imm => .ok { code := [Lowering.storeImm width base off imm] }
  | .store width base src off => .ok { code := [Lowering.store width base src off] }
  | .atomic op size base src off => .ok { code := Lowering.atomic op size base src off }
  | .fetch op size base src off => do
    let code ← Lowering.fetch op size base src off
    return { code := code }
  | .jump off => do
    let distance ← if off = -1 then pure (-2) else p.jumpDistance index off
    let code ← p.jump index distance true
    return { code := code }
  | .branch cond size dst src off => do
    let code ← p.branch index cond size dst src off
    return { code := code }
  | .exit => p.exit index epilogue
  | .call id subprogram => p.call depth index id subprogram
  | .tailCall id => p.tailCall depth id

end Pass

/-- A fragment at its place in the code. -/
structure Placed where
  /-- Number of the first slot. -/
  index : Nat
  /-- How many slots the fragment stands for. -/
  slots : Nat
  /-- Offset of the fragment in the code. -/
  start : Nat
  /-- The fragment. -/
  fragment : Fragment
deriving DecidableEq, Repr

namespace Placed

/-- Offset of the end of the fragment. -/
def stop (f : Placed) : Nat := f.start + codeSize f.fragment.code

/-- The fault-tolerant load of the fragment. -/
def probe? (f : Placed) : Option ProbeSite :=
  f.fragment.probe.map fun slot => ⟨f.start, codeSize f.fragment.code, slot⟩

/-- The direct tail call of the fragment. -/
def direct? (f : Placed) : Option TailCall.DirectSite :=
  f.fragment.direct.map fun site => site.shift f.start

end Placed

/-- Lower the steps of a program one behind the other, from offset `start` on. -/
def Pass.place (p : Pass) (depth : UInt32) :
    List Step → Nat → Option Nat → Result Error (List Placed)
  | [], _, _ => .ok []
  | step :: rest, start, epilogue => do
    let operation ← (step.operation.mapError fun d => Failure.reported (Error.internal d))
    let fragment ← p.lower depth step.index epilogue operation
    let size := codeSize fragment.code
    if p.maxInsnSize < size then defect (.instructionTooLong step.index size p.maxInsnSize)
    else
      let tail ← p.place depth rest (start + size)
        (if fragment.epilogue then some start else epilogue)
      return ⟨step.index, step.slots, start, fragment⟩ :: tail

/-- What a pass gives. -/
structure PassOutput where
  /-- Bytes of the code. -/
  code : Array UInt8
  /-- Offset of every slot and of the end. -/
  offsets : Array Nat
  /-- Offset of the shared epilogue. -/
  epilogue : Option Nat
  /-- Fault-tolerant loads in order. -/
  probes : List ProbeSite
  /-- Direct tail calls in order. -/
  direct : List TailCall.DirectSite
  /-- Number of calls without a target. -/
  pending : Nat
deriving DecidableEq, Repr

/-- Collect the output of a pass from its prologue and its fragments. -/
def PassOutput.ofPlaced (prologue : List Instr) (placed : List Placed) : PassOutput where
  code := (encodeAll prologue ++ placed.flatMap fun f => encodeAll f.fragment.code).toArray
  offsets :=
    (codeSize prologue :: placed.flatMap fun f => List.replicate f.slots f.stop).toArray
  epilogue := (placed.find? fun f => f.fragment.epilogue).map Placed.start
  probes := placed.filterMap Placed.probe?
  direct := placed.filterMap Placed.direct?
  pending := placed.countP fun f => f.fragment.pending

/-- The largest buffer that can be had. -/
def bufferLimit : Nat := 0x8000_0000_0000_0000

/-- Run a pass over the steps of a program. -/
def Pass.run (p : Pass) (steps : List Step) : Result Error PassOutput :=
  if p.offsets.size ≠ p.slots + 1 then defect .offsetMapLength
  else if bufferLimit ≤ p.offset p.slots + p.maxInsnSize + p.insnSafety then crash
  else do
    let depth ← p.frame.roundedDepth
    let prologue := p.frame.prologue depth
    let placed ← p.place depth steps (codeSize prologue) none
    return .ofPlaced prologue placed

end NativeForge
