import NativeForge.Frame
import NativeForge.TailCall.Site

/-!
# Tail-call sequences

Both forms count the tail calls of a chain in the caller's frame, take the frame down and jump
past the first bytes of the target, so that the counter survives. The indirect form looks its
target up in a program array; the direct form jumps through a patchable site. Every branch around
the jump leads to the end of the sequence.
-/

namespace NativeForge.TailCall

open X64 Target

/-- A branch of one byte over the given number of bytes. -/
def shortBranch (cond : Cond) (distance : Nat) : Result Error Instr :=
  if fitsInt8 distance then .ok (.jcc cond (.byte (Int8.ofInt distance)))
  else defect (.tailCallBranch distance)

/-- Bytes of a branch with a one-byte displacement. -/
def shortBranchSize : Nat := 2

/-- Compare the counter with its limit. -/
def checkCount (counter : Int32) : List Instr :=
  [.load .word .rax .rbp (.dword counter),
    .cmpImm .narrow .rax (.byte (Int8.ofNat tailCallLimit))]

/-- Count this tail call. -/
def bumpCount (counter : Int32) : List Instr :=
  [.aluImm .add .narrow .rax (.byte 1), .store .word .rbp .rax (.dword counter)]

/-- Tail call through the program array in `rsi` at the index in `rdx`. Execution falls through
when the index is out of bounds, the slot is empty or the counter is exhausted. -/
def indirect (frame : Frame) (depth : UInt32) (abi : Abi) : Result Error (List Instr) := do
  let counter := Frame.counterOffset depth
  let bounds : List Instr :=
    [.mov .narrow .rdx .rdx, .cmpMem .narrow .rsi .rdx (.shortest abi.arrayCountOffset)]
  let lookup : List Instr :=
    [.loadIndexed .rcx .rsi .rdx abi.arraySlotsOffset, .test .wide .rcx .rcx]
  let transfer : List Instr :=
    frame.teardown depth ++
    [.load .double .rcx .rcx (.shortest abi.programCodeOffset),
      .aluImm .add .wide .rcx (.byte (Int8.ofNat tailCallSkip)), .jmpReg .rcx]
  let overTransfer := codeSize transfer
  let overCount := codeSize (bumpCount counter ++ lookup) + shortBranchSize + overTransfer
  let overBounds := codeSize (checkCount counter) + shortBranchSize + overCount
  let outOfBounds ← shortBranch .belowEqual overBounds
  let exhausted ← shortBranch .aboveEqual overCount
  let empty ← shortBranch .equal overTransfer
  return bounds ++ [outOfBounds] ++ checkCount counter ++ [exhausted] ++
    bumpCount counter ++ lookup ++ [empty] ++ transfer

/-- Tail call to the table slot of a descriptor. The sequence is emitted as for an empty slot: the
bypass jumps around the teardown and the target site does nothing. -/
def direct (frame : Frame) (depth : UInt32) (descriptor : Nat) :
    Result Error (List Instr × DirectSite) := do
  let counter := Frame.counterOffset depth
  let teardown := frame.teardown depth
  let overTarget := codeSize teardown + siteSize
  let exhausted ← shortBranch .aboveEqual (codeSize (bumpCount counter) + siteSize + overTarget)
  let before := checkCount counter ++ [exhausted] ++ bumpCount counter
  let bypassOffset := codeSize before
  let code := before ++ [.jmp (.dword (Int32.ofNat overTarget))] ++ teardown ++ [.nop 4]
  return (code, ⟨descriptor, bypassOffset, bypassOffset + siteSize + codeSize teardown⟩)

end NativeForge.TailCall
