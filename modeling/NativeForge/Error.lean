import NativeForge.Failure
import NativeForge.Text.Hex

/-!
# Causes of failure and their wording

Every reported failure is a value that says what went wrong and with which numbers; the wording
is in `Error.message` alone. Four kinds are told apart: a number that does not fit its field,
memory that could not be had, a broken promise of the caller or of the generator itself, and a
request that is not supported.
-/

namespace NativeForge

/-- Why image memory could not be had or written. -/
inductive MemoryError where
  | allocationFailed
  | protectionFailed
  | invalidSize
deriving DecidableEq, Repr

/-- The wording of a memory failure. -/
def MemoryError.message : MemoryError → String
  | .allocationFailed => "memory allocation failed"
  | .protectionFailed => "memory protection change failed"
  | .invalidSize => "invalid memory size"

/-- A number that has to fit a field of fixed width. -/
inductive Quantity where
  | jumpDisplacement
  | branchDisplacement
  | callDisplacement
  | patchTarget
  | tailCallKey
  | exceptionDelta
  | trampolineCall
  | dispatcherJump
deriving DecidableEq, Repr

/-- The wording of a quantity. -/
def Quantity.message : Quantity → String
  | .jumpDisplacement => "jump displacement"
  | .branchDisplacement => "conditional jump displacement"
  | .callDisplacement => "call displacement"
  | .patchTarget => "patch target"
  | .tailCallKey => "tail call key"
  | .exceptionDelta => "exception table delta"
  | .trampolineCall => "trampoline call displacement"
  | .dispatcherJump => "dispatcher jump displacement"

/-- A broken promise: of the program handed in, or of the generator to itself. -/
inductive Defect where
  /-- A program without instructions. -/
  | emptyProgram
  /-- The offset map has not one entry per instruction and one for the end. -/
  | offsetMapLength
  /-- A register number that names no virtual register. -/
  | invalidRegister (index : UInt8)
  /-- An operation code that means nothing. -/
  | unknownOpcode (code : UInt8)
  /-- A 64-bit immediate load without its second slot. -/
  | truncatedWideLoad
  /-- A fault-tolerant load into a register that cannot be cleared. -/
  | probeDestination (register : String)
  /-- The retry branch of an atomic loop does not reach its start. -/
  | atomicLoopTooLong
  /-- A jump to a slot that the program does not have. -/
  | jumpLeavesProgram (index : Nat) (target : Int)
  /-- A padded jump shrank by an amount that no jump form explains. -/
  | unexpectedPadding (count : Int) (index : Nat)
  /-- A call of a helper that has no address. -/
  | unresolvedHelper (id : Int32) (index : Nat)
  /-- A direct tail call whose descriptor does not exist. -/
  | missingDescriptor (id : Int32)
  /-- An instruction longer than the configured limit. -/
  | instructionTooLong (index size limit : Nat)
  /-- A branch around a tail call that does not fit one byte. -/
  | tailCallBranch (rel : Int)
  /-- The offset map still changed in the last pass allowed. -/
  | notConverged (passes : Nat)
  /-- The final pass had another length than the passes before it. -/
  | finalLength (size converged : Nat)
  /-- The final pass moved an instruction. -/
  | finalOffsets
  /-- The fault-tolerant loads emitted are not those of the program. -/
  | probeCount (emitted declared : Nat)
  /-- A direct tail call whose descriptor disappeared. -/
  | lostDescriptor
  /-- Sub-program calls without a target in the extra pass. -/
  | unresolvedSubprograms (count : Nat)
  /-- A new tail-call site does not hold what was emitted. -/
  | siteNotFresh
  /-- A tracked tail-call site does not hold what its table says. -/
  | siteOutOfSync (ip : Address)
  /-- A live patch of an image that is not executable. -/
  | imageNotInstalled
  /-- A live patch that reaches over the end of its image. -/
  | siteOutsideImage (offset : Nat)
  /-- A fault-tolerant load whose length does not fit its fixup. -/
  | fixupLength (size : Nat)
  /-- The branch around a trampoline program does not fit one byte. -/
  | trampolineSkip
  /-- A dispatcher image that is not aligned. -/
  | dispatcherAlignment
  /-- A dispatcher that changed its length when it got its address. -/
  | dispatcherLength (sized actual : Nat)
deriving DecidableEq, Repr

/-- The wording of a broken promise. -/
def Defect.message : Defect → String
  | .emptyProgram => "empty program"
  | .offsetMapLength => "offset map does not match program length"
  | .invalidRegister index => s!"invalid register r{index.toNat}"
  | .unknownOpcode code => s!"unknown opcode {Text.Hex.padded 2 code.toNat}"
  | .truncatedWideLoad => "truncated 64-bit immediate load"
  | .probeDestination register => s!"probe load into {register} has no fault fixup slot"
  | .atomicLoopTooLong => "atomic retry loop too long"
  | .jumpLeavesProgram index target => s!"jump from {index} to {target} leaves program"
  | .unexpectedPadding count index => s!"unexpected jump padding of {count} bytes at {index}"
  | .unresolvedHelper id index => s!"unresolved helper {id.toInt} at {index}"
  | .missingDescriptor id => s!"tail call through missing descriptor {id.toInt}"
  | .instructionTooLong index size limit =>
    s!"instruction {index} emitted {size} bytes, limit {limit}"
  | .tailCallBranch rel => s!"tail call branch of {rel} bytes"
  | .notConverged passes => s!"image did not converge after {passes} passes"
  | .finalLength size converged => s!"final pass length {size} != converged length {converged}"
  | .finalOffsets => "final pass moved instruction offsets"
  | .probeCount emitted declared => s!"emitted {emitted} probe loads, program has {declared}"
  | .lostDescriptor => "direct tail call lost its descriptor"
  | .unresolvedSubprograms count => s!"{count} sub-program calls still unresolved in extra pass"
  | .siteNotFresh => "fresh tail call site does not hold placeholder"
  | .siteOutOfSync ip => s!"tail call site {Text.Hex.ofNat ip.toNat} out of sync with table"
  | .imageNotInstalled => "live patch on an image that is not installed"
  | .siteOutsideImage offset => s!"patch site {Text.Hex.ofNat offset} outside image"
  | .fixupLength size => s!"probe load of {size} bytes cannot be encoded in fixup"
  | .trampolineSkip => "trampoline skip branch too long"
  | .dispatcherAlignment => "dispatcher image is not 16-byte aligned"
  | .dispatcherLength sized actual => s!"dispatcher length changed from {sized} to {actual}"

/-- A request that is well formed and not supported. -/
inductive Unsupported where
  | argumentCount (count : Nat)
  | argumentSize (size : UInt8)
  | returnHookWithoutCall
  | entryReturnWithCall
deriving DecidableEq, Repr

/-- The wording of an unsupported request. -/
def Unsupported.message : Unsupported → String
  | .argumentCount count => s!"{count} arguments, at most 6 fit in registers"
  | .argumentSize size => s!"argument of {size.toNat} bytes"
  | .returnHookWithoutCall => "fmod_ret programs without the original call"
  | .entryReturnWithCall => "fentry return value and original call are exclusive"

/-- A reported cause of failure. -/
inductive Error where
  /-- A number does not fit its field. -/
  | outOfRange (quantity : Quantity) (value : Int)
  /-- Image memory could not be had or written. -/
  | outOfMemory (cause : MemoryError)
  /-- A broken promise. -/
  | internal (defect : Defect)
  /-- A request that is not supported. -/
  | notSupported (request : Unsupported)
deriving DecidableEq, Repr

/-- The wording of a cause; an out-of-range number is shown as a 64-bit word. -/
def Error.message : Error → String
  | .outOfRange quantity value =>
    s!"{quantity.message} out of range: {Text.Hex.ofSigned value}"
  | .outOfMemory cause => s!"out of memory: {cause.message}"
  | .internal defect => s!"internal error: {defect.message}"
  | .notSupported request => s!"not supported: {request.message}"

/-- Stop with a broken promise. -/
def defect {α : Type} (d : Defect) : Result Error α := report (.internal d)

/-- Stop with a number that does not fit its field. -/
def outOfRange {α : Type} (quantity : Quantity) (value : Int) : Result Error α :=
  report (.outOfRange quantity value)

end NativeForge
