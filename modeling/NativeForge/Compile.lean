import NativeForge.Pass
import NativeForge.TailCall.Table

/-!
# Compilation

Passes are repeated until two of them agree on every offset. Then image memory is asked for, and
one more pass with the address of the image gives the final code. A program that calls
sub-programs without an address waits as a `PendingProgram` and is finished by one further pass.

A compilation answers with a `Compilation`: the outcome, and everything that it changed on the
way, also when it failed.
-/

namespace NativeForge

open Virtual Target TailCall

/-- Addresses of helpers by number, and of sub-programs by the slot of their call. -/
structure HelperTable where
  /-- Helpers, the latest entry first. -/
  helpers : List (Int32 × Address) := []
  /-- Sub-programs, the latest entry first. -/
  subprograms : List (Nat × Address) := []

namespace HelperTable

/-- Enter the address of a helper. -/
def insert (t : HelperTable) (id : Int32) (addr : Address) : HelperTable :=
  { t with helpers := (id, addr) :: t.helpers }

/-- Enter the address of the sub-program that a slot calls. -/
def insertSubprogram (t : HelperTable) (index : Nat) (addr : Address) : HelperTable :=
  { t with subprograms := (index, addr) :: t.subprograms }

/-- The address of a call target. -/
def resolve (t : HelperTable) (site : CallSite) : Option Address :=
  if site.subprogram then t.subprograms.lookup site.index else t.helpers.lookup site.id

end HelperTable

/-- The offsets and the length of one pass. -/
structure Layout where
  /-- Offset of every slot and of the end. -/
  offsets : Array Nat
  /-- Length of the code. -/
  size : Nat
deriving DecidableEq, Repr

/-- A layout that two passes in a row agreed on. -/
structure Settled where
  /-- The layout. -/
  layout : Layout
  /-- Number of passes run. -/
  passes : Nat
deriving DecidableEq, Repr

/-- What stays the same over all passes of a compilation. -/
structure Source where
  /-- Settings. -/
  config : Config
  /-- The program. -/
  program : Program
  /-- Its frame. -/
  frame : Frame
  /-- Addresses of call targets. -/
  resolve : CallSite → Option Address

namespace Source

/-- The pass over the given offsets. -/
def pass (s : Source) (offsets : Array Nat) (base : Option Address) (padding : Bool) : Pass where
  slots := s.program.size
  descriptors := s.program.descriptors.length
  frame := s.frame
  abi := s.config.abi
  resolve := s.resolve
  offsets := offsets
  base := base
  padding := padding
  maxInsnSize := s.config.maxInsnSize
  insnSafety := s.config.insnSafety

/-- Run a pass over the given offsets. -/
def run (s : Source) (offsets : Array Nat) (base : Option Address) (padding : Bool) :
    Result Error PassOutput :=
  (s.pass offsets base padding).run s.program.steps

/-- Whether the pass with the given number pads jumps. -/
def padded (s : Source) (number : Nat) : Bool := decide (s.config.paddingPasses ≤ number)

/-- Repeat passes until two of them agree, at most `remaining` more. -/
def settle (s : Source) : Nat → Nat → Layout → Result Error Settled
  | 0, number, _ => defect (.notConverged number)
  | remaining + 1, number, previous => do
    let out ← s.run previous.offsets none (s.padded number)
    let layout : Layout := ⟨out.offsets, out.code.size⟩
    if layout = previous then return ⟨layout, number + 1⟩
    else s.settle remaining (number + 1) layout

end Source

/-- The layout before the first pass: every instruction has the estimated length. -/
def initialLayout {ε : Type} (slots estimate : Nat) : Result ε Layout := do
  let _ ← word64 ((slots + 1) * estimate)
  return ⟨(Array.range (slots + 1)).map fun k => (k + 1) * estimate, 0⟩

/-- A program in an executable image. -/
structure CompiledProgram where
  /-- Name in reports. -/
  name : String
  /-- The image. -/
  image : Image
  /-- Length of the code. -/
  size : Nat
  /-- Offset of every slot and of the end. -/
  offsets : Array Nat
  /-- Number of passes run. -/
  passes : Nat
  /-- The exception table. -/
  exceptions : ExceptionTable
  /-- Table and token of every direct tail call installed. -/
  installed : List (Nat × Nat)

/-- A program whose code is settled and which waits for the addresses of sub-programs. -/
structure PendingProgram where
  /-- Settings. -/
  config : Config
  /-- Frame of the program. -/
  frame : Frame
  /-- The settled layout. -/
  layout : Layout
  /-- Offset of the shared epilogue. -/
  epilogue : Option Nat
  /-- Jumps keep their length. -/
  padding : Bool
  /-- Number of passes run. -/
  passes : Nat
  /-- The image, not executable yet. -/
  image : Image

/-- A successful compilation. -/
inductive Outcome where
  | compiled (program : CompiledProgram)
  | pending (program : PendingProgram)

/-- A compilation and everything that it changed. -/
structure Compilation where
  /-- Size asked of the allocator, if it was asked. -/
  asked : Option Nat
  /-- The program's tail calls, with the sites found. -/
  descriptors : List Descriptor
  /-- The tail-call tables. -/
  tables : Array Table
  /-- The outcome. -/
  outcome : Result Error Outcome

/-- The final pass has the length and the offsets of the settled layout. -/
def checkFinal (layout : Layout) (out : PassOutput) : Result Error Unit :=
  if out.code.size ≠ layout.size then defect (.finalLength out.code.size layout.size)
  else if out.offsets ≠ layout.offsets then defect .finalOffsets
  else .ok ()

/-- Size of an image: the code up to a multiple of four, then the exception table. -/
def imageSize {ε : Type} (codeSize probes : Nat) : Result ε Nat :=
  word64 (roundUp codeSize 4 + probes * exceptionEntrySize)

/-- Progress of an installation: the descriptors, the tables, the image and what was installed. -/
structure Installation where
  /-- The program's tail calls, with the sites found so far. -/
  descriptors : List Descriptor
  /-- The tail-call tables. -/
  tables : Array Table
  /-- The image. -/
  image : Image
  /-- Table and token of every site installed so far. -/
  installed : List (Nat × Nat) := []

/-- Install one direct tail call. The descriptor keeps its site even if the table refuses it. -/
def Installation.step (s : Installation) (direct : DirectSite) :
    Installation × Result Error Unit :=
  match direct.place s.image.base with
  | .error failure => (s, .error failure)
  | .ok site =>
    match s.descriptors[direct.descriptor]? with
    | none => (s, defect .lostDescriptor)
    | some descriptor =>
      let s := { s with
        descriptors := s.descriptors.set direct.descriptor { descriptor with site := some site } }
      match s.tables[descriptor.table]? with
      | none => (s, crash)
      | some table =>
        match table.install descriptor.key site s.image with
        | .error failure => (s, .error failure)
        | .ok (table, image, token) =>
          ({ s with
              tables := s.tables.setIfInBounds descriptor.table table
              image := image
              installed := s.installed ++ [(descriptor.table, token)] }, .ok ())

/-- Install direct tail calls in order, up to the first failure. -/
def Installation.run (s : Installation) : List DirectSite → Installation × Result Error Unit
  | [] => (s, .ok ())
  | direct :: rest =>
    match s.step direct with
    | (s, .ok ()) => s.run rest
    | (s, .error failure) => (s, .error failure)

/-- Release installed sites. -/
def release (tables : Array Table) (installed : List (Nat × Nat)) : Array Table :=
  installed.foldl (fun tables entry => tables.modify entry.1 fun t => t.untrack entry.2) tables

/-- Write code and exception table into the image. -/
def writeImage (image : Image) (out : PassOutput) (probeCount : Nat) :
    Result Error (Image × ExceptionTable) := do
  if out.probes.length ≠ probeCount then defect (.probeCount out.probes.length probeCount)
  else
    let image ← ofMemory (image.write 0 out.code.toList)
    let tableOffset := roundUp out.code.size 4
    let entries ← exceptionEntries tableOffset out.probes
    let image ← writeEntries image tableOffset entries
    let addr ← image.base.plus tableOffset
    return (image, ⟨addr, entries⟩)
where
  /-- Write the entries one behind the other. -/
  writeEntries (image : Image) (offset : Nat) : List ExceptionEntry → Result Error Image
    | [] => .ok image
    | entry :: rest => do
      let image ← ofMemory (image.write offset entry.bytes)
      writeEntries image (offset + exceptionEntrySize) rest

/-- Install direct tail calls and make the image executable. -/
def Installation.complete (s : Installation) (direct : List DirectSite) :
    Installation × Result Error Image :=
  match s.run direct with
  | (s, .error failure) => (s, .error failure)
  | (s, .ok ()) => (s, ofMemory s.image.makeExecutable)

/-- Lay out the image, install the direct tail calls and make the image executable. A failure
releases what was installed. -/
def finalize (program : Program) (tables : Array Table) (asked : Option Nat) (layout : Layout)
    (passes : Nat) (image : Image) (out : PassOutput) : Compilation :=
  match writeImage image out program.probeCount with
  | .error failure => ⟨asked, program.descriptors, tables, .error failure⟩
  | .ok (image, exceptions) =>
    let start : Installation := { descriptors := program.descriptors, tables, image }
    match start.complete out.direct with
    | (s, .error failure) =>
      ⟨asked, s.descriptors, release s.tables s.installed, .error failure⟩
    | (s, .ok image) =>
      ⟨asked, s.descriptors, s.tables, .ok (.compiled
        { name := program.name
          image := image
          size := layout.size
          offsets := layout.offsets
          passes := passes
          exceptions := exceptions
          installed := s.installed })⟩

/-- Emit a settled program into its image. -/
def emitFinal (source : Source) (tables : Array Table) (asked : Option Nat) (settled : Settled)
    (image : Image) : Compilation :=
  let failed (failure : Failure Error) : Compilation :=
    ⟨asked, source.program.descriptors, tables, .error failure⟩
  let padding := source.padded settled.passes
  let passes := settled.passes + 1
  match source.run settled.layout.offsets (some image.base) padding with
  | .error failure => failed failure
  | .ok out =>
    match checkFinal settled.layout out with
    | .error failure => failed failure
    | .ok () =>
      if out.pending = 0 then
        finalize source.program tables asked settled.layout passes image out
      else
        ⟨asked, source.program.descriptors, tables, .ok (.pending
          { config := source.config
            frame := source.frame
            layout := settled.layout
            epilogue := out.epilogue
            padding := padding
            passes := passes
            image := image })⟩

/-- Ask for image memory and fill it with traps. -/
def allocate (alloc : Nat → Result MemoryError Image) (size : Nat) : Result Error Image :=
  ofMemory do
    let image ← alloc size
    image.fill trapByte

/-- Settle the layout of a program. -/
def Source.layout (s : Source) : Result Error Settled := do
  if s.program.insns.isEmpty then defect .emptyProgram
  else
    let start ← initialLayout s.program.size s.config.initialEstimate
    s.settle s.config.maxPasses 0 start

/-- Compile a program. -/
def compile (config : Config) (program : Program) (resolve : CallSite → Option Address)
    (tables : Array Table) (alloc : Nat → Result MemoryError Image) : Compilation :=
  let source : Source := ⟨config, program, Frame.ofProgram program, resolve⟩
  let failed (asked : Option Nat) (failure : Failure Error) : Compilation :=
    ⟨asked, program.descriptors, tables, .error failure⟩
  match source.layout with
  | .error failure => failed none failure
  | .ok settled =>
    match imageSize settled.layout.size program.probeCount with
    | .error failure => failed none failure
    | .ok size =>
      match allocate alloc size with
      | .error failure => failed (some size) failure
      | .ok image => emitFinal source tables (some size) settled image

/-- Finish a pending program with the addresses of its sub-programs. -/
def PendingProgram.finish (pending : PendingProgram) (program : Program)
    (resolve : CallSite → Option Address) (tables : Array Table) (asked : Option Nat) :
    Compilation :=
  let source : Source := ⟨pending.config, program, pending.frame, resolve⟩
  let failed (failure : Failure Error) : Compilation :=
    ⟨asked, program.descriptors, tables, .error failure⟩
  match source.run pending.layout.offsets (some pending.image.base) pending.padding with
  | .error failure => failed failure
  | .ok out =>
    match checkFinal pending.layout out with
    | .error failure => failed failure
    | .ok () =>
      if out.pending = 0 then
        finalize program tables asked pending.layout (pending.passes + 1) pending.image out
      else failed (.reported (.internal (.unresolvedSubprograms out.pending)))

end NativeForge
