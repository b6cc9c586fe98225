import NativeForge.CommandLine.Arguments
import NativeForge.Compile
import NativeForge.Dispatcher
import NativeForge.Text.Json

/-!
# Reports

What the command line prints about compiled programs and dispatchers, for people or as JSON.
-/

namespace NativeForge.CommandLine

/-- Pad a text with blanks on the left. -/
def padLeft (width : Nat) (text : String) : String :=
  String.ofList (List.replicate (width - text.length) ' ') ++ text

/-- What is printed about a compiled program. -/
structure CompileReport where
  /-- Name of the program. -/
  name : String
  /-- Address of its first instruction. -/
  entry : Address
  /-- Number of passes. -/
  passes : Nat
  /-- Number of entries of the exception table. -/
  exceptions : Nat
  /-- Offset of every slot and of the end. -/
  offsets : List Nat
  /-- The code. -/
  code : List UInt8
deriving DecidableEq, Repr

namespace CompileReport

/-- The report on a compiled program. -/
def ofProgram {ε : Type} (p : CompiledProgram) : Result ε CompileReport := do
  let code ← p.image.read 0 p.size
  return {
    name := p.name
    entry := p.image.base
    passes := p.passes
    exceptions := p.exceptions.entries.length
    offsets := p.offsets.toList
    code }

/-- The line of each slot. -/
def slotLines (index : Nat) : List Nat → List String
  | [] => []
  | offset :: rest =>
    ("  insn " ++ padLeft 4 (toString index) ++ " @ " ++ Text.Hex.padded 4 offset) ::
      slotLines (index + 1) rest

/-- The lines of a report. -/
def lines (r : CompileReport) : Format → List String
  | .human =>
    [s!"{r.name}: {r.code.length} bytes, {r.passes} passes",
      "entry: " ++ Text.Hex.ofNat r.entry.toNat,
      s!"exception table entries: {r.exceptions}"] ++
      slotLines 0 r.offsets.dropLast ++ [Text.Hex.ofBytesSpaced r.code]
  | .json =>
    Text.Json.objectLines
      [("name", .string r.name),
        ("entry", .number r.entry.toNat),
        ("len", .number r.code.length),
        ("passes", .number r.passes),
        ("exentries", .number r.exceptions),
        ("addrs", .numbers r.offsets),
        ("code", .string (Text.Hex.ofBytesSpaced r.code))]

end CompileReport

/-- What is printed about a dispatcher. -/
structure DispatchReport where
  /-- Address of the dispatcher. -/
  base : Address
  /-- The code. -/
  code : List UInt8
deriving DecidableEq, Repr

/-- The lines of a report. -/
def DispatchReport.lines (r : DispatchReport) : Format → List String
  | .human =>
    ["dispatcher @ " ++ Text.Hex.ofNat r.base.toNat ++ s!": {r.code.length} bytes",
      Text.Hex.ofBytesSpaced r.code]
  | .json =>
    Text.Json.objectLines
      [("base", .number r.base.toNat),
        ("len", .number r.code.length),
        ("code", .string (Text.Hex.ofBytesSpaced r.code))]

end NativeForge.CommandLine
