import NativeForge.CommandLine.Report
import NativeForge.Target.ConfigFile
import NativeForge.Virtual.ProgramFile

/-!
# Running a command

A command reads its files, the configuration before the program, and gives the lines of a report
or the cause of a failure.
-/

namespace NativeForge.CommandLine

open Target Virtual

/-- Why a command fails. -/
inductive RunError where
  /-- A file cannot be read. -/
  | unreadable (path : String) (reason : String)
  /-- The configuration is refused. -/
  | config (e : ConfigError)
  /-- The program file is refused. -/
  | program (e : LoadError)
  /-- The code cannot be generated. -/
  | generate (e : Error)
  /-- The program calls sub-programs, and none are loaded. -/
  | unlinked (name : String) (size : Nat)
deriving DecidableEq, Repr

/-- The wording of a failure. -/
def RunError.message : RunError → String
  | .unreadable path reason => s!"error: failed to read {path}: {reason}"
  | .config e => "error: " ++ e.message
  | .program e => "error: " ++ e.message
  | .generate e => "error: " ++ e.message
  | .unlinked name size =>
    s!"error: '{name}' calls sub-programs that are not loaded ({size} bytes converged)"

/-- The files of a command in the order in which they are read. -/
def Command.files : Command → List String
  | .compile file config _ => config.toList ++ [file]
  | .dispatch .. => []

/-- The content of files: for each name the text, or why it cannot be read. -/
abbrev Files := String → Except String String

/-- The text of a file. -/
def Files.text (files : Files) (path : String) : Result RunError String :=
  (files path).mapError fun reason => .reported (.unreadable path reason)

/-- The settings of a compilation. -/
def Files.config (files : Files) : Option String → Result RunError Config
  | none => .ok {}
  | some path => do
    let text ← files.text path
    (Config.parse text).mapError fun e => .reported (.config e)

/-- Compile a program file into an image at `base`. -/
def compileFile (files : Files) (base : Address) (path : String) (configPath : Option String) :
    Result RunError CompileReport := do
  let config ← files.config configPath
  let text ← files.text path
  let file ← (ProgramFile.parse text).mapError fun e => .reported (.program e)
  let (program, tables) ← file.program.mapCause .program
  let helpers := file.helpers.foldl (fun t (id, addr) => t.insert id addr) ({} : HelperTable)
  let alloc (size : Nat) : Result MemoryError Image := do
    return .blank base (← blockSize size)
  let compilation := compile config program helpers.resolve tables alloc
  match ← compilation.outcome.mapCause .generate with
  | .compiled compiled => CompileReport.ofProgram compiled
  | .pending pending => report (.unlinked program.name pending.layout.size)

/-- Run a command. Images are placed at `base`. -/
def Command.run (files : Files) (base : Address) : Command → Result RunError (List String)
  | .compile file config format => do
    let r ← compileFile files base file config
    return r.lines format
  | .dispatch address targets format => do
    let code ← (Dispatcher.emit targets (some address)).mapCause .generate
    let r : DispatchReport := ⟨address, Dispatcher.pieceBytes code⟩
    return r.lines format

end NativeForge.CommandLine
