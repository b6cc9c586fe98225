import NativeForge.CommandLine.Run

/-!
# The program

Reads the files that a command names, runs it, and prints its report or its failure.
-/

namespace NativeForge.CommandLine

/-- The address of images in reports. -/
def imageAddress : Address := 0x7F0000000000

/-- The text of a file, or why it cannot be read. -/
def readText (path : String) : IO (Except String String) := do
  try
    let text ← IO.FS.readFile path
    return .ok text
  catch
    | .noFileOrDirectory .. => return .error "No such file or directory (os error 2)"
    | e => return .error (toString e)

/-- Print a failure and give its exit status. -/
def fail (status : UInt32) (message : String) : IO UInt32 := do
  IO.eprintln message
  return status

end NativeForge.CommandLine

open NativeForge.CommandLine

/-- Run the command that the arguments ask for. -/
def main (arguments : List String) : IO UInt32 := do
  match Command.ofArguments arguments with
  | .error e => fail 2 ("error: " ++ e.message)
  | .ok command =>
    let mut texts : List (String × Except String String) := []
    for path in command.files do
      let text ← readText path
      texts := (path, text) :: texts
    let files : Files := fun path => (texts.lookup path).getD (.error "not read")
    match command.run files imageAddress with
    | .ok lines =>
      for line in lines do
        IO.println line
      return 0
    | .error (.reported e) => fail 1 e.message
    | .error .crash => fail 101 "a machine word overflowed"
