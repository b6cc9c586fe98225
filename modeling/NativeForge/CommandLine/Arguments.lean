import NativeForge.CommandLine.AddressText

/-!
# Arguments

A command line is a verb with options and operands. An option takes its value from behind an equals
sign or from the next argument, unless that starts with a dash; two dashes end the options. A
value is checked when the next option or operand of another kind begins, or at the end; an unknown
or superfluous argument is reported before values that are still unchecked.
-/

namespace NativeForge.CommandLine

/-- How a report is printed. -/
inductive Format where
  | human | json
deriving DecidableEq, Repr

/-- What is asked for. -/
inductive Command where
  /-- Compile a program file, with a configuration file or the default settings. -/
  | compile (file : String) (config : Option String) (format : Format)
  /-- Emit a dispatcher over addresses. -/
  | dispatch (base : Address) (targets : List Address) (format : Format)
deriving DecidableEq, Repr

/-- The verbs. -/
inductive Verb where
  | compile | dispatch
deriving DecidableEq, Repr

/-- Options with a value. -/
inductive ValueOption where
  | base | config | format
deriving DecidableEq, Repr

/-- The name of an option. -/
def ValueOption.name : ValueOption → String
  | .base => "--base"
  | .config => "--config"
  | .format => "--format"

/-- Why arguments are refused. -/
inductive UsageError where
  /-- There is no verb. -/
  | noVerb
  /-- An argument that nothing asks for. -/
  | unexpected (argument : String)
  /-- An option is given twice. -/
  | repeated (option : String)
  /-- An option has no value. -/
  | noValue (option : String)
  /-- A value cannot be taken. -/
  | badValue (text : String)
  /-- A value is no address. -/
  | badAddress (text : String) (fault : AddressFault)
  /-- Something that is required is not there. -/
  | missing (what : String)
deriving DecidableEq, Repr

/-- The wording of a refusal. -/
def UsageError.message : UsageError → String
  | .noVerb => "a command is required: compile or dispatch"
  | .unexpected argument => s!"unexpected argument '{argument}'"
  | .repeated option => s!"{option} cannot be used multiple times"
  | .noValue option => s!"a value is required for {option}"
  | .badValue text => s!"invalid value '{text}'"
  | .badAddress text fault => s!"invalid address '{text}': {fault.message}"
  | .missing what => s!"{what} is required"

/-- What a value belongs to. -/
inductive Slot where
  /-- An option. -/
  | option (o : ValueOption)
  /-- The operands of the verb. -/
  | operand
deriving DecidableEq, Repr

/-- The values that have been checked. -/
structure Given where
  /-- Log lines are asked for; they are no part of any report. -/
  trace : Bool := false
  /-- The program file. -/
  file : Option String := none
  /-- The configuration file. -/
  config : Option String := none
  /-- The format of the report. -/
  format : Option Format := none
  /-- The address of the dispatcher. -/
  base : Option Address := none
  /-- The addresses that the dispatcher selects from. -/
  targets : List Address := []
deriving DecidableEq, Repr

/-- Check an address. -/
def checkAddress (text : String) : Except UsageError Address :=
  (readAddress text).mapError (.badAddress text)

/-- Check the name of a file. -/
def checkPath (text : String) : Except UsageError String :=
  if text = "" then .error (.badValue text) else .ok text

/-- Check a format. -/
def checkFormat (text : String) : Except UsageError Format :=
  match text with
  | "human" => .ok .human
  | "json" => .ok .json
  | _ => .error (.badValue text)

/-- Check the value of something that is given at most once. -/
def checkOnce {α : Type} (name : String) (previous : Option α)
    (check : String → Except UsageError α) (text : String) : Except UsageError (Option α) :=
  if previous.isSome then .error (.repeated name) else some <$> check text

namespace Given

/-- Check the value of an option and keep it. -/
def addOption (g : Given) (o : ValueOption) (text : String) : Except UsageError Given := do
  match o with
  | .base => return { g with base := ← checkOnce o.name g.base checkAddress text }
  | .config => return { g with config := ← checkOnce o.name g.config checkPath text }
  | .format => return { g with format := ← checkOnce o.name g.format checkFormat text }

/-- Check operands and keep them. -/
def addOperands (g : Given) (verb : Verb) (texts : List String) : Except UsageError Given := do
  match verb with
  | .compile => texts.foldlM (fun g text => do return { g with file := ← checkPath text }) g
  | .dispatch => return { g with targets := g.targets ++ (← texts.mapM checkAddress) }

/-- Check the values of a slot and keep them. -/
def add (g : Given) (verb : Verb) : Slot → List String → Except UsageError Given
  | .operand, texts => g.addOperands verb texts
  | .option o, [] => .error (.noValue o.name)
  | .option o, text :: _ => g.addOption o text

/-- The command, if everything that it requires is there. -/
def command (g : Given) : Verb → Except UsageError Command
  | .compile =>
    match g.file with
    | none => .error (.missing "a program file")
    | some file => .ok (.compile file g.config (g.format.getD .human))
  | .dispatch =>
    match g.base with
    | none => .error (.missing "--base")
    | some base => .ok (.dispatch base g.targets (g.format.getD .human))

end Given

/-- Arguments that are being read. -/
structure Reading where
  /-- The values that have been checked. -/
  given : Given := {}
  /-- Values that are not checked yet, and what they belong to. -/
  waiting : Option (Slot × List String) := none
  /-- The option before takes the next argument as its value. -/
  expecting : Bool := false
  /-- Two dashes have ended the options. -/
  operandsOnly : Bool := false
  /-- Number of operands so far. -/
  operands : Nat := 0
deriving DecidableEq, Repr

/-- The name and the value of an option in one argument. -/
def splitOption (argument : String) : String × Option String :=
  let cs := argument.toList
  let name := String.ofList (cs.takeWhile (· ≠ '='))
  match cs.dropWhile (· ≠ '=') with
  | [] => (name, none)
  | _ :: value => (name, some (String.ofList value))

/-- The option with a value that a verb knows by a name. -/
def Verb.option? (verb : Verb) (name : String) : Option ValueOption :=
  match verb, name with
  | .dispatch, "--base" => some .base
  | .compile, "--config" => some .config
  | _, "--format" => some .format
  | _, _ => none

namespace Reading

/-- Check the values that wait. -/
def settle (r : Reading) (verb : Verb) : Except UsageError Reading :=
  match r.waiting with
  | none => .ok r
  | some (slot, texts) => do
    return { r with given := ← r.given.add verb slot texts, waiting := none }

/-- Take an argument that starts with two dashes and is longer. -/
def takeOption (r : Reading) (verb : Verb) (argument : String) : Except UsageError Reading := do
  let (name, value) := splitOption argument
  match verb.option? name, value with
  | some o, none =>
    let r ← r.settle verb
    return { r with waiting := some (.option o, []), expecting := true }
  | some o, some text =>
    let r ← r.settle verb
    return { r with given := ← r.given.addOption o text, expecting := false }
  | none, none =>
    if name = "--trace-jit" then
      let r ← r.settle verb
      if r.given.trace then .error (.repeated name)
      else return { r with given := { r.given with trace := true }, expecting := false }
    else .error (.unexpected argument)
  | none, some _ => .error (.unexpected argument)

/-- Take an operand. -/
def takeOperand (r : Reading) (verb : Verb) (argument : String) : Except UsageError Reading := do
  if verb = .compile ∧ 0 < r.operands then .error (.unexpected argument)
  else
    match r.waiting with
    | some (.operand, texts) =>
      return { r with waiting := some (.operand, texts ++ [argument]) }
    | _ =>
      let r ← r.settle verb
      return { r with waiting := some (.operand, [argument]), operands := r.operands + 1 }

/-- Take one argument. -/
def take (r : Reading) (verb : Verb) (argument : String) : Except UsageError Reading :=
  if r.operandsOnly then r.takeOperand verb argument
  else if argument = "--" then .ok { r with operandsOnly := true }
  else if argument.startsWith "--" then r.takeOption verb argument
  else if argument.startsWith "-" ∧ argument ≠ "-" then .error (.unexpected argument)
  else
    match r.expecting, r.waiting with
    | true, some (slot, texts) =>
      .ok { r with waiting := some (slot, texts ++ [argument]), expecting := false }
    | _, _ => r.takeOperand verb argument

/-- Take all arguments of a verb. -/
def run (verb : Verb) (arguments : List String) : Except UsageError Command := do
  let r ← arguments.foldlM (fun (r : Reading) argument => r.take verb argument) {}
  let r ← r.settle verb
  r.given.command verb

end Reading

/-- Read a command line. The option for log lines may stand on both sides of the verb, once on
each. -/
def parse (traced : Bool) : List String → Except UsageError Command
  | [] => .error .noVerb
  | "compile" :: rest => Reading.run .compile rest
  | "dispatch" :: rest => Reading.run .dispatch rest
  | "--trace-jit" :: rest =>
    if traced then .error (.repeated "--trace-jit") else parse true rest
  | argument :: _ => .error (.unexpected argument)

/-- Read the arguments of the program. -/
def Command.ofArguments (arguments : List String) : Except UsageError Command :=
  parse false arguments

end NativeForge.CommandLine
