import NativeForge.Failure
import NativeForge.TailCall.Table
import NativeForge.Text.Blank
import NativeForge.Text.Hex
import NativeForge.Toml.Document
import NativeForge.Toml.Field
import NativeForge.Virtual.Program

/-!
# Program files

A program file holds instruction slots as hexadecimal text, the addresses of helpers and the keys
of direct tail calls. Every direct tail call gets a table of its own, just large enough for its
key.
-/

namespace NativeForge.Virtual

open Toml

/-- The content of a program file. -/
structure ProgramFile where
  /-- Name in reports. -/
  name : String := "prog"
  /-- Bytes of stack used below the frame pointer. -/
  stackDepth : UInt32 := 0
  /-- The program is called by another sub-program. -/
  isSubprogram : Bool := false
  /-- Some path from the program reaches a tail call. -/
  tailCallReachable : Bool := false
  /-- One text for every instruction slot. -/
  insns : List String
  /-- Helpers with their addresses. -/
  helpers : List (Int32 × Address) := []
  /-- Keys of direct tail calls. -/
  tailCallKeys : List UInt32 := []
deriving DecidableEq, Repr

/-- What is wrong with the text of a slot. -/
inductive InsnFault where
  /-- A character outside ASCII; the text without its white space is kept. -/
  | nonAscii (text : String)
  /-- Not sixteen digits. -/
  | length (count : Nat)
  /-- Two characters that are no byte. -/
  | badPair (pair : String)
deriving DecidableEq, Repr

/-- The wording of a fault. -/
def InsnFault.message : InsnFault → String
  | .nonAscii text => s!"non-hex character in '{text}'"
  | .length count => s!"expected 16 hex digits, got {count}"
  | .badPair pair => s!"bad hex '{pair}': invalid digit found in string"

/-- Why a program file is refused. -/
inductive LoadError where
  /-- The text is no program file. -/
  | parse
  /-- A slot cannot be read. -/
  | badInsn (index : Nat) (fault : InsnFault)
deriving DecidableEq, Repr

/-- The wording of a refusal. -/
def LoadError.message : LoadError → String
  | .parse => "failed to parse program file"
  | .badInsn index fault => s!"instruction {index}: {fault.message}"

/-- The byte that two characters write: two digits, or a plus sign and one digit. -/
def byteOfPair? (first second : Char) : Option UInt8 :=
  if first = '+' then (Text.Hex.digitValue? second).map UInt8.ofNat
  else do
    let high ← Text.Hex.digitValue? first
    let low ← Text.Hex.digitValue? second
    return UInt8.ofNat (16 * high + low)

/-- The bytes that pairs of characters write. -/
def bytesOfPairs : List Char → Except InsnFault (List UInt8)
  | first :: second :: rest =>
    match byteOfPair? first second with
    | none => .error (.badPair (String.ofList [first, second]))
    | some byte => (byte :: ·) <$> bytesOfPairs rest
  | _ => .ok []

/-- Read the text of a slot; white space in it is ignored. -/
def Insn.ofText (text : String) : Except InsnFault Insn :=
  let cs := text.toList.filter fun c => !Text.isBlank c
  if cs.any (fun c => 128 ≤ c.toNat) then .error (.nonAscii (String.ofList cs))
  else if cs.length ≠ 16 then .error (.length cs.length)
  else do
    match ← bytesOfPairs cs with
    | [b0, b1, b2, b3, b4, b5, b6, b7] => return .ofBytes b0 b1 b2 b3 b4 b5 b6 b7
    | _ => .error (.length cs.length)

/-- Read the texts of slots, the first of which has the given number. -/
def insnsOfTexts (index : Nat) : List String → Except LoadError (List Insn)
  | [] => .ok []
  | text :: rest =>
    match Insn.ofText text with
    | .error fault => .error (.badInsn index fault)
    | .ok insn => (insn :: ·) <$> insnsOfTexts (index + 1) rest

namespace ProgramFile

/-- Read a helper. -/
def helperOfItem? (item : Toml.Item) : Option (Int32 × Address) := do
  let fields ← Fields.ofItem? item
  let id ← fields.required "id" 0 Toml.Item.int32?
  let addr ← fields.required "addr" 1 Toml.Item.uint64?
  return (id, addr)

/-- Read the key of a direct tail call. -/
def keyOfItem? (item : Toml.Item) : Option UInt32 := do
  let fields ← Fields.ofItem? item
  fields.required "key" 0 Toml.Item.uint32?

/-- Read the content of a program file from its fields. -/
def ofFields? (fields : Fields) : Option ProgramFile := do
  return {
    name := ← fields.optional "name" 0 Toml.Item.string? "prog"
    stackDepth := ← fields.optional "stack_depth" 1 Toml.Item.uint32? 0
    isSubprogram := ← fields.optional "is_subprog" 2 Toml.Item.boolean? false
    tailCallReachable := ← fields.optional "tail_call_reachable" 3 Toml.Item.boolean? false
    insns := ← fields.required "insns" 4 (Toml.Item.list? Toml.Item.string?)
    helpers := ← fields.optional "helper" 5 (Toml.Item.list? helperOfItem?) []
    tailCallKeys := ← fields.optional "poke" 6 (Toml.Item.list? keyOfItem?) [] }

/-- Read a program file. -/
def parse (text : String) : Except LoadError ProgramFile :=
  match parse? text >>= fun entries => ofFields? (.named entries) with
  | none => .error .parse
  | some file => .ok file

/-- A direct tail call with a key of its own table, which has the given number. -/
def descriptorsFrom (table : Nat) : List UInt32 → List TailCall.Descriptor
  | [] => []
  | key :: rest => { table, key } :: descriptorsFrom (table + 1) rest

/-- The table for a key: one slot more than the key says, or a crash if that is no 32-bit
number. -/
def tableFor {ε : Type} (key : UInt32) : Result ε TailCall.Table :=
  if key.toNat + 1 < UInt32.size then .ok { maxEntries := key + 1 } else crash

/-- The program that a file describes, and the tables of its direct tail calls. -/
def program (file : ProgramFile) : Result LoadError (Program × Array TailCall.Table) := do
  let insns ← (insnsOfTexts 0 file.insns).mapError .reported
  let tables ← file.tailCallKeys.mapM tableFor
  return ({
    name := file.name
    insns
    stackDepth := file.stackDepth
    isSubprogram := file.isSubprogram
    tailCallReachable := file.tailCallReachable
    descriptors := descriptorsFrom 0 file.tailCallKeys }, tables.toArray)

end ProgramFile

end NativeForge.Virtual
