import NativeForge.Text.Hex

/-!
# JSON objects in lines

An object is written with one field to a line, two blanks to a level, and one element of an array
to a line.
-/

namespace NativeForge.Text.Json

/-- The value of a field. -/
inductive Value where
  /-- A string. -/
  | string (text : String)
  /-- A number. -/
  | number (value : Nat)
  /-- An array of numbers. -/
  | numbers (values : List Nat)
deriving DecidableEq, Repr

/-- A character of a string: quotes, backslashes and control characters are escaped. -/
def escape (c : Char) : List Char :=
  match c with
  | '"' => ['\\', '"']
  | '\\' => ['\\', '\\']
  | '\n' => ['\\', 'n']
  | '\r' => ['\\', 'r']
  | '\t' => ['\\', 't']
  | '\x08' => ['\\', 'b']
  | '\x0c' => ['\\', 'f']
  | _ => if c < ' ' then ['\\', 'u', '0', '0'] ++ Hex.byteChars (UInt8.ofNat c.toNat) else [c]

/-- A string in quotes. -/
def quoted (text : String) : String :=
  String.ofList ('"' :: text.toList.flatMap escape ++ ['"'])

/-- End every line but the last with a comma. -/
def withCommas : List String → List String
  | [] => []
  | [last] => [last]
  | first :: rest => (first ++ ",") :: withCommas rest

/-- Put a comma behind the last line. -/
def commaAfter : List String → List String
  | [] => []
  | [last] => [last ++ ","]
  | first :: rest => first :: commaAfter rest

/-- The lines of a field. -/
def fieldLines (name : String) : Value → List String
  | .string text => ["  " ++ quoted name ++ ": " ++ quoted text]
  | .number value => ["  " ++ quoted name ++ ": " ++ toString value]
  | .numbers [] => ["  " ++ quoted name ++ ": []"]
  | .numbers values =>
    ("  " ++ quoted name ++ ": [") ::
      withCommas (values.map fun v => "    " ++ toString v) ++ ["  ]"]

/-- The lines of all fields. -/
def fieldsLines : List (String × Value) → List String
  | [] => []
  | [(name, value)] => fieldLines name value
  | (name, value) :: rest => commaAfter (fieldLines name value) ++ fieldsLines rest

/-- The lines of an object. -/
def objectLines (fields : List (String × Value)) : List String :=
  "\x7b" :: fieldsLines fields ++ ["\x7d"]

end NativeForge.Text.Json
