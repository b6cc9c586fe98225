import NativeForge.Text.Hex
import NativeForge.Toml.Reader

/-!
# Blanks, comments, keys and strings

A comment and a string on one line hold tabs and printable characters only. Lines end with a line
feed, which a carriage return may precede; inside a string of several lines both count as a line
feed.
-/

namespace NativeForge.Toml

open Reader

/-- A blank between two words of a line. -/
def isBlank (c : Char) : Bool := c == ' ' || c == '\t'

/-- A character that may stand in a line: a tab, or no control character. -/
def isLineChar (c : Char) : Bool := c == '\t' || (' ' ≤ c && c != '\x7f')

/-- A character of a key without quotes. -/
def isBareKeyChar (c : Char) : Bool := c.isAlphanum || c == '_' || c == '-'

/-- Skip blanks. -/
def blanks : Reader Unit := do
  let _ ← takeWhile isBlank

/-- Take a line end. -/
def newline : Reader Unit := char '\n' <|> chars ['\r', '\n']

/-- Skip a comment. -/
def comment : Reader Unit := do
  char '#'
  let _ ← takeWhile isLineChar

/-- Skip the rest of a line: blanks and a comment. -/
def lineRest : Reader Unit := do
  blanks
  let _ ← optional comment
  newline <|> atEnd

/-- Skip blanks, comments and line ends. -/
def spacing : Reader Unit := do
  let _ ← many (blanks *> optional comment *> newline)
  blanks

/-- The character of a hexadecimal code point, if it has one. -/
def codePoint? (digits : List Char) : Option Char := do
  let values ← digits.mapM Text.Hex.digitValue?
  let code := values.foldl (fun n d => 16 * n + d) 0
  if h : code.isValidChar then some (Char.ofNatAux code h) else none

/-- The character of a one-letter escape. -/
def simpleEscape? : Char → Option Char
  | 'b' => some '\x08'
  | 't' => some '\t'
  | 'n' => some '\n'
  | 'f' => some '\x0c'
  | 'r' => some '\r'
  | '"' => some '"'
  | '\\' => some '\\'
  | _ => none

/-- Take an escape sequence and give its character. -/
def escape : Reader Char := do
  char '\\'
  let letter ← satisfy fun _ => true
  let digits (count : Nat) : Reader Char := do
    let ds ← times (satisfy fun _ => true) count
    match codePoint? ds with
    | some c => return c
    | none => failure
  match letter with
  | 'u' => digits 4
  | 'U' => digits 8
  | _ =>
    match simpleEscape? letter with
    | some c => return c
    | none => failure

/-- A character of a string in double quotes that stands for itself. -/
def isBasicChar (c : Char) : Bool := isLineChar c && c != '"' && c != '\\'

/-- A character of a string in single quotes. -/
def isLiteralChar (c : Char) : Bool := isLineChar c && c != '\''

/-- A string in double quotes on one line. -/
def basicString : Reader String := do
  char '"'
  let pieces ← many (takeWhile1 isBasicChar <|> List.singleton <$> escape)
  char '"'
  return String.ofList pieces.flatten

/-- A string in single quotes on one line. -/
def literalString : Reader String := do
  char '\''
  let text ← takeWhile isLiteralChar
  char '\''
  return String.ofList text

/-- A backslash at the end of a line: it takes the blanks and line ends that follow. -/
def lineFold : Reader Unit := do
  char '\\'
  blanks
  newline
  let _ ← many (newline <|> do let _ ← takeWhile1 isBlank)

/-- One or two quotes that do not close a string of several lines. -/
def innerQuotes (quote : Char) : Reader (List Char) := do
  let quotes ← takeWhile1 (· == quote)
  let next ← peek
  if quotes.length < 3 && next != quote then return quotes else failure

/-- The quotes that close a string of several lines; up to two in front of them belong to it. -/
def closingQuotes (quote : Char) : Reader (List Char) := do
  let quotes ← takeWhile1 (· == quote)
  if 3 ≤ quotes.length && quotes.length ≤ 5 then return quotes.drop 3 else failure

/-- A string between triple quotes, from the pieces that it may hold. -/
def multilineString (quote : Char) (piece : Reader (List Char)) : Reader String := do
  chars [quote, quote, quote]
  let _ ← optional newline
  let pieces ← many (piece <|> newline *> pure ['\n'] <|> innerQuotes quote)
  let last ← closingQuotes quote
  return String.ofList (pieces.flatten ++ last)

/-- A string of several lines in double quotes. -/
def multilineBasicString : Reader String :=
  multilineString '"'
    (takeWhile1 isBasicChar <|> lineFold *> pure [] <|> List.singleton <$> escape)

/-- A string of several lines in single quotes. -/
def multilineLiteralString : Reader String := multilineString '\'' (takeWhile1 isLiteralChar)

/-- A string of any kind. -/
def anyString : Reader String :=
  multilineBasicString <|> multilineLiteralString <|> basicString <|> literalString

/-- The greatest number of parts of a key, and of arrays and tables inside one another, plus
one. -/
def nestingLimit : Nat := 80

/-- One part of a key. -/
def keyPart : Reader String :=
  basicString <|> literalString <|> String.ofList <$> takeWhile1 isBareKeyChar

/-- A key: parts with dots between them, blanks around each part. -/
def key : Reader (List String) :=
  guarded (fun parts => decide (parts.length < nestingLimit)) <|
    separated (char '.') (blanks *> keyPart <* blanks)

end NativeForge.Toml
