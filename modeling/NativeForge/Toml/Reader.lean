/-!
# Reading text

A reader takes characters from the front of a text and gives a value, or it gives none and the
text is left to the next alternative. Repetition stops where its reader fails or takes nothing,
so every reader ends.
-/

namespace NativeForge.Toml

/-- A reader of values from the front of a text. -/
abbrev Reader := StateT (List Char) Option

namespace Reader

/-- Take one character of a class. -/
def satisfy (p : Char → Bool) : Reader Char
  | c :: rest => if p c then some (c, rest) else none
  | [] => none

/-- Take the given character. -/
def char (c : Char) : Reader Unit := do
  let _ ← satisfy (· == c)

/-- Take the given characters. -/
def chars (expected : List Char) : Reader Unit := expected.forM char

/-- Take all characters of a class. -/
def takeWhile (p : Char → Bool) : Reader (List Char) := fun cs => some (cs.span p)

/-- Take at least one character of a class. -/
def takeWhile1 (p : Char → Bool) : Reader (List Char) := do
  let first ← satisfy p
  let rest ← takeWhile p
  return first :: rest

/-- The next character, which is not taken. -/
def peek : Reader Char
  | c :: rest => some (c, c :: rest)
  | [] => none

/-- Succeed only at the end of the text. -/
def atEnd : Reader Unit
  | [] => some ((), [])
  | _ :: _ => none

/-- Values of a reader, one after the other, and the text behind them. -/
def manyFrom {α : Type} (r : Reader α) (cs : List Char) : List α × List Char :=
  match r cs with
  | none => ([], cs)
  | some (a, rest) =>
    if rest.length < cs.length then
      let (more, last) := manyFrom r rest
      (a :: more, last)
    else ([a], rest)
termination_by cs.length

/-- Read as many values as there are. -/
def many {α : Type} (r : Reader α) : Reader (List α) := fun cs => some (manyFrom r cs)

/-- Read at least one value, with a separator between two of them. -/
def separated {α : Type} (separator : Reader Unit) (r : Reader α) : Reader (List α) := do
  let first ← r
  let rest ← many do
    separator
    r
  return first :: rest

/-- Read exactly `count` values. -/
def times {α : Type} (r : Reader α) : Nat → Reader (List α)
  | 0 => return []
  | count + 1 => do
    let first ← r
    let rest ← times r count
    return first :: rest

/-- Keep a value that satisfies a condition. -/
def guarded {α : Type} (p : α → Bool) (r : Reader α) : Reader α := do
  let a ← r
  if p a then return a else failure

/-- The value of a whole text. -/
def run? {α : Type} (r : Reader α) (text : List Char) : Option α :=
  (do let a ← r; atEnd; return a : Reader α) text |>.map (·.1)

end Reader

end NativeForge.Toml
