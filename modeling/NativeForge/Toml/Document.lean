import NativeForge.Toml.Item
import NativeForge.Toml.Scalar

/-!
# Documents

Values, headers and lines of a document. A document is read line by line: a header closes the
table before it and opens its own, and a line with a value adds to the open table.
-/

namespace NativeForge.Toml

open Reader

/-- A value that is no array and no table. -/
def scalar : Reader Item :=
  .string <$> anyString <|>
  chars ['t', 'r', 'u', 'e'] *> pure (.boolean true) <|>
  chars ['f', 'a', 'l', 's', 'e'] *> pure (.boolean false) <|>
  dateTime *> pure .dateTime <|>
  float *> pure .float <|>
  .integer <$> integer

/-- An array of values; a comma may follow the last one. -/
def array (value : Reader Item) : Reader Item := do
  char '['
  let items ← optional do
    let items ← separated (char ',') (spacing *> value <* spacing)
    let _ ← optional (char ',')
    return items
  spacing
  char ']'
  return .array (items.getD [])

/-- A key with its value. -/
def keyValue (value : Reader Item) : Reader (List String × Item) := do
  let path ← key
  char '='
  blanks
  let item ← value
  return (path, item)

/-- Enter pairs into a table in order. -/
def enterAll (pairs : List (List String × Item)) : Option Entries :=
  pairs.foldlM (fun entries (path, item) => entries.insert? path item) []

/-- A table in braces, on one line but for the values in it. -/
def inlineTable (value : Reader Item) : Reader Item := do
  char '\x7b'
  let pairs ← optional (separated (char ',') (keyValue value <* blanks))
  blanks
  char '\x7d'
  match enterAll (pairs.getD []) with
  | some entries => return .table .inline entries
  | none => failure

/-- A value with at most `depth` arrays and tables inside one another. -/
def value : Nat → Reader Item
  | 0 => scalar
  | depth + 1 => scalar <|> array (value depth) <|> inlineTable (value depth)

/-- A line of a document. -/
inductive Line where
  /-- Nothing but blanks and a comment. -/
  | blank
  /-- A value for the open table. -/
  | entry (path : List String) (item : Item)
  /-- The header of a table. -/
  | table (path : List String)
  /-- The header of an element of an array of tables. -/
  | element (path : List String)

/-- The content of a line. -/
def lineContent : Reader Line :=
  (do chars ['[', '[']; let path ← key; chars [']', ']']; return .element path) <|>
  (do char '['; let path ← key; char ']'; return .table path) <|>
  (do let (path, item) ← keyValue (value (nestingLimit - 1)); return .entry path item)

/-- A line up to its end. -/
def line : Reader Line := do
  blanks
  let content ← optional lineContent
  lineRest
  return content.getD .blank

/-- The lines of a document, behind an optional byte order mark. -/
def documentLines : Reader (List Line) := do
  let _ ← optional (char '\uFEFF')
  many line

/-- A document that is being read: the closed tables, and the open one. -/
structure Draft where
  /-- The document without the open table. -/
  root : Entries := []
  /-- The entries of the open table. -/
  entries : Entries := []
  /-- The header of the open table; the table of the document itself has none. -/
  path : List String := []
  /-- The open table is an element of an array of tables. -/
  isElement : Bool := false

namespace Draft

/-- Put the open table in its place. -/
def close (d : Draft) : Option Entries :=
  match d.path.getLast? with
  | none => some d.entries
  | some key =>
    let place (_ : Origin) (parent : Entries) : Option Entries :=
      if d.isElement then
        match parent.lookup key with
        | none => some (parent.put key (.tables [d.entries]))
        | some (.tables elements) => some (parent.put key (.tables (elements ++ [d.entries])))
        | some _ => none
      else some (parent.put key (.table .header d.entries))
    Entries.change .implied place d.path.dropLast .header d.root

/-- Open the table of a header, whose path has to be free for it; the way to it is made. -/
def reserve (root : Entries) (path : List String) (isElement : Bool) : Option Draft := do
  let key ← path.getLast?
  let free (_ : Origin) (parent : Entries) : Option Entries :=
    match parent.lookup key with
    | none => some parent
    | some (.tables _) => if isElement then some parent else none
    | some (.table .implied _) => if isElement then none else some parent
    | some _ => none
  let root ← Entries.change .implied free path.dropLast .header root
  return { root, path, isElement }

/-- The entries that headers of sub-tables have put under a path. -/
def implied (entries : Entries) : List String → Entries
  | [] => entries
  | key :: path =>
    match entries.lookup key with
    | some (.table _ child) => implied child path
    | some (.tables elements) =>
      match elements.getLast? with
      | some last => implied last path
      | none => []
    | _ => []

/-- Close the open table and open the one of a header. -/
def openTable (d : Draft) (path : List String) (isElement : Bool) : Option Draft := do
  let root ← d.close
  let next ← reserve root path isElement
  return if isElement then next else { next with entries := implied root path }

/-- Take one line. -/
def step (d : Draft) : Line → Option Draft
  | .blank => some d
  | .entry path item => do return { d with entries := ← d.entries.insert? path item }
  | .table path => d.openTable path false
  | .element path => d.openTable path true

end Draft

/-- Read a document. -/
def parse? (text : String) : Option Entries := do
  let lines ← documentLines.run? text.toList
  let draft ← lines.foldlM Draft.step {}
  draft.close

end NativeForge.Toml
