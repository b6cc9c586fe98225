/-!
# Items of a document

A document is a table of items. A table remembers how it came to be, because that decides whether
a later line may still add to it: the header of a table may follow headers of its sub-tables, a
dotted key may only add to tables that dotted keys made, and a value is closed.
-/

namespace NativeForge.Toml

/-- How a table came to be. -/
inductive Origin where
  /-- A value in braces; nothing is added to it later. -/
  | inline
  /-- The way to a table whose header names this one as a part. -/
  | implied
  /-- The way of a dotted key. -/
  | dotted
  /-- A header of its own. -/
  | header
deriving DecidableEq, Repr

/-- What stands under a key or in an array. -/
inductive Item where
  /-- A string. -/
  | string (text : String)
  /-- A whole number. -/
  | integer (value : Int)
  /-- A truth value. -/
  | boolean (value : Bool)
  /-- A float. -/
  | float
  /-- A date or a time. -/
  | dateTime
  /-- An array in brackets. -/
  | array (items : List Item)
  /-- A table. -/
  | table (origin : Origin) (entries : List (String × Item))
  /-- An array of tables, one for each of its headers. -/
  | tables (elements : List (List (String × Item)))

/-- The entries of a table, by key. -/
abbrev Entries := List (String × Item)

namespace Entries

/-- Replace the item under a key, or enter it. -/
def put (entries : Entries) (key : String) (item : Item) : Entries :=
  match entries with
  | [] => [(key, item)]
  | (k, old) :: rest =>
    if k = key then (key, item) :: rest else (k, old) :: put rest key item

/-- The last part of an array of tables, apart. -/
def splitLast? : List Entries → Option (List Entries × Entries)
  | [] => none
  | [last] => some ([], last)
  | first :: rest => (splitLast? rest).map fun (front, last) => (first :: front, last)

/-- Change the table at the end of a path. Tables that are missing on the way are made with the
origin `made`; an array of tables stands for its last element. A path of a dotted key does not go
through a table with a header. -/
def change (made : Origin) (f : Origin → Entries → Option Entries) :
    List String → Origin → Entries → Option Entries
  | [], origin, entries => f origin entries
  | key :: path, _, entries =>
    match entries.lookup key with
    | none => do
      let child ← change made f path made []
      return entries.put key (.table made child)
    | some (.table childOrigin childEntries) =>
      if childOrigin = .inline ∨ (made = .dotted ∧ childOrigin = .header) then none
      else do
        let child ← change made f path childOrigin childEntries
        return entries.put key (.table childOrigin child)
    | some (.tables elements) => do
      let (front, last) ← splitLast? elements
      let child ← change made f path .header last
      return entries.put key (.tables (front ++ [child]))
    | some _ => none

/-- Enter a value under a key that may be dotted. The key is new, and the table that a dotted
key ends in was made by dotted keys only. -/
def insert? (entries : Entries) (path : List String) (value : Item) : Option Entries := do
  let key ← path.getLast?
  let way := path.dropLast
  let enter (origin : Origin) (table : Entries) : Option Entries :=
    if (way ≠ [] ∧ origin ≠ .dotted) ∨ (table.lookup key).isSome then none
    else some (table ++ [(key, value)])
  change .dotted enter way .header entries

end Entries

end NativeForge.Toml
