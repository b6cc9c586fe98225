import NativeForge.Toml.Item

/-!
# Records from items

A record is read from a table by the names of its fields, or from an array by their places. A date
or time counts as a table that has none of the fields. Entries that no field asks for are ignored.
-/

namespace NativeForge.Toml

namespace Item

/-- The text of a string. -/
def string? : Item → Option String
  | .string text => some text
  | _ => none

/-- A truth value. -/
def boolean? : Item → Option Bool
  | .boolean value => some value
  | _ => none

/-- A whole number within bounds, the upper one excluded. -/
def integer? (low high : Int) : Item → Option Int
  | .integer value => if low ≤ value ∧ value < high then some value else none
  | _ => none

/-- A whole number that fits a signed 32-bit word. -/
def int32? (item : Item) : Option Int32 := (item.integer? (-0x8000_0000) 0x8000_0000).map Int32.ofInt

/-- A whole number that fits an unsigned 32-bit word. -/
def uint32? (item : Item) : Option UInt32 :=
  (item.integer? 0 UInt32.size).map fun v => UInt32.ofNat v.toNat

/-- A whole number that fits an unsigned 64-bit word. -/
def uint64? (item : Item) : Option UInt64 :=
  (item.integer? 0 UInt64.size).map fun v => UInt64.ofNat v.toNat

/-- A whole number that fits a byte. -/
def uint8? (item : Item) : Option UInt8 :=
  (item.integer? 0 256).map fun v => UInt8.ofNat v.toNat

/-- A whole number that is not negative. -/
def nat? (item : Item) : Option Nat := (item.integer? 0 UInt64.size).map Int.toNat

/-- The elements of an array. -/
def elements? : Item → Option (List Item)
  | .array items => some items
  | .tables elements => some (elements.map (.table .header))
  | _ => none

/-- The elements of an array, each read in the same way. -/
def list? {α : Type} (read : Item → Option α) (item : Item) : Option (List α) := do
  let items ← item.elements?
  items.mapM read

end Item

/-- What the fields of a record are read from. -/
inductive Fields where
  /-- Fields by name. -/
  | named (entries : Entries)
  /-- Fields by place. -/
  | placed (items : List Item)

namespace Fields

/-- The fields that an item holds. -/
def ofItem? : Item → Option Fields
  | .table _ entries => some (.named entries)
  | .dateTime => some (.named [])
  | item => item.elements?.map .placed

/-- The item of a field. -/
def get? (fields : Fields) (name : String) (place : Nat) : Option Item :=
  match fields with
  | .named entries => entries.lookup name
  | .placed items => items[place]?

/-- A field that has to be there. -/
def required {α : Type} (fields : Fields) (name : String) (place : Nat)
    (read : Item → Option α) : Option α := do
  let item ← fields.get? name place
  read item

/-- A field with a value to fall back on. -/
def optional {α : Type} (fields : Fields) (name : String) (place : Nat)
    (read : Item → Option α) (fallback : α) : Option α :=
  match fields.get? name place with
  | none => some fallback
  | some item => read item

end Fields

end NativeForge.Toml
