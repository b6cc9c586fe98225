import NativeForge.Toml.Lexeme

/-!
# Numbers, dates and times

Whole numbers fit a signed 64-bit word. Of a float and of a date or time only the form is kept:
that it is well formed, and that a float without a minus sign rounds to a finite double.
-/

namespace NativeForge.Toml

open Reader

/-- The value of a digit in the given base, if it is one. -/
def digitIn (base : Nat) (c : Char) : Bool :=
  match Text.Hex.digitValue? c with
  | some d => decide (d < base)
  | none => false

/-- The number that digits of a base write. -/
def ofDigits (base : Nat) (ds : List Char) : Nat :=
  ds.foldl (fun n c => base * n + (Text.Hex.digitValue? c).getD 0) 0

/-- Digits of a base, where an underscore may stand between two of them. -/
def digitGroups (base : Nat) : Reader (List Char) := do
  let groups ← separated (char '_') (takeWhile1 (digitIn base))
  return groups.flatten

/-- Decimal digits without a leading zero, or a single zero. -/
def unsignedDigits : Reader (List Char) := do
  match ← peek with
  | '0' => do char '0'; return ['0']
  | _ => digitGroups 10

/-- An optional sign; true for minus. -/
def sign : Reader Bool := (char '-' *> pure true) <|> (char '+' *> pure false) <|> pure false

/-- The number fits a signed 64-bit word. -/
def isWord (v : Int) : Bool := decide (-0x8000_0000_0000_0000 ≤ v ∧ v < 0x8000_0000_0000_0000)

/-- A whole number behind the mark of its base. -/
def markedInteger (mark : Char) (base : Nat) : Reader Int := do
  chars ['0', mark]
  let ds ← digitGroups base
  return (ofDigits base ds : Int)

/-- A decimal whole number. -/
def decimalInteger : Reader Int := do
  let negative ← sign
  let ds ← unsignedDigits
  let magnitude : Int := ofDigits 10 ds
  return if negative then -magnitude else magnitude

/-- A whole number. -/
def integer : Reader Int :=
  guarded isWord <|
    markedInteger 'x' 16 <|> markedInteger 'o' 8 <|> markedInteger 'b' 2 <|> decimalInteger

/-- A decimal `digits · 10 ^ exponent` that rounds to a finite double: it is below the middle
between the greatest double and the next power of two. Sizes that are far off are told from the
number of digits alone. -/
def isFinite (digits : Nat) (exponent : Int) : Bool :=
  let bound : Nat := (1 <<< 1024) - (1 <<< 970)
  let magnitude : Int := (Nat.toDigits 10 digits).length + exponent
  if digits = 0 ∨ magnitude < 300 then true
  else if 320 < magnitude then false
  else if 0 ≤ exponent then decide (digits * Nat.pow 10 exponent.toNat < bound)
  else decide (digits < bound * Nat.pow 10 (-exponent).toNat)

/-- The exponent of a float. -/
def exponent : Reader Int := do
  let _ ← satisfy fun c => c == 'e' || c == 'E'
  let negative ← sign
  let ds ← digitGroups 10
  let magnitude : Int := ofDigits 10 ds
  return if negative then -magnitude else magnitude

/-- A float in digits: a fraction, an exponent, or both. -/
def decimalFloat : Reader Unit := do
  let negative ← sign
  let whole ← unsignedDigits
  let fraction ← optional (char '.' *> digitGroups 10)
  let scale ← if fraction.isSome then (·.getD 0) <$> optional exponent else exponent
  let places := fraction.getD []
  if negative || isFinite (ofDigits 10 (whole ++ places)) (scale - places.length) then return ()
  else failure

/-- Infinity or not-a-number. -/
def specialFloat : Reader Unit := do
  let _ ← sign
  chars ['i', 'n', 'f'] <|> chars ['n', 'a', 'n']

/-- A float. -/
def float : Reader Unit := decimalFloat <|> specialFloat

/-- A decimal number of a fixed count of digits, within bounds. -/
def fixedNumber (count low high : Nat) : Reader Nat :=
  guarded (fun n => decide (low ≤ n ∧ n ≤ high)) <|
    ofDigits 10 <$> times (satisfy (digitIn 10)) count

/-- The number of days of a month. -/
def daysIn (year month : Nat) : Nat :=
  if month = 2 then
    if year % 4 = 0 ∧ (year % 100 ≠ 0 ∨ year % 400 = 0) then 29 else 28
  else if month = 4 ∨ month = 6 ∨ month = 9 ∨ month = 11 then 30 else 31

/-- A date. -/
def date : Reader Unit := do
  let year ← fixedNumber 4 0 9999
  char '-'
  let month ← fixedNumber 2 1 12
  char '-'
  let _ ← fixedNumber 2 1 (daysIn year month)

/-- A time of day. -/
def time : Reader Unit := do
  let _ ← fixedNumber 2 0 23
  char ':'
  let _ ← fixedNumber 2 0 59
  char ':'
  let _ ← fixedNumber 2 0 60
  let _ ← optional (char '.' *> takeWhile1 (digitIn 10))

/-- The distance from universal time. -/
def timeOffset : Reader Unit :=
  (do let _ ← satisfy fun c => c == 'Z' || c == 'z') <|> do
    let _ ← satisfy fun c => c == '+' || c == '-'
    let _ ← fixedNumber 2 0 23
    char ':'
    let _ ← fixedNumber 2 0 59

/-- A date, a time, or both. -/
def dateTime : Reader Unit :=
  (do
    date
    let _ ← optional do
      let _ ← satisfy fun c => c == 'T' || c == 't' || c == ' '
      time
      optional timeOffset) <|> time

end NativeForge.Toml
