import NativeForge.Failure
import NativeForge.Text.Hex

/-!
# Addresses on the command line

An address is decimal, or hexadecimal behind `0x` or `0X`. One plus sign may stand in front of the
digits. The first fault from the left decides the wording.
-/

namespace NativeForge.CommandLine

/-- Why a text is no address. -/
inductive AddressFault where
  /-- There are no digits. -/
  | empty
  /-- A character is no digit of the base. -/
  | invalidDigit
  /-- The number does not fit 64 bits. -/
  | tooLarge
deriving DecidableEq, Repr

/-- The wording of a fault. -/
def AddressFault.message : AddressFault → String
  | .empty => "cannot parse integer from empty string"
  | .invalidDigit => "invalid digit found in string"
  | .tooLarge => "number too large to fit in target type"

/-- Continue a number with further digits. -/
def continueNumber (base : Nat) : Nat → List Char → Except AddressFault Nat
  | n, [] => .ok n
  | n, c :: rest =>
    match Text.Hex.digitValue? c with
    | none => .error .invalidDigit
    | some d =>
      if base ≤ d then .error .invalidDigit
      else if UInt64.size ≤ base * n + d then .error .tooLarge
      else continueNumber base (base * n + d) rest

/-- The number that the digits behind an optional plus sign write. -/
def readNumber (base : Nat) : List Char → Except AddressFault Nat
  | [] => .error .empty
  | ['+'] => .error .invalidDigit
  | '+' :: digits => continueNumber base 0 digits
  | digits => continueNumber base 0 digits

/-- Read an address. -/
def readAddress (text : String) : Except AddressFault Address :=
  let number := match text.toList with
    | '0' :: 'x' :: digits => readNumber 16 digits
    | '0' :: 'X' :: digits => readNumber 16 digits
    | digits => readNumber 10 digits
  UInt64.ofNat <$> number

end NativeForge.CommandLine
