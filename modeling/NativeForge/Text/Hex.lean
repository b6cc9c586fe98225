/-!
# Hexadecimal text

Bytes are written as two lower-case digits. Numbers are written with the `0x` mark and the
fewest digits, or padded with zeros to a least number of digits.
-/

namespace NativeForge.Text.Hex

/-- The lower-case digit of a number below 16. -/
def digit (n : Nat) : Char :=
  if n < 10 then Char.ofNat (48 + n) else Char.ofNat (87 + n)

/-- The value of a digit in either case. -/
def digitValue? (c : Char) : Option Nat :=
  if '0' ≤ c ∧ c ≤ '9' then some (c.toNat - 48)
  else if 'a' ≤ c ∧ c ≤ 'f' then some (c.toNat - 87)
  else if 'A' ≤ c ∧ c ≤ 'F' then some (c.toNat - 55)
  else none

/-- The two digits of a byte. -/
def byteChars (b : UInt8) : List Char := [digit (b.toNat / 16), digit (b.toNat % 16)]

/-- The digits of a byte string, without separators. -/
def ofBytes (bytes : List UInt8) : String := String.ofList (bytes.flatMap byteChars)

/-- The digits of a byte string, one blank between two bytes. -/
def ofBytesSpaced (bytes : List UInt8) : String :=
  String.intercalate " " (bytes.map fun b => String.ofList (byteChars b))

/-- The bytes of a string of digit pairs. -/
def toBytes? : List Char → Option (List UInt8)
  | [] => some []
  | [_] => none
  | hi :: lo :: rest => do
    let h ← digitValue? hi
    let l ← digitValue? lo
    let tail ← toBytes? rest
    pure (UInt8.ofNat (16 * h + l) :: tail)

/-- The digits of a number, fewest first digit on the left. -/
def digits (n : Nat) : List Char := Nat.toDigits 16 n

/-- A number with the `0x` mark, padded with zeros to at least `least` digits. -/
def padded (least n : Nat) : String :=
  let ds := digits n
  "0x" ++ String.ofList (List.replicate (least - ds.length) '0' ++ ds)

/-- A number with the `0x` mark and the fewest digits. -/
def ofNat (n : Nat) : String := padded 1 n

/-- A signed number as the `0x` text of its 64-bit two's complement. -/
def ofSigned (v : Int) : String := ofNat (v % UInt64.size).toNat

end NativeForge.Text.Hex
