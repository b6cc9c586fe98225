import NativeForge.Operator
import NativeForge.Bytes
import NativeForge.Failure

/-!
# Conditions and sign-extended fields

A condition tests the flags. A sign-extended field is an immediate operand, a memory
displacement or a branch displacement: the instruction set stores each of them in one byte or in
four, and `SignedField.shortest` takes the byte whenever the value fits.
-/

namespace NativeForge.X64

/-- A condition on the flags. -/
inductive Cond where
  | below
  | aboveEqual
  | equal
  | notEqual
  | belowEqual
  | above
  | less
  | greaterEqual
  | lessEqual
  | greater
deriving DecidableEq, Repr

namespace Cond

/-- The four-bit code of the condition. -/
def code : Cond → UInt8
  | .below => 0x2
  | .aboveEqual => 0x3
  | .equal => 0x4
  | .notEqual => 0x5
  | .belowEqual => 0x6
  | .above => 0x7
  | .less => 0xC
  | .greaterEqual => 0xD
  | .lessEqual => 0xE
  | .greater => 0xF

/-- Opcode of the conditional branch with a one-byte displacement. -/
def shortOpcode (c : Cond) : UInt8 := 0x70 ||| c.code

/-- Second opcode byte of the conditional branch with a four-byte displacement. -/
def nearOpcode (c : Cond) : UInt8 := 0x80 ||| c.code

end Cond

/-- A field of one or four bytes that the processor sign-extends. -/
inductive SignedField where
  | byte (v : Int8)
  | dword (v : Int32)
deriving DecidableEq, Repr

namespace SignedField

/-- The number the processor reads from the field. -/
def value : SignedField → Int
  | .byte v => v.toInt
  | .dword v => v.toInt

/-- The bytes of the field. -/
def bytes : SignedField → List UInt8
  | .byte v => [v.toUInt8]
  | .dword v => Bytes.ofInt32 v

/-- The shortest field that holds the number. -/
def shortest (v : Int32) : SignedField :=
  if fitsInt8 v.toInt then .byte v.toInt8 else .dword v

end SignedField

/-- Opcode of the form with a register source. -/
def aluOpcode : AluOp → UInt8
  | .add => 0x01
  | .sub => 0x29
  | .and => 0x21
  | .or => 0x09
  | .xor => 0x31

/-- Operation field of the forms with an immediate source. -/
def aluField : AluOp → UInt8
  | .add => 0
  | .or => 1
  | .and => 4
  | .sub => 5
  | .xor => 6

/-- Opcode of the form that works on the accumulator with a four-byte immediate. -/
def aluAccumulatorOpcode : AluOp → UInt8
  | .add => 0x05
  | .sub => 0x2D
  | .and => 0x25
  | .or => 0x0D
  | .xor => 0x35

/-- Operation field of the shift forms. -/
def shiftField : ShiftOp → UInt8
  | .left => 4
  | .right => 5
  | .arithmetic => 7

end NativeForge.X64
