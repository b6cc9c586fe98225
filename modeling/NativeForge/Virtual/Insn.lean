import NativeForge.Bytes

/-!
# The virtual instruction format

An instruction slot is eight bytes: an operation code, two register numbers of four bits, a
signed 16-bit offset and a signed 32-bit immediate. The operation code splits into a class in its
low three bits and, depending on the class, an operation and a source kind or a size and a mode.
-/

namespace NativeForge.Virtual

/-- One instruction slot. The register fields are full bytes here; encoding keeps four bits. -/
structure Insn where
  /-- Operation code. -/
  code : UInt8
  /-- Destination register number. -/
  dst : UInt8
  /-- Source register number. -/
  src : UInt8
  /-- Signed branch or memory offset. -/
  off : Int16
  /-- Signed immediate. -/
  imm : Int32
deriving DecidableEq, Repr

namespace Insn

/-- The class: bits 0 to 2. -/
def cls (i : Insn) : UInt8 := i.code &&& 0x07

/-- The access size of a memory class: bits 3 and 4. -/
def size (i : Insn) : UInt8 := i.code &&& 0x18

/-- The mode of a memory class: bits 5 to 7. -/
def mode (i : Insn) : UInt8 := i.code &&& 0xE0

/-- The operation of an arithmetic or jump class: bits 4 to 7. -/
def op (i : Insn) : UInt8 := i.code &&& 0xF0

/-- The source kind of an arithmetic or jump class: bit 3. -/
def sourceKind (i : Insn) : UInt8 := i.code &&& 0x08

/-- The source is a register. -/
def fromRegister (i : Insn) : Bool := i.sourceKind == 0x08

/-- The slot opens a 64-bit immediate load. -/
def isWideLoad (i : Insn) : Bool := i.code == 0x18

/-- The slot is a fault-tolerant load. -/
def isProbeLoad (i : Insn) : Bool := i.cls == 1 && (i.mode == 0x20 || i.mode == 0x40)

/-- The slot calls another sub-program. -/
def isSubprogramCall (i : Insn) : Bool := i.code == 0x85 && i.src == 1

/-- The slot is a tail call, as the frame layout sees it. -/
def isTailCall (i : Insn) : Bool := i.code == 0xF5

/-- The eight bytes of a slot. -/
def encode (i : Insn) : List UInt8 :=
  [i.code, (i.src <<< 4) ||| (i.dst &&& 0x0F)] ++
    Bytes.ofUInt16 i.off.toUInt16 ++ Bytes.ofInt32 i.imm

/-- The slot that eight bytes hold. -/
def ofBytes (b0 b1 b2 b3 b4 b5 b6 b7 : UInt8) : Insn where
  code := b0
  dst := b1 &&& 0x0F
  src := b1 >>> 4
  off := (UInt16.ofNat (Bytes.value [b2, b3])).toInt16
  imm := (UInt32.ofNat (Bytes.value [b4, b5, b6, b7])).toInt32

/-- The slots of a byte string, if its length is a multiple of eight. -/
def ofByteString? : List UInt8 → Option (List Insn)
  | [] => some []
  | b0 :: b1 :: b2 :: b3 :: b4 :: b5 :: b6 :: b7 :: rest =>
    (ofByteString? rest).map (ofBytes b0 b1 b2 b3 b4 b5 b6 b7 :: ·)
  | _ => none

end Insn

end NativeForge.Virtual
