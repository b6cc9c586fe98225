import NativeForge.X64.Register

/-!
# Facts about the target

Field offsets of the run-time structures that generated code reads, the slot of each register in
a saved register file, and the layout constants that all generators share.
-/

namespace NativeForge.Target

/-- Bytes of a patchable call or jump site. -/
def siteSize : Nat := 5

/-- Bytes at the start of every compiled program that a tail call skips. -/
def tailCallSkip : Nat := 11

/-- How many tail calls may follow one another. -/
def tailCallLimit : Nat := 33

/-- The byte that fills unused image memory: a trap. -/
def trapByte : UInt8 := 0xCC

/-- The usual slot of each native register, by number, in a saved register file. -/
def usualRegisterSlots : Vector UInt8 16 := #v[13, 14, 12, 11, 15, 10, 9, 8, 0, 1, 2, 3, 4, 5, 6, 7]

/-- Layout of the structures that generated code and fault handlers use. -/
structure Abi where
  /-- Offset of the entry count in a program array. -/
  arrayCountOffset : Int32 := 0
  /-- Offset of the first slot in a program array. -/
  arraySlotsOffset : Int32 := 8
  /-- Offset of the code address in a program descriptor. -/
  programCodeOffset : Int32 := 0
  /-- Slot of each native register, by number, in a saved register file. -/
  registerSlots : Vector UInt8 16 := usualRegisterSlots
deriving DecidableEq, Repr

/-- The slot of a native register in a saved register file. -/
def Abi.slot (abi : Abi) (r : X64.Reg) : UInt8 :=
  abi.registerSlots.get ⟨r.number, by cases r <;> decide⟩

end NativeForge.Target
