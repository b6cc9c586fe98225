import NativeForge.Bytes
import NativeForge.Error

/-!
# Exception tables

One entry of twelve bytes per fault-tolerant load, stored behind the code. An entry gives the
load by its distance from the entry itself, so that the table needs no relocation, and packs the
bytes to skip and the register slot to clear into one word.
-/

namespace NativeForge

/-- Bytes of one entry. -/
def exceptionEntrySize : Nat := 12

/-- A fault-tolerant load in emitted code. -/
structure ProbeSite where
  /-- Offset of the load. -/
  offset : Nat
  /-- Length of the load. -/
  size : Nat
  /-- Slot of the register to clear. -/
  slot : UInt8
deriving DecidableEq, Repr

/-- One entry of an exception table. -/
structure ExceptionEntry where
  /-- Distance from the entry to the load. -/
  delta : Int32
  /-- Bytes to skip in the low byte, register slot above it. -/
  fixup : UInt32
  /-- Who made the entry; always one here. -/
  kind : Int32 := 1
deriving DecidableEq, Repr

namespace ExceptionEntry

/-- Bytes to skip after a fault. -/
def skip (e : ExceptionEntry) : UInt8 := (e.fixup &&& 0xFF).toUInt8

/-- Register slot to clear after a fault. -/
def slot (e : ExceptionEntry) : UInt32 := e.fixup >>> 8

/-- The bytes of an entry. -/
def bytes (e : ExceptionEntry) : List UInt8 :=
  Bytes.ofInt32 e.delta ++ Bytes.ofUInt32 e.fixup ++ Bytes.ofInt32 e.kind

end ExceptionEntry

/-- The packed word of a load: its length below 256 and the register slot. -/
def ProbeSite.fixup (site : ProbeSite) : Result Error UInt32 :=
  if 0xFF < site.size then defect (.fixupLength site.size)
  else .ok (UInt32.ofNat site.size ||| (site.slot.toUInt32 <<< 8))

/-- The entry of a load when the entry is at `entryOffset`. -/
def ProbeSite.entry (site : ProbeSite) (entryOffset : Nat) : Result Error ExceptionEntry := do
  let entryOffset ← word64 entryOffset
  let delta ← Address.distance (UInt64.ofNat site.offset) (UInt64.ofNat entryOffset)
  if fitsInt32 delta then
    let fixup ← site.fixup
    return { delta := Int32.ofInt delta, fixup := fixup }
  else outOfRange .exceptionDelta delta

/-- The entries of a list of loads, the first of them at `offset`. -/
def exceptionEntries (offset : Nat) : List ProbeSite → Result Error (List ExceptionEntry)
  | [] => .ok []
  | site :: rest => do
    let entry ← site.entry offset
    let tail ← exceptionEntries (offset + exceptionEntrySize) rest
    return entry :: tail

/-- How to go on after a fault. -/
structure Fixup where
  /-- Address to go on at. -/
  resume : Address
  /-- Register slot to clear. -/
  slot : UInt32
deriving DecidableEq, Repr

/-- An exception table in memory. -/
structure ExceptionTable where
  /-- Address of the first entry. -/
  addr : Address
  /-- Entries in order. -/
  entries : List ExceptionEntry
deriving DecidableEq, Repr

namespace ExceptionTable

/-- The address of the load that the entry at `field` covers. -/
def loadAddress {ε : Type} (field : Nat) (e : ExceptionEntry) : Result ε Address := do
  let field ← word64 field
  let load ← signedWord64 (Address.signed (UInt64.ofNat field) + e.delta.toInt)
  return (Int64.ofInt load).toUInt64

/-- The addresses of the loads that the entries from address `field` on cover. -/
def loadsFrom {ε : Type} (field : Nat) : List ExceptionEntry → Result ε (List Address)
  | [] => .ok []
  | e :: rest => do
    let load ← loadAddress field e
    let tail ← loadsFrom (field + exceptionEntrySize) rest
    return load :: tail

/-- The addresses of all covered loads. -/
def loads {ε : Type} (t : ExceptionTable) : Result ε (List Address) :=
  loadsFrom t.addr.toNat t.entries

/-- The first entry from address `field` on that covers the fault. -/
def searchFrom {ε : Type} (fault : Address) (field : Nat) :
    List ExceptionEntry → Result ε (Option Fixup)
  | [] => .ok none
  | e :: rest => do
    let load ← loadAddress field e
    if load = fault then
      let resume ← fault.plus e.skip.toNat
      return some ⟨resume, e.slot⟩
    else searchFrom fault (field + exceptionEntrySize) rest

/-- How to go on after a fault at an address, if the table covers it. -/
def search {ε : Type} (t : ExceptionTable) (fault : Address) : Result ε (Option Fixup) :=
  searchFrom fault t.addr.toNat t.entries

end ExceptionTable

end NativeForge
