import NativeForge.CodeBuffer
import NativeForge.Image
import NativeForge.Target.Abi

/-!
# Dispatchers

A dispatcher maps the address in `rdx` to a direct jump by binary search, and falls back to a jump
through `rdx`. The search tree is built from the sorted addresses; its code puts the lower half
behind the branch and the upper half at the next multiple of sixteen. The branch takes one byte of
displacement if the lower half is short enough, and otherwise the lower half is emitted again
behind the longer branch.
-/

namespace NativeForge.Dispatcher

open X64 Target

/-- A search tree over addresses, read as signed words. -/
inductive Tree where
  /-- One address. -/
  | leaf (target : Int)
  /-- Addresses up to the pivot go to the lower tree. -/
  | node (pivot : Int) (lower upper : Tree)
deriving Repr

/-- Put a number into a sorted list unless it is there. -/
def insertSorted (v : Int) : List Int → List Int
  | [] => [v]
  | w :: rest => if v < w then v :: w :: rest else if v = w then w :: rest
    else w :: insertSorted v rest

/-- The signed readings of addresses in ascending order, each once. -/
def sortedTargets (targets : List Address) : List Int :=
  (targets.map Address.signed).foldr insertSorted []

/-- The search tree of the sorted addresses `first :: rest`: the lower half takes the middle
element. -/
def Tree.build (first : Int) (rest : List Int) : Tree :=
  if rest.length = 0 then .leaf first
  else
    let pivot := rest.length / 2
    .node ((first :: rest).getD pivot first)
      (.build first (rest.take pivot)) (.build (rest.getD pivot first) (rest.drop (pivot + 1)))
termination_by rest.length
decreasing_by
  · simp only [List.length_take]
    omega
  · simp only [List.length_drop]
    omega

/-- A piece of dispatcher code. -/
inductive Piece where
  /-- An instruction. -/
  | instr (i : Instr)
  /-- Padding that is never reached. -/
  | trap (count : Nat)
deriving DecidableEq, Repr

/-- The bytes of a piece. -/
def Piece.bytes : Piece → List UInt8
  | .instr i => i.encode
  | .trap count => List.replicate count trapByte

/-- The bytes of a sequence of pieces. -/
def pieceBytes (pieces : List Piece) : List UInt8 := pieces.flatMap Piece.bytes

/-- The number of bytes of a sequence of pieces. -/
def piecesSize (pieces : List Piece) : Nat := (pieces.map fun p => p.bytes.length).foldr (· + ·) 0

/-- Compare `rdx` with an address, through a scratch register when it is not a sign-extended
32-bit number. -/
def compareTo (v : Int) : List Instr :=
  if fitsInt32 v then [.cmpImm .wide .rdx (.shortest (Int32.ofInt v))]
  else [loadImm64 .r11 (Int64.ofInt v).toUInt64, .cmp .wide .rdx .r11]

/-- Jump to an address if the comparison before was equal. Without the address of the image the
displacement is a placeholder. -/
def jumpIfEqual (base : Option Address) (offset : Nat) (target : Int) : Result Error Instr :=
  match base with
  | none => .ok (.jcc .equal (.dword 0))
  | some base => do
    let next ← base.plus (offset + 6)
    let rel ← signedWord64 (target - next.signed)
    if fitsInt32 rel then return .jcc .equal (.dword (Int32.ofInt rel))
    else outOfRange .dispatcherJump rel

/-- The padding that brings an offset of the code to a multiple of sixteen. -/
def alignment (base : Option Address) (offset : Nat) : Result Error (List Piece) := do
  let current ← word64 ((base.getD 0).toNat + offset)
  let gap ← CodeBuffer.alignmentGap current 16
  return [.trap gap]

/-- The code of a search tree from an offset on. -/
def Tree.emit (base : Option Address) : Tree → Nat → Result Error (List Piece)
  | .leaf target, offset => do
    let test := compareTo target
    let jump ← jumpIfEqual base (offset + codeSize test) target
    return (test ++ [jump, .jmpReg .rdx]).map .instr
  | .node pivot lower upper, offset => do
    let test := (compareTo pivot).map Piece.instr
    let branch := offset + piecesSize test
    let code ← lower.emit base (branch + 2)
    let padding ← alignment base (branch + 2 + piecesSize code)
    let rel := piecesSize (code ++ padding)
    let front ← if fitsInt8 rel then
        pure (Piece.instr (.jcc .greater (.byte (Int8.ofInt rel))) :: code ++ padding)
      else do
        let code ← lower.emit base (branch + 6)
        let padding ← alignment base (branch + 6 + piecesSize code)
        let rel := piecesSize (code ++ padding)
        pure (Piece.instr (.jcc .greater (.dword (Int32.ofInt rel))) :: code ++ padding)
    let rest ← upper.emit base (branch + piecesSize front)
    return test ++ front ++ rest

/-- Emit a dispatcher over addresses for an image at `base`. -/
def emit (targets : List Address) (base : Option Address) : Result Error (List Piece) :=
  match sortedTargets targets with
  | [] => .ok [.instr (.jmpReg .rdx)]
  | first :: rest => (Tree.build first rest).emit base 0

/-- The size of a dispatcher. -/
def sizeOf (targets : List Address) : Result Error Nat := do
  let sized ← emit targets none
  return piecesSize sized

/-- A dispatcher in an executable image. -/
structure Installed where
  /-- The image. -/
  image : Image
  /-- The code. -/
  code : List Piece

/-- Emit a dispatcher of a known size into a fresh image and make it executable. -/
def install (targets : List Address) (sized : Nat) (image : Image) : Result Error Installed := do
  if image.base.toNat % 16 ≠ 0 then defect .dispatcherAlignment
  else
    let image ← ofMemory (image.fill trapByte)
    let code ← emit targets (some image.base)
    let bytes := pieceBytes code
    if bytes.length ≠ sized then defect (.dispatcherLength sized bytes.length)
    else
      let image ← ofMemory (image.write 0 bytes)
      let image ← ofMemory image.makeExecutable
      return ⟨image, code⟩

end NativeForge.Dispatcher
