import NativeForge.X64.Register

/-!
# Virtual registers

Ten general registers, the frame pointer, and two scratch registers that only the generator uses.
Each of them lives in one fixed native register.
-/

namespace NativeForge.Virtual

/-- A virtual register. -/
inductive VReg where
  | r0
  | r1
  | r2
  | r3
  | r4
  | r5
  | r6
  | r7
  | r8
  | r9
  /-- The frame pointer. -/
  | fp
  /-- First scratch register. -/
  | ax
  /-- Second scratch register. -/
  | aux
deriving DecidableEq, Repr

namespace VReg

/-- Every virtual register, in the order of their numbers. -/
def all : List VReg := [.r0, .r1, .r2, .r3, .r4, .r5, .r6, .r7, .r8, .r9, .fp, .ax, .aux]

/-- The register's number. -/
def number : VReg → Nat
  | .r0 => 0
  | .r1 => 1
  | .r2 => 2
  | .r3 => 3
  | .r4 => 4
  | .r5 => 5
  | .r6 => 6
  | .r7 => 7
  | .r8 => 8
  | .r9 => 9
  | .fp => 10
  | .ax => 11
  | .aux => 12

/-- The register's name in messages. -/
def name : VReg → String
  | .r0 => "R0"
  | .r1 => "R1"
  | .r2 => "R2"
  | .r3 => "R3"
  | .r4 => "R4"
  | .r5 => "R5"
  | .r6 => "R6"
  | .r7 => "R7"
  | .r8 => "R8"
  | .r9 => "R9"
  | .fp => "Fp"
  | .ax => "Ax"
  | .aux => "Aux"

/-- The native register that holds a virtual one. -/
def native : VReg → X64.Reg
  | .r0 => .rax
  | .r1 => .rdi
  | .r2 => .rsi
  | .r3 => .rdx
  | .r4 => .rcx
  | .r5 => .r8
  | .r6 => .rbx
  | .r7 => .r13
  | .r8 => .r14
  | .r9 => .r15
  | .fp => .rbp
  | .ax => .r10
  | .aux => .r11

/-- The register that an instruction names by number; the scratch registers have no name there. -/
def ofIndex? (index : UInt8) : Option VReg :=
  (all.take 11)[index.toNat]?

/-- The registers that a program has to leave as it found them, in the order of saving. -/
def calleeSaved : List VReg := [.r6, .r7, .r8, .r9]

end VReg

end NativeForge.Virtual
