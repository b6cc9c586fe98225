/-!
# General-purpose registers

The sixteen 64-bit registers, their numbers, and the two facts the encoder asks of them: whether
a register needs an extension bit in the prefix, and whether its low byte needs a prefix at all.
-/

namespace NativeForge.X64

/-- A general-purpose register. -/
inductive Reg where
  | rax
  | rcx
  | rdx
  | rbx
  | rsp
  | rbp
  | rsi
  | rdi
  | r8
  | r9
  | r10
  | r11
  | r12
  | r13
  | r14
  | r15
deriving DecidableEq, Repr

namespace Reg

/-- Every register, in the order of their numbers. -/
def all : List Reg :=
  [.rax, .rcx, .rdx, .rbx, .rsp, .rbp, .rsi, .rdi,
    .r8, .r9, .r10, .r11, .r12, .r13, .r14, .r15]

/-- The register's number in the instruction set. -/
def number : Reg → Nat
  | .rax => 0
  | .rcx => 1
  | .rdx => 2
  | .rbx => 3
  | .rsp => 4
  | .rbp => 5
  | .rsi => 6
  | .rdi => 7
  | .r8 => 8
  | .r9 => 9
  | .r10 => 10
  | .r11 => 11
  | .r12 => 12
  | .r13 => 13
  | .r14 => 14
  | .r15 => 15

/-- The name an assembler listing uses. -/
def name : Reg → String
  | .rax => "rax"
  | .rcx => "rcx"
  | .rdx => "rdx"
  | .rbx => "rbx"
  | .rsp => "rsp"
  | .rbp => "rbp"
  | .rsi => "rsi"
  | .rdi => "rdi"
  | .r8 => "r8"
  | .r9 => "r9"
  | .r10 => "r10"
  | .r11 => "r11"
  | .r12 => "r12"
  | .r13 => "r13"
  | .r14 => "r14"
  | .r15 => "r15"

/-- The low three bits of the number, which go into the instruction itself. -/
def code (r : Reg) : UInt8 := UInt8.ofNat (r.number % 8)

/-- The fourth bit of the number is set, so a prefix has to carry it. -/
def extended (r : Reg) : Bool := decide (8 ≤ r.number)

/-- A byte access to this register needs a prefix: without one, the codes 4 to 7 select the high
byte of the first four registers. -/
def needsBytePrefix (r : Reg) : Bool :=
  r.extended || r == .rsp || r == .rbp || r == .rsi || r == .rdi

end Reg

end NativeForge.X64
