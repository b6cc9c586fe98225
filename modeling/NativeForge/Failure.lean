/-!
# Failures and checked machine words

A computation ends with a value, with a cause that is reported to the caller, or with a crash:
some sum or difference left its machine word, or an access left its bounds. Crashes are kept
apart from reported causes, so that a statement can exclude them by name. Addresses are 64-bit
words; their sums are checked, and their signed reading is two's complement.
-/

namespace NativeForge

/-- How a computation ends without a value. -/
inductive Failure (ε : Type) where
  /-- A machine word overflowed or an access left its bounds. -/
  | crash
  /-- A cause that is reported to the caller. -/
  | reported (cause : ε)
deriving DecidableEq, Repr

/-- The outcome of a computation that may crash or report a cause. -/
abbrev Result (ε α : Type) := Except (Failure ε) α

/-- Stop with a reported cause. -/
def report {ε α : Type} (cause : ε) : Result ε α := .error (.reported cause)

/-- Stop with a crash. -/
def crash {ε α : Type} : Result ε α := .error .crash

/-- Reword the reported cause and leave crashes and values alone. -/
def Failure.map {ε δ : Type} (f : ε → δ) : Failure ε → Failure δ
  | .crash => .crash
  | .reported cause => .reported (f cause)

/-- Reword the reported cause of an outcome. -/
def Result.mapCause {ε δ α : Type} (f : ε → δ) : Result ε α → Result δ α
  | .ok value => .ok value
  | .error failure => .error (failure.map f)

/-- An absolute address: a 64-bit word. -/
abbrev Address := UInt64

/-- An unsigned 64-bit word, or a crash when the number does not fit. -/
def word64 {ε : Type} (n : Nat) : Result ε Nat :=
  if n < UInt64.size then .ok n else crash

/-- A signed 64-bit word, or a crash when the number does not fit. -/
def signedWord64 {ε : Type} (v : Int) : Result ε Int :=
  if -0x8000_0000_0000_0000 ≤ v ∧ v < 0x8000_0000_0000_0000 then .ok v else crash

/-- A signed 32-bit word, or a crash when the number does not fit. -/
def signedWord32 {ε : Type} (v : Int) : Result ε Int32 :=
  if -0x8000_0000 ≤ v ∧ v < 0x8000_0000 then .ok (Int32.ofInt v) else crash

/-- The least multiple of `step` that is at least `n`. -/
def roundUp (n step : Nat) : Nat := (n + (step - 1)) / step * step

namespace Address

/-- The address `count` bytes further on, checked. -/
def plus {ε : Type} (a : Address) (count : Nat) : Result ε Address :=
  if a.toNat + count < UInt64.size then .ok (UInt64.ofNat (a.toNat + count)) else crash

/-- The two's complement reading of an address. -/
def signed (a : Address) : Int := a.toInt64.toInt

/-- The signed distance from `next` to `target`, checked. -/
def distance {ε : Type} (target next : Address) : Result ε Int :=
  signedWord64 (target.signed - next.signed)

end Address

/-- The number fits a signed byte. -/
def fitsInt8 (v : Int) : Bool := decide (-128 ≤ v ∧ v ≤ 127)

/-- The number fits a signed 32-bit field. -/
def fitsInt32 (v : Int) : Bool := decide (-0x8000_0000 ≤ v ∧ v < 0x8000_0000)

/-- The number fits an unsigned 32-bit field. -/
def fitsUInt32 (n : Nat) : Bool := decide (n < UInt32.size)

end NativeForge
