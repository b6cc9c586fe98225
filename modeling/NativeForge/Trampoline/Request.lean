import NativeForge.Error
import NativeForge.Operator
import NativeForge.X64.Register

/-!
# Trampoline requests

A trampoline wraps a native function. Programs run before it, after it, or before it with the
right to replace its return value and to skip it. The request lists the programs, the hooks that
bracket them and the sizes of the function's arguments; `Request.check` refuses what cannot be
built.

The stack frame of a trampoline holds, from the frame pointer down: the return value if it is
kept, the arguments (the first one lowest), their number, the address of the function if it is
asked for, and the context handed to the hooks.
-/

namespace NativeForge.Trampoline

open X64

/-- Optional parts of a trampoline. -/
structure Flags where
  /-- Reload the argument registers before returning. -/
  restoreRegisters : Bool := false
  /-- Call the wrapped function. -/
  callWrapped : Bool := false
  /-- Return to the caller of the wrapped function. -/
  skipFrame : Bool := false
  /-- Store the address of the wrapped function for the programs. -/
  storeAddress : Bool := false
  /-- Return what the last program before the function returned. -/
  returnEntryValue : Bool := false
deriving DecidableEq, Repr

/-- A compiled program that is attached to a trampoline. -/
structure Attached where
  /-- Identity handed to the hooks. -/
  handle : UInt64
  /-- Address of the program. -/
  entry : Address
  /-- Value placed in the context before the program runs. -/
  cookie : UInt64
  /-- The program may sleep and takes the sleepable hooks. -/
  sleepable : Bool
deriving DecidableEq, Repr

/-- Functions called around each program and around the wrapped call. -/
structure Hooks where
  /-- Before a program; returns zero to skip it. -/
  enter : Address
  /-- After a program. -/
  exit : Address
  /-- Before a sleepable program. -/
  sleepableEnter : Address
  /-- After a sleepable program. -/
  sleepableExit : Address
  /-- Before everything, if the wrapped function is called. -/
  begin : Address
  /-- After everything, if the wrapped function is called. -/
  finish : Address
deriving DecidableEq, Repr

/-- A trampoline to build. -/
structure Request where
  /-- Sizes of the function's arguments in bytes. -/
  args : List UInt8
  /-- Optional parts. -/
  flags : Flags := {}
  /-- Programs that run before the function. -/
  entry : List Attached := []
  /-- Programs that run after the function. -/
  exit : List Attached := []
  /-- Programs that may replace the return value and skip the function. -/
  replace : List Attached := []
  /-- Hooks. -/
  hooks : Hooks
  /-- The wrapped function. -/
  wrapped : Address
  /-- Identity handed to the outer hooks. -/
  handle : UInt64
deriving DecidableEq, Repr

/-- The registers that carry arguments, in order. -/
def argRegisters : List Reg := [.rdi, .rsi, .rdx, .rcx, .r8, .r9]

/-- The access width of an argument size. -/
def argWidth (size : UInt8) : Width :=
  if size = 1 then .byte
  else if size = 2 then .half
  else if size = 4 then .word
  else .double

/-- The size is one of the access widths. -/
def argSizeSupported (size : UInt8) : Bool := size == 1 || size == 2 || size == 4 || size == 8

/-- The first rule that a request breaks. -/
def Request.check (r : Request) : Result Error Unit :=
  if argRegisters.length < r.args.length then
    report (.notSupported (.argumentCount r.args.length))
  else
    match r.args.find? fun size => !argSizeSupported size with
    | some size => report (.notSupported (.argumentSize size))
    | none =>
      if !r.replace.isEmpty && !r.flags.callWrapped then
        report (.notSupported .returnHookWithoutCall)
      else if r.flags.callWrapped && r.flags.returnEntryValue then
        report (.notSupported .entryReturnWithCall)
      else .ok ()

/-- Where the parts of the stack frame are, as distances below the frame pointer. -/
structure Slots where
  /-- Size of the whole frame. -/
  size : Nat
  /-- First argument. -/
  args : Nat
  /-- Number of arguments. -/
  count : Nat
  /-- Address of the wrapped function. -/
  address : Nat
  /-- Context handed to the hooks. -/
  context : Nat
  /-- The frame keeps a return value. -/
  keepsReturn : Bool
deriving DecidableEq, Repr

/-- The stack frame of a request. Its size keeps the stack aligned at calls. -/
def Request.slots (r : Request) : Slots :=
  let keepsReturn := r.flags.callWrapped || r.flags.returnEntryValue
  let args := 8 * r.args.length + (if keepsReturn then 8 else 0)
  let count := args + 8
  let address := count + (if r.flags.storeAddress then 8 else 0)
  let context := address + 16
  { size := roundUp context 16, args, count, address, context, keepsReturn }

end NativeForge.Trampoline
