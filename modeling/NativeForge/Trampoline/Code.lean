import NativeForge.Image
import NativeForge.Patch
import NativeForge.Target.Abi
import NativeForge.Trampoline.Request
import NativeForge.X64.Assembler

/-!
# Trampoline code

The code of a trampoline, piece by piece: save the arguments, run the programs, call the wrapped
function, restore and return. Every piece is emitted for a known offset, because calls are
relative; the veto branches of the replacing programs all lead to one aligned offset behind the
wrapped call, which is known only after the pieces between are.
-/

namespace NativeForge.Trampoline

open X64 Target

/-- The displacement that reaches `n` bytes below the frame pointer. -/
def below (n : Nat) : SignedField := .shortest (Int32.ofInt (-(n : Int)))

/-- The slot of the return value. -/
def returnSlot : SignedField := .byte (-8)

/-- A call from an offset of the code. Without the address of the image the displacement is a
placeholder. -/
def callFrom (base : Option Address) (offset : Nat) (target : Address) : Result Error Instr :=
  match base with
  | none => .ok (.call 0)
  | some base => do
    let next ← base.plus (offset + siteSize)
    let rel ← target.distance next
    if fitsInt32 rel then return .call (Int32.ofInt rel) else outOfRange .trampolineCall rel

/-- Each argument register with its width and its slot. -/
def argSlots (r : Request) : List (Reg × Width × SignedField) :=
  (argRegisters.zip r.args).zipIdx.map fun ((reg, size), i) =>
    (reg, argWidth size, below (r.slots.args - 8 * i))

/-- Store the argument registers. -/
def saveArgs (r : Request) : List Instr :=
  (argSlots r).map fun (reg, width, slot) => .store width .rbp reg slot

/-- Reload the argument registers. -/
def restoreArgs (r : Request) : List Instr :=
  (argSlots r).map fun (reg, width, slot) => .load width reg .rbp slot

/-- Build the frame and store what the programs read. -/
def opening (r : Request) : List Instr :=
  let slots := r.slots
  [.push .rbp, .mov .wide .rbp .rsp, aluWithImm .sub .wide .rsp (Int32.ofNat slots.size),
    .push .rbx, loadImm64 .rax (UInt64.ofNat r.args.length),
    .store .double .rbp .rax (below slots.count)] ++
  (if r.flags.storeAddress then
    [.load .double .rax .rbp (.byte 8), aluWithImm .sub .wide .rax (Int32.ofNat siteSize),
      .store .double .rbp .rax (below slots.address)]
   else []) ++
  saveArgs r

/-- Put the cookie into the context and load the arguments of the enter hook. -/
def enterArgs (r : Request) (program : Attached) : List Instr :=
  [loadImm64 .rdi program.cookie, .store .double .rbp .rdi (below r.slots.context),
    loadImm64 .rdi program.handle, .lea .rsi .rbp (below r.slots.context)]

/-- Load the arguments of the exit hook; what the enter hook returned is in `rbx`. -/
def exitArgs (r : Request) (program : Attached) : List Instr :=
  [loadImm64 .rdi program.handle, .mov .wide .rsi .rbx, .lea .rdx .rbp (below r.slots.context)]

/-- Run one program between its hooks, from an offset of the code. The program is skipped when the
enter hook returns zero. -/
def invoke (r : Request) (base : Option Address) (offset : Nat) (program : Attached)
    (keepReturn : Bool) : Result Error (List Instr) := do
  let enter := if program.sleepable then r.hooks.sleepableEnter else r.hooks.enter
  let exit := if program.sleepable then r.hooks.sleepableExit else r.hooks.exit
  let args := enterArgs r program
  let enterCall ← callFrom base (offset + codeSize args) enter
  let test := args ++ [enterCall, .mov .wide .rbx .rax, .test .wide .rax .rax]
  let context : Instr := .lea .rdi .rbp (below r.slots.args)
  let entryCall ← callFrom base (offset + codeSize test + 2 + context.size) program.entry
  let body := [context, entryCall] ++
    (if keepReturn then [.store .double .rbp .rax returnSlot] else [])
  if fitsInt8 (codeSize body) then
    let run := test ++ [.jcc .equal (.byte (Int8.ofInt (codeSize body)))] ++ body ++
      exitArgs r program
    let exitCall ← callFrom base (offset + codeSize run) exit
    return run ++ [exitCall]
  else defect .trampolineSkip

/-- Run programs one behind the other, from an offset of the code. -/
def invokeAll (r : Request) (base : Option Address) (keepReturn : Bool) :
    Nat → List Attached → Result Error (List Instr)
  | _, [] => .ok []
  | offset, program :: rest => do
    let code ← invoke r base offset program keepReturn
    let tail ← invokeAll r base keepReturn (offset + codeSize code) rest
    return code ++ tail

/-- Bytes of a veto branch. -/
def vetoSize : Nat := 6

/-- A replacing program, up to the branch that skips the wrapped function. -/
structure Veto where
  /-- The program between its hooks and the test of its return value. -/
  code : List Instr
  /-- Offset of the branch. -/
  branch : Nat
deriving DecidableEq, Repr

/-- The code of a replacing program with its branch to `target`. -/
def Veto.instrs (v : Veto) (target : Nat) : List Instr :=
  v.code ++ [.jcc .notEqual (.dword (Int32.ofInt ((target : Int) - (v.branch + vetoSize))))]

/-- Clear the return value, so that the first replacing program sees no stale one. -/
def clearReturn : List Instr :=
  [loadImm32 .rax 0 false, .store .double .rbp .rax returnSlot]

/-- The replacing programs, from an offset of the code. -/
def vetoes (r : Request) (base : Option Address) :
    Nat → List Attached → Result Error (List Veto)
  | _, [] => .ok []
  | offset, program :: rest => do
    let run ← invoke r base offset program true
    let code := run ++ [.cmpMemImm .wide .rbp returnSlot 0]
    let branch := offset + codeSize code
    let tail ← vetoes r base (branch + vetoSize) rest
    return ⟨code, branch⟩ :: tail

/-- Bytes of a list of replacing programs, branches included. -/
def vetoesSize (vs : List Veto) : Nat := (vs.map fun v => codeSize v.code + vetoSize).foldr (· + ·) 0

/-- Load the identity of the trampoline and call an outer hook. -/
def outerHook (r : Request) (base : Option Address) (offset : Nat) (hook : Address) :
    Result Error (List Instr) := do
  let load := loadImm64 .rdi r.handle
  let call ← callFrom base (offset + load.size) hook
  return [load, call]

/-- The wrapped call and what follows it up to the patchable site. -/
def wrappedCall (r : Request) (base : Option Address) (offset : Nat) (wrapped : Address) :
    Result Error (List Instr) := do
  let args := restoreArgs r
  let call ← callFrom base (offset + codeSize args) wrapped
  return args ++ [call, .store .double .rbp .rax returnSlot]

/-- How many bytes bring an offset of the code to a multiple of sixteen. -/
def branchGap {ε : Type} (base : Option Address) (offset : Nat) : Result ε Nat := do
  let here ← word64 ((base.getD 0).toNat + offset)
  let aligned ← word64 (roundUp here 16)
  return aligned - here

/-- Reload the return value, take the frame down and return. -/
def closing (r : Request) : List Instr :=
  (if r.slots.keepsReturn then [.load .double .rax .rbp returnSlot] else []) ++
  [.pop .rbx, .leave] ++
  (if r.flags.skipFrame then [aluWithImm .add .wide .rsp 8] else []) ++
  [.ret]

/-- The code of a trampoline; offsets are counted from its start. -/
structure Code where
  /-- The instructions. -/
  instrs : List Instr
  /-- Offset of the patchable site behind the wrapped call. -/
  afterCall : Option Nat
  /-- Offset of the exit bookkeeping. -/
  epilogue : Option Nat
deriving DecidableEq, Repr

/-- The bytes of a trampoline. -/
def Code.bytes (c : Code) : List UInt8 := encodeAll c.instrs

/-- Emit a checked request for an image at `base`. -/
def emitChecked (r : Request) (base : Option Address) : Result Error Code := do
  let wrapped ← if r.flags.skipFrame then r.wrapped.plus siteSize else pure r.wrapped
  let head := opening r
  let beginHook ← if r.flags.callWrapped then
    outerHook r base (codeSize head) r.hooks.begin else pure []
  let head := head ++ beginHook
  let entry ← invokeAll r base r.flags.returnEntryValue (codeSize head) r.entry
  let head := head ++ entry ++ (if r.replace.isEmpty then [] else clearReturn)
  let vs ← vetoes r base (codeSize head) r.replace
  let offset := codeSize head + vetoesSize vs
  let middle ← if r.flags.callWrapped then wrappedCall r base offset wrapped else pure []
  let afterCall := if r.flags.callWrapped then some (offset + codeSize middle) else none
  let middle := middle ++ (if r.flags.callWrapped then [.nop 4] else [])
  let offset := offset + codeSize middle
  let gap ← if r.replace.isEmpty then pure 0 else branchGap base offset
  let target := offset + gap
  let exits ← invokeAll r base false target r.exit
  let tail := exits ++ (if r.flags.restoreRegisters then restoreArgs r else [])
  let offset := target + codeSize tail
  let finishHook ← if r.flags.callWrapped then
    outerHook r base offset r.hooks.finish else pure []
  return {
    instrs := head ++ vs.flatMap (Veto.instrs · target) ++ middle ++ nops gap ++ tail ++
      finishHook ++ closing r
    afterCall := afterCall
    epilogue := if r.flags.callWrapped then some offset else none }

/-- Emit a trampoline for an image at `base`. Without a base the displacements of calls are
placeholders. -/
def emit (r : Request) (base : Option Address) : Result Error Code := do
  r.check
  emitChecked r base

end NativeForge.Trampoline
