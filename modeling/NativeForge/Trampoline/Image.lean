import NativeForge.Trampoline.Code

/-!
# Installed trampolines

A trampoline is emitted once to learn its size, gets memory with room for the worst alignment,
and is emitted again for its address. An installed trampoline is attached to a patchable site by
turning the site into a call.
-/

namespace NativeForge.Trampoline

open Target

/-- A trampoline in an executable image. -/
structure Installed where
  /-- The image. -/
  image : Image
  /-- Length of the code. -/
  size : Nat
  /-- Offset of the patchable site behind the wrapped call. -/
  afterCall : Option Nat
  /-- Offset of the exit bookkeeping. -/
  epilogue : Option Nat

/-- The size to ask for: the alignment depends on the address, so its worst case is added. -/
def reservedSize (r : Request) : Result Error Nat := do
  let sized ← emit r none
  return sized.bytes.length + 16

/-- Emit a trampoline into a fresh image and make it executable. -/
def install (r : Request) (image : Image) : Result Error Installed := do
  let image ← ofMemory (image.fill trapByte)
  let code ← emit r (some image.base)
  let bytes := code.bytes
  let image ← ofMemory (image.write 0 bytes)
  let image ← ofMemory image.makeExecutable
  return ⟨image, bytes.length, code.afterCall, code.epilogue⟩

/-- The patch that routes a call site into a trampoline. -/
def attachPatch (entry : Address) (old : Option Address) : Patch := ⟨.call, old, some entry⟩

/-- The patch that takes a call site out of a trampoline. -/
def detachPatch (entry : Address) : Patch := ⟨.call, some entry, none⟩

end NativeForge.Trampoline
