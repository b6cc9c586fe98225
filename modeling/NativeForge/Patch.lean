import NativeForge.Image
import NativeForge.Target.Abi

/-!
# Patches of live code

A patchable site is five bytes that hold a call, a jump, or an instruction that does nothing. A
patch names the state it expects and the state it wants; it writes only when the site holds
exactly what is expected, and otherwise answers that it did not match. Patches of a fresh image
and patches of code that may be running give the same answers; they differ in who may be patched.

Code that may be running is write-protected. A patch makes the site writable, writes it and
protects it again, and the system may refuse either change: what it answers is the argument
`Access` of the patch. The five bytes of a site change at once. How they are written one by one
behind a trap, how the other processors are synchronised, and how a processor that runs into the
trap goes on, is not described.
-/

namespace NativeForge

open Target

/-- Which instruction a populated site holds. -/
inductive PatchKind where
  | call
  | jump
deriving DecidableEq, Repr

/-- The answer to a patch whose targets are in range. -/
inductive PatchOutcome where
  /-- The site was changed. -/
  | patched
  /-- The site already held what was asked for. -/
  | unchanged
  /-- The site did not hold what was expected; nothing was written. -/
  | mismatch
deriving DecidableEq, Repr

/-- What the system answers when a site is made writable and, once it is written, protected
again. -/
inductive Access where
  /-- Both changes of the protection are made. -/
  | granted
  /-- The site is not made writable, so it is not written. -/
  | refused
  /-- The site is written, but it is not protected again. -/
  | unrestored
deriving DecidableEq, Repr

/-- A request to change a site from one target to another; no target means an empty site. -/
structure Patch where
  /-- Which instruction a populated site holds. -/
  kind : PatchKind
  /-- The target expected. -/
  old : Option Address
  /-- The target wanted. -/
  new : Option Address
deriving DecidableEq, Repr

/-- The displacement from the end of a site to its target. -/
def siteDisplacement (ip target : Address) : Result Error Int32 := do
  let next ← signedWord64 (ip.signed + siteSize)
  let rel ← signedWord64 (target.signed - next)
  if fitsInt32 rel then return Int32.ofInt rel else outOfRange .patchTarget rel

/-- The instruction of a site at `ip` with the given target. -/
def siteInstr (ip : Address) (kind : PatchKind) : Option Address → Result Error X64.Instr
  | none => .ok (.nop 4)
  | some target => do
    let rel ← siteDisplacement ip target
    match kind with
    | .call => return .call rel
    | .jump => return .jmp (.dword rel)

/-- The five bytes of a site at `ip` with the given target. -/
def siteBytes (ip : Address) (kind : PatchKind) (target : Option Address) :
    Result Error (List UInt8) := do
  let i ← siteInstr ip kind target
  return i.encode

namespace Image

/-- What a patch of the site at an offset comes to: the answer, and the bytes that the site has to
hold. -/
def judge (image : Image) (offset : Nat) (patch : Patch) :
    Result Error (PatchOutcome × List UInt8) := do
  let ip ← image.base.plus offset
  let old ← siteBytes ip patch.kind patch.old
  let new ← siteBytes ip patch.kind patch.new
  let current ← image.read offset siteSize
  if current ≠ old then return (.mismatch, current)
  else if current = new then return (.unchanged, current)
  else return (.patched, new)

/-- Patch the site at an offset of code that may be running. A patch that fails because the
protection was not restored has written the site. -/
def patchLive (image : Image) (offset : Nat) (patch : Patch) (access : Access := .granted) :
    Image × Result Error PatchOutcome :=
  match image.judge offset patch with
  | .error failure => (image, .error failure)
  | .ok (.patched, new) =>
    match access with
    | .granted => (image.poke offset new, .ok .patched)
    | .refused => (image, report (.outOfMemory .protectionFailed))
    | .unrestored => (image.poke offset new, report (.outOfMemory .protectionFailed))
  | .ok (outcome, _) => (image, .ok outcome)

/-- Patch the site at an offset of an executable image. -/
def patchInstalled (image : Image) (offset : Nat) (patch : Patch) (access : Access := .granted) :
    Image × Result Error PatchOutcome :=
  if !image.executable then (image, defect .imageNotInstalled)
  else
    match (word64 (offset + siteSize) : Result Error Nat) with
    | .error failure => (image, .error failure)
    | .ok stop =>
      if image.size < stop then (image, defect (.siteOutsideImage offset))
      else image.patchLive offset patch access

/-- Patch the site at an offset of an image that nothing runs in yet. -/
def patchFresh (image : Image) (offset : Nat) (patch : Patch) :
    Result Error (PatchOutcome × Image) := do
  let ip ← image.base.plus offset
  let old ← siteBytes ip patch.kind patch.old
  let new ← siteBytes ip patch.kind patch.new
  let current ← image.read offset siteSize
  if current ≠ old then return (.mismatch, image)
  else if old = new then return (.unchanged, image)
  else
    let image ← ofMemory (image.write offset new)
    return (.patched, image)

end Image

/-- The images that are mapped, by number; a released image leaves a gap. -/
structure Space where
  /-- The images. -/
  images : Array (Option Image) := #[]
deriving DecidableEq, Repr

namespace Space

/-- The image with a number. -/
def get? (space : Space) (number : Nat) : Option Image := (space.images[number]?).join

/-- Replace the image with a number. -/
def set (space : Space) (number : Nat) (image : Option Image) : Space :=
  ⟨space.images.setIfInBounds number image⟩

/-- Map a further image. -/
def push (space : Space) (image : Option Image) : Space := ⟨space.images.push image⟩

/-- The number of the image that an address lies in. -/
def find? (space : Space) (a : Address) : Option Nat :=
  space.images.findIdx? fun slot => slot.any fun image => image.contains a

/-- Patch the site at an address of some mapped image. -/
def patch (space : Space) (ip : Address) (patch : Patch) (access : Access := .granted) :
    Space × Result Error PatchOutcome :=
  match space.find? ip with
  | none => (space, crash)
  | some number =>
    match space.get? number with
    | none => (space, crash)
    | some image =>
      let (image, answer) := image.patchLive (ip.toNat - image.base.toNat) patch access
      (space.set number (some image), answer)

end Space

end NativeForge
