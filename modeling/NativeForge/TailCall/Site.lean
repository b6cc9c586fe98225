import NativeForge.Failure
import NativeForge.Target.Abi

/-!
# Sites of direct tail calls

A direct tail call has two patchable fields of five bytes: a jump that goes around the frame
teardown while the table slot is empty, and a jump to the target while it is not. `DirectSite`
gives them as offsets in emitted code, `PatchSite` as addresses in an image.
-/

namespace NativeForge.TailCall

/-- The two patchable fields of a direct tail call in an image. -/
structure PatchSite where
  /-- The jump around the frame teardown. -/
  bypass : Address
  /-- The jump to the target. -/
  target : Address
  /-- Where the bypass leads: just past the target jump. -/
  resume : Address
  /-- How far into the target program the jump goes. -/
  skip : Nat
deriving DecidableEq, Repr

/-- The two patchable fields of a direct tail call in emitted code. -/
structure DirectSite where
  /-- Number of the descriptor that the call goes through. -/
  descriptor : Nat
  /-- Offset of the bypass jump. -/
  bypassOffset : Nat
  /-- Offset of the target jump. -/
  targetOffset : Nat
deriving DecidableEq, Repr

/-- The site when the code it is part of starts `start` bytes later. -/
def DirectSite.shift (site : DirectSite) (start : Nat) : DirectSite :=
  { site with
    bypassOffset := start + site.bypassOffset
    targetOffset := start + site.targetOffset }

/-- The site in an image that starts at `base`. -/
def DirectSite.place {ε : Type} (site : DirectSite) (base : Address) : Result ε PatchSite := do
  let target ← base.plus site.targetOffset
  let bypass ← base.plus site.bypassOffset
  let resume ← target.plus Target.siteSize
  return ⟨bypass, target, resume, Target.tailCallSkip⟩

/-- A direct tail call as its program declares it. -/
structure Descriptor where
  /-- Number of the table that selects the target. -/
  table : Nat
  /-- Key in the table. -/
  key : UInt32
  /-- Where the call is patched, once an image holds it. -/
  site : Option PatchSite := none
deriving DecidableEq, Repr

end NativeForge.TailCall
