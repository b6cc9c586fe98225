import NativeForge.Patch
import NativeForge.TailCall.Site

/-!
# Tail-call tables

A table maps keys to entry addresses and knows the sites that were installed for each key. A
change of a slot is a list of single patches, in an order that never leaves a site without a jump;
`patchAll` performs them one by one and stops at the first that fails.
-/

namespace NativeForge.TailCall

open Target

/-- An installed site and the token under which it can be released. -/
structure Tracked where
  /-- Token of the installation. -/
  token : Nat
  /-- Key of the slot that selects the target. -/
  key : UInt32
  /-- The site. -/
  site : PatchSite
deriving DecidableEq, Repr

/-- A table of tail-call targets. -/
structure Table where
  /-- Number of slots. -/
  maxEntries : UInt32
  /-- Entry address of each slot. -/
  slots : UInt32 → Option Address := fun _ => none
  /-- Installed sites in the order of installation. -/
  tracked : List Tracked := []
  /-- Token of the next installation. Tokens are never used again, as if their counter could not
  overflow. -/
  nextToken : Nat := 1

/-- The patch of a jump site. -/
def jumpPatch (old new : Option Address) : Patch := ⟨.jump, old, new⟩

/-- The address a target jump goes to for a slot. -/
def PatchSite.landing {ε : Type} (site : PatchSite) : Option Address → Result ε (Option Address)
  | none => .ok none
  | some entry => do return some (← entry.plus site.skip)

/-- The patches that move a site from one slot value to another. A new target is in place before
the bypass is opened, and the bypass is closed before the target goes away. -/
def PatchSite.patches {ε : Type} (site : PatchSite) (old new : Option Address) :
    Result ε (List (Address × Patch)) := do
  let oldLanding ← site.landing old
  let newLanding ← site.landing new
  match new with
  | some _ =>
    return (site.target, jumpPatch oldLanding newLanding) ::
      (if old.isNone then [(site.bypass, jumpPatch (some site.resume) none)] else [])
  | none =>
    let closed := if old.isSome then none else some site.resume
    return [(site.bypass, jumpPatch closed (some site.resume)),
      (site.target, jumpPatch oldLanding none)]

/-- Perform patches in order. `access` lists what the system answers to them; what is not listed is
granted. A failure ends the list, and the images stay as they are then; a site that does not match
is a failure. -/
def patchAll (space : Space) (patches : List (Address × Patch)) (access : List Access := []) :
    Space × Result Error Unit :=
  match patches with
  | [] => (space, .ok ())
  | (ip, patch) :: rest =>
    match space.patch ip patch (access.headD .granted) with
    | (space, .error failure) => (space, .error failure)
    | (space, .ok .mismatch) => (space, defect (.siteOutOfSync ip))
    | (space, .ok _) => patchAll space rest access.tail

namespace Table

/-- The entry address of a slot. -/
def get? (t : Table) (key : UInt32) : Option Address := t.slots key

/-- The number of sites that are tracked for a key. -/
def trackedCount (t : Table) (key : UInt32) : Nat := t.tracked.countP fun s => s.key == key

/-- The key is one of the table's. -/
def checkKey (t : Table) (key : UInt32) : Result Error Unit :=
  if key < t.maxEntries then .ok () else outOfRange .tailCallKey key.toNat

/-- The patches that a change of a slot asks for, over all sites of its key. -/
def patches {ε : Type} (t : Table) (key : UInt32) (entry : Option Address) :
    Result ε (List (Address × Patch)) := do
  let groups ← (t.tracked.filter fun s => s.key == key).mapM fun s =>
    s.site.patches (t.slots key) entry
  return groups.flatten

/-- Set or clear a slot and repoint every site of its key. The slot changes only when every patch
succeeded. -/
def update (t : Table) (space : Space) (key : UInt32) (entry : Option Address)
    (access : List Access := []) : Space × Result Error Table :=
  match t.checkKey key with
  | .error failure => (space, .error failure)
  | .ok () =>
    match t.patches key entry with
    | .error failure => (space, .error failure)
    | .ok patches =>
      match patchAll space patches access with
      | (space, .error failure) => (space, .error failure)
      | (space, .ok ()) =>
        (space, .ok { t with slots := fun k => if k = key then entry else t.slots k })

/-- Patch a site of a fresh image that has to hold what was emitted. -/
def patchFresh (image : Image) (ip : Address) (patch : Patch) : Result Error Image := do
  let (outcome, image) ← image.patchFresh (ip.toNat - image.base.toNat) patch
  if outcome = .mismatch then defect .siteNotFresh else return image

/-- Install a fresh site: point it at the slot's target, if it has one, and track it. Gives the
token of the installation. -/
def install (t : Table) (key : UInt32) (site : PatchSite) (image : Image) :
    Result Error (Table × Image × Nat) := do
  t.checkKey key
  let image ← match t.slots key with
    | none => pure image
    | some entry => do
      let landing ← entry.plus site.skip
      let image ← patchFresh image site.target (jumpPatch none (some landing))
      patchFresh image site.bypass (jumpPatch (some site.resume) none)
  let tracked := t.tracked ++ [⟨t.nextToken, key, site⟩]
  return ({ t with tracked := tracked, nextToken := t.nextToken + 1 }, image, t.nextToken)

/-- Release the site that was installed under a token. -/
def untrack (t : Table) (token : Nat) : Table :=
  { t with tracked := t.tracked.filter fun s => s.token != token }

end Table

end NativeForge.TailCall
