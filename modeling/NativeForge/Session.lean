import NativeForge.Compile
import NativeForge.Dispatcher
import NativeForge.Trampoline.Image

/-!
# Sessions

A session owns a row of equal image blocks, tail-call tables and the items built so far: compiled
programs, programs that wait for sub-programs, trampolines, dispatchers and raw blocks. Requests
are answered one by one; each block is used once, and an item that failed or was dropped is gone.
The system grants every change of a protection that a session asks for.
-/

namespace NativeForge

open Virtual Target TailCall

/-- A row of equal blocks. -/
structure Blocks where
  /-- Address of the first block. -/
  base : Address
  /-- Bytes of a block. -/
  size : Nat
  /-- Number of blocks. -/
  count : Nat
deriving DecidableEq, Repr

/-- A row of blocks with room for `size` bytes in each of them. -/
def Blocks.reserve (base : Address) (size count : Nat) : Result MemoryError Blocks := do
  return ⟨base, ← blockSize size, count⟩

/-- The block with a number, fresh. -/
def Blocks.blank (b : Blocks) (number : Nat) : Image :=
  .blank (b.base + UInt64.ofNat (number * b.size)) b.size

/-- How the allocator behaves in one compilation. -/
inductive AllocMode where
  /-- The next block. -/
  | next
  /-- No memory. -/
  | refuse
  /-- An invalid size. -/
  | invalid
  /-- The next block, but it is executable already. -/
  | locked
deriving DecidableEq, Repr

/-- What an item of a session is. -/
inductive ItemKind where
  /-- A compiled program: length of the code, exception table, installed tail calls. -/
  | compiled (size : Nat) (exceptions : ExceptionTable) (installed : List (Nat × Nat))
  /-- A program that waits for sub-programs, and the size that was asked for it. -/
  | pending (program : Program) (state : PendingProgram) (asked : Option Nat)
  /-- A trampoline: length of the code. -/
  | trampoline (size : Nat)
  /-- A dispatcher. -/
  | dispatcher
  /-- A raw block. -/
  | raw

/-- An item and the block it lives in. -/
structure Item where
  /-- Number of the block. -/
  block : Nat
  /-- What the item is. -/
  kind : ItemKind

/-- The state of a session. -/
structure Session where
  /-- The row of blocks. -/
  blocks : Blocks
  /-- The blocks used so far, one image each. -/
  space : Space := {}
  /-- Tail-call tables by number. -/
  tables : Array Table := #[]
  /-- Items by number; an item may be gone. -/
  items : Array (Option Item) := #[]

/-- Everything that a compilation starts from. -/
structure CompileRequest where
  /-- Settings. -/
  config : Config := {}
  /-- The program. -/
  program : Program
  /-- Addresses of call targets. -/
  helpers : HelperTable := {}
  /-- How the allocator behaves. -/
  alloc : AllocMode := .next

/-- A request to a session. -/
inductive Request where
  /-- Make a tail-call table. -/
  | table (maxEntries : UInt32)
  /-- Compile a program. -/
  | compile (request : CompileRequest)
  /-- Finish a pending program, perhaps with other instructions. -/
  | finish (item : Nat) (insns : Option (List Insn)) (helpers : HelperTable)
  /-- Change a slot of a table. -/
  | update (table : Nat) (key : UInt32) (entry : Option Address)
  /-- Read a slot of a table. -/
  | slot (table : Nat) (key : UInt32)
  /-- Count the tracked sites of a key. -/
  | tracked (table : Nat) (key : UInt32)
  /-- Read the code of an item. -/
  | code (item : Nat)
  /-- Search the exception table of a program. -/
  | search (item : Nat) (fault : Address)
  /-- Release an item. -/
  | drop (item : Nat)
  /-- Build a trampoline. -/
  | trampoline (request : Trampoline.Request)
  /-- Route a call site into a trampoline. -/
  | attach (item : Nat) (ip : Address) (old : Option Address)
  /-- Take a call site out of a trampoline. -/
  | detach (item : Nat) (ip : Address)
  /-- Build a dispatcher. -/
  | dispatcher (targets : List Address)
  /-- Take a raw block. -/
  | block
  /-- Fill a raw block. -/
  | fill (item : Nat) (byte : UInt8)
  /-- Write to a raw block. -/
  | write (item offset : Nat) (data : List UInt8)
  /-- Make a raw block executable. -/
  | makeExecutable (item : Nat)
  /-- Read a raw block. -/
  | read (item offset count : Nat)
  /-- Patch a site of an executable block. -/
  | patchInstalled (item offset : Nat) (patch : Patch)
  /-- Patch a site of a block that nothing runs in. -/
  | patchFresh (item offset : Nat) (patch : Patch)
  /-- Patch a site at an address of some block. -/
  | patchAt (ip : Address) (patch : Patch)

/-- The answer to a request. -/
inductive Answer where
  /-- A new table. -/
  | table (number : Nat) (maxEntries : UInt32)
  /-- A compilation. -/
  | compilation (c : Compilation)
  /-- Done. -/
  | done
  /-- The entry of a slot. -/
  | slot (entry : Option Address)
  /-- The number of tracked sites. -/
  | tracked (count : Nat)
  /-- The code of an item. -/
  | code (bytes : List UInt8)
  /-- The fixup of a fault. -/
  | fixup (f : Option Fixup)
  /-- A new trampoline. -/
  | trampoline (asked : Nat) (t : Trampoline.Installed)
  /-- The outcome of a patch. -/
  | patch (outcome : PatchOutcome)
  /-- A new dispatcher: where it is and of what it consists. -/
  | dispatcher (entry : Address) (asked : Nat) (code : List Dispatcher.Piece)
  /-- A new raw block. -/
  | block (base : Address) (size : Nat)
  /-- The protection of a block. -/
  | protection (executable : Bool)
  /-- Bytes of a block and its protection. -/
  | bytes (data : List UInt8) (executable : Bool)
  /-- A failure. -/
  | failed (failure : Failure Error)
  /-- A failure of image memory. -/
  | memoryFailed (failure : Failure MemoryError)
  /-- The request names an item or a table that does not exist. -/
  | missing

namespace Session

/-- The number of the next block. -/
def nextBlock (s : Session) : Nat := s.space.images.size

/-- A block is left. -/
def hasBlock (s : Session) : Bool := decide (s.nextBlock < s.blocks.count)

/-- The allocator of a compilation. The size asked for does not matter. -/
def alloc (s : Session) (mode : AllocMode) (_size : Nat) : Result MemoryError Image :=
  match mode with
  | .refuse => report .allocationFailed
  | .invalid => report .invalidSize
  | .next => if s.hasBlock then .ok (s.blocks.blank s.nextBlock) else report .allocationFailed
  | .locked =>
    if s.hasBlock then (s.blocks.blank s.nextBlock).makeExecutable
    else report .allocationFailed

/-- Mark the next block as used, with the image that lives in it, if any. -/
def useBlock (s : Session) (image : Option Image) : Session :=
  { s with space := s.space.push image }

/-- Add an item, or the gap of an item that failed. -/
def addItem (s : Session) (item : Option Item) : Session :=
  { s with items := s.items.push item }

/-- Replace an item. -/
def setItem (s : Session) (number : Nat) (item : Option Item) : Session :=
  { s with items := s.items.setIfInBounds number item }

/-- The item with a number. -/
def item? (s : Session) (number : Nat) : Option Item := (s.items[number]?).join

/-- The item with a number and the image it lives in. -/
def itemImage? (s : Session) (number : Nat) : Option (Item × Image) := do
  let item ← s.item? number
  let image ← s.space.get? item.block
  return (item, image)

/-- Put an image into a block. -/
def setImage (s : Session) (block : Nat) (image : Option Image) : Session :=
  { s with space := s.space.set block image }

/-- The item that a successful compilation leaves in a block. -/
def itemOf (block : Nat) (program : Program) (asked : Option Nat) : Outcome → Item × Image
  | .compiled c => (⟨block, .compiled c.size c.exceptions c.installed⟩, c.image)
  | .pending p => (⟨block, .pending program p asked⟩, p.image)

/-- Compile a program into the next block. -/
def compile (s : Session) (r : CompileRequest) : Session × Answer :=
  let c := NativeForge.compile r.config r.program r.helpers.resolve s.tables (s.alloc r.alloc)
  let takes := c.asked.isSome && s.hasBlock && (r.alloc == .next || r.alloc == .locked)
  let block := s.nextBlock
  let s := { s with tables := c.tables }
  match c.outcome with
  | .error _ => ((if takes then s.useBlock none else s).addItem none, .compilation c)
  | .ok outcome =>
    let program := { r.program with descriptors := c.descriptors }
    let (item, image) := itemOf block program c.asked outcome
    ((s.useBlock (some image)).addItem (some item), .compilation c)

/-- Finish a pending program in its block. -/
def finish (s : Session) (number : Nat) (insns : Option (List Insn)) (helpers : HelperTable) :
    Session × Answer :=
  match s.itemImage? number with
  | some (⟨block, .pending program state asked⟩, image) =>
    let program := match insns with
      | none => program
      | some insns => { program with insns }
    let c := PendingProgram.finish { state with image } program helpers.resolve s.tables asked
    let s := { s with tables := c.tables }
    match c.outcome with
    | .error _ => ((s.setImage block none).setItem number none, .compilation c)
    | .ok outcome =>
      let (item, image) := itemOf block program asked outcome
      ((s.setImage block (some image)).setItem number (some item), .compilation c)
  | _ => (s, .missing)

/-- Change a slot of a table. -/
def update (s : Session) (number : Nat) (key : UInt32) (entry : Option Address) :
    Session × Answer :=
  match s.tables[number]? with
  | none => (s, .missing)
  | some table =>
    match table.update s.space key entry with
    | (space, .error failure) => ({ s with space }, .failed failure)
    | (space, .ok table) =>
      ({ s with space, tables := s.tables.setIfInBounds number table }, .done)

/-- Release an item: its block is unmapped and its tail calls are no longer tracked. -/
def drop (s : Session) (number : Nat) : Session × Answer :=
  match s.item? number with
  | none => (s, .done)
  | some item =>
    let tables := match item.kind with
      | .compiled _ _ installed => release s.tables installed
      | _ => s.tables
    (({ s with tables }.setImage item.block none).setItem number none, .done)

/-- The code of a program or of a trampoline. -/
def code (s : Session) (number : Nat) : Answer :=
  match s.itemImage? number with
  | some (⟨_, .compiled size _ _⟩, image) | some (⟨_, .trampoline size⟩, image) =>
    match image.read 0 size with
    | .ok bytes => .code bytes
    | .error failure => .failed failure
  | _ => .missing

/-- Search the exception table of a program. -/
def search (s : Session) (number : Nat) (fault : Address) : Answer :=
  match s.item? number with
  | some ⟨_, .compiled _ exceptions _⟩ =>
    match exceptions.search fault with
    | .ok fixup => .fixup fixup
    | .error failure => .failed failure
  | _ => .missing

/-- Build a trampoline in the next block. -/
def trampoline (s : Session) (r : Trampoline.Request) : Session × Answer :=
  match Trampoline.reservedSize r with
  | .error failure => (s.addItem none, .failed failure)
  | .ok asked =>
    match ofMemory (s.alloc .next asked) with
    | .error failure => (s.addItem none, .failed failure)
    | .ok image =>
      match Trampoline.install r image with
      | .error failure => ((s.useBlock none).addItem none, .failed failure)
      | .ok t =>
        ((s.useBlock (some t.image)).addItem (some ⟨s.nextBlock, .trampoline t.size⟩),
          .trampoline asked t)

/-- Build a dispatcher in the next block. -/
def dispatcher (s : Session) (targets : List Address) : Session × Answer :=
  match Dispatcher.sizeOf targets with
  | .error failure => (s.addItem none, .failed failure)
  | .ok asked =>
    match ofMemory (s.alloc .next asked) with
    | .error failure => (s.addItem none, .failed failure)
    | .ok image =>
      match Dispatcher.install targets asked image with
      | .error failure => ((s.useBlock none).addItem none, .failed failure)
      | .ok d =>
        ((s.useBlock (some d.image)).addItem (some ⟨s.nextBlock, .dispatcher⟩),
          .dispatcher d.image.base asked d.code)

/-- Take a raw block. -/
def block (s : Session) : Session × Answer :=
  match s.alloc .next 0 with
  | .error failure => (s, .memoryFailed failure)
  | .ok image =>
    ((s.useBlock (some image)).addItem (some ⟨s.nextBlock, .raw⟩), .block image.base image.size)

/-- Change the image of an item. -/
def onImage (s : Session) (number : Nat)
    (change : Image → Result MemoryError (Image × Answer)) : Session × Answer :=
  match s.itemImage? number with
  | none => (s, .missing)
  | some (item, image) =>
    match change image with
    | .error failure => (s, .memoryFailed failure)
    | .ok (image, answer) => (s.setImage item.block (some image), answer)

/-- The answer to a patch. -/
def ofPatch : Result Error PatchOutcome → Answer
  | .error failure => .failed failure
  | .ok outcome => .patch outcome

/-- Patch the image of an item. -/
def onPatch (s : Session) (number : Nat) (patch : Image → Image × Result Error PatchOutcome) :
    Session × Answer :=
  match s.itemImage? number with
  | none => (s, .missing)
  | some (item, image) =>
    let (image, answer) := patch image
    (s.setImage item.block (some image), ofPatch answer)

/-- Patch a site at an address. -/
def patchAt (s : Session) (ip : Address) (patch : Patch) : Session × Answer :=
  let (space, answer) := s.space.patch ip patch
  ({ s with space }, ofPatch answer)

/-- Patch a site with a patch that depends on the entry of a trampoline. -/
def withEntry (s : Session) (number : Nat) (ip : Address) (patch : Address → Patch) :
    Session × Answer :=
  match s.itemImage? number with
  | none => (s, .missing)
  | some (_, image) => s.patchAt ip (patch image.base)

/-- Answer one request. -/
def step (s : Session) : Request → Session × Answer
  | .table maxEntries =>
    ({ s with tables := s.tables.push { maxEntries } }, .table s.tables.size maxEntries)
  | .compile r => s.compile r
  | .finish item insns helpers => s.finish item insns helpers
  | .update table key entry => s.update table key entry
  | .slot table key =>
    (s, match s.tables[table]? with | some t => .slot (t.get? key) | none => .missing)
  | .tracked table key =>
    (s, match s.tables[table]? with | some t => .tracked (t.trackedCount key) | none => .missing)
  | .code item => (s, s.code item)
  | .search item fault => (s, s.search item fault)
  | .drop item => s.drop item
  | .trampoline r => s.trampoline r
  | .attach item ip old => s.withEntry item ip (Trampoline.attachPatch · old)
  | .detach item ip => s.withEntry item ip Trampoline.detachPatch
  | .dispatcher targets => s.dispatcher targets
  | .block => s.block
  | .fill item byte => s.onImage item fun image => do return (← image.fill byte, .done)
  | .write item offset data =>
    s.onImage item fun image => do return (← image.write offset data, .done)
  | .makeExecutable item =>
    s.onImage item fun image => do return (← image.makeExecutable, .protection true)
  | .read item offset count =>
    s.onImage item fun image => do
      return (image, .bytes (← image.read offset count) image.executable)
  | .patchInstalled item offset patch =>
    s.onPatch item fun image => image.patchInstalled offset patch
  | .patchFresh item offset patch =>
    s.onPatch item fun image =>
      match image.patchFresh offset patch with
      | .error failure => (image, .error failure)
      | .ok (outcome, image) => (image, .ok outcome)
  | .patchAt ip patch => s.patchAt ip patch

end Session

/-- The request crashed, so nothing after it is answered. -/
def Answer.crashed : Answer → Bool
  | .compilation c => match c.outcome with | .error .crash => true | _ => false
  | .failed .crash => true
  | .memoryFailed .crash => true
  | _ => false

/-- Answer requests in order, up to the first crash. -/
def Session.run (s : Session) : List Request → List Answer
  | [] => []
  | r :: rest =>
    let (s, answer) := s.step r
    if answer.crashed then [answer] else answer :: s.run rest

end NativeForge
