import NativeForge.Proofs.Emission

/-!
# Where reported causes come from

Every stage of a compilation reports defects of its own: reading a slot, lowering an operation,
giving a branch its form, running a pass, driving the passes, counting the fault-tolerant loads,
filling the image. `Defect.stage` names the stage of a defect, and the lemmas here say of every
function of the generator that it reports nothing else. A failed compilation can therefore be traced
back to the stage it failed in.
-/

namespace NativeForge

open X64 Virtual Target TailCall

/-- A part of the generator that finds defects. -/
inductive Stage where
  /-- Reading a slot as an operation. -/
  | slot
  /-- Lowering an operation to native instructions. -/
  | lowering
  /-- Giving a branch its distance and its form. -/
  | branch
  /-- Running one pass over a program. -/
  | pass
  /-- Repeating passes until they settle. -/
  | driver
  /-- Comparing the fault-tolerant loads of the final pass with those of the program. -/
  | count
  /-- Filling an image and installing tail calls. -/
  | image
  /-- Trampolines, dispatchers and patches of live code. -/
  | elsewhere
deriving DecidableEq, Repr

/-- The part of the generator that reports a defect. -/
def Defect.stage : Defect → Stage
  | .invalidRegister _ | .unknownOpcode _ | .truncatedWideLoad | .probeDestination _ => .slot
  | .atomicLoopTooLong | .unresolvedHelper .. | .missingDescriptor _ | .tailCallBranch _ =>
    .lowering
  | .jumpLeavesProgram .. | .unexpectedPadding .. => .branch
  | .offsetMapLength | .instructionTooLong .. => .pass
  | .emptyProgram | .notConverged _ | .finalLength .. | .finalOffsets
  | .unresolvedSubprograms _ => .driver
  | .probeCount .. => .count
  | .lostDescriptor | .siteNotFresh | .fixupLength _ => .image
  | .siteOutOfSync _ | .imageNotInstalled | .siteOutsideImage _ | .trampolineSkip
  | .dispatcherAlignment | .dispatcherLength .. => .elsewhere

/-- The part of the generator that finds a number out of its range. -/
def Quantity.stage : Quantity → Stage
  | .jumpDisplacement | .branchDisplacement => .branch
  | .callDisplacement => .lowering
  | .patchTarget | .tailCallKey | .exceptionDelta => .image
  | .trampolineCall | .dispatcherJump => .elsewhere

/-- A computation fails only with failures that satisfy a predicate. -/
def FailsOnly {ε α : Type} (P : ε → Prop) (r : Except ε α) : Prop := ∀ e, r = .error e → P e

section

variable {ε α β : Type} {P : ε → Prop}

/-- A value is no failure. -/
@[simp]
theorem failsOnly_ok (a : α) : FailsOnly P (.ok a : Except ε α) := nofun

/-- A returned value is no failure. -/
@[simp]
theorem failsOnly_pure (a : α) : FailsOnly P (pure a : Except ε α) := nofun

/-- A failure satisfies the predicate or not. -/
@[simp]
theorem failsOnly_error {e : ε} : FailsOnly P (.error e : Except ε α) ↔ P e := by
  simp [FailsOnly]

/-- A sequence fails as its first part does, and as the rest does behind what the first part
gave. -/
theorem FailsOnly.bind_of_eq {r : Except ε α} {next : α → Except ε β} (hr : FailsOnly P r)
    (hnext : ∀ a, r = .ok a → FailsOnly P (next a)) : FailsOnly P (r >>= next) := by
  intro e he
  rcases bind_eq_error.mp he with he | ⟨a, ha, he⟩
  · exact hr e he
  · exact hnext a ha e he

/-- A sequence fails as its parts do. -/
theorem FailsOnly.bind {r : Except ε α} {next : α → Except ε β} (hr : FailsOnly P r)
    (hnext : ∀ a, FailsOnly P (next a)) : FailsOnly P (r >>= next) :=
  .bind_of_eq hr fun a _ => hnext a

/-- A choice fails as its branches do. -/
theorem FailsOnly.ite {c : Prop} [Decidable c] {r s : Except ε α} (hr : FailsOnly P r)
    (hs : FailsOnly P s) : FailsOnly P (if c then r else s) := by
  split
  · exact hr
  · exact hs

end

/-- The failure is a crash, memory that could not be had, a request that is not supported, or a
defect or a number out of its range that one of the stages finds. -/
def Failure.From (stages : List Stage) : Failure Error → Prop
  | .reported (.internal d) => d.stage ∈ stages
  | .reported (.outOfRange q _) => q.stage ∈ stages
  | _ => True

/-- A failure of some stages is one of more stages. -/
theorem Failure.From.mono {stages more : List Stage} {f : Failure Error} (h : f.From stages)
    (hsub : stages ⊆ more) : f.From more := by
  cases f with
  | crash => trivial
  | reported cause =>
    cases cause with
    | internal d => exact hsub h
    | outOfRange q v => exact hsub h
    | _ => trivial

section

variable {α : Type} {stages : List Stage}

/-- A computation that fails in some stages fails in more stages. -/
theorem FailsOnly.mono {r : Result Error α} {more : List Stage}
    (h : FailsOnly (Failure.From stages) r) (hsub : stages ⊆ more) :
    FailsOnly (Failure.From more) r :=
  fun f hf => (h f hf).mono hsub

/-- A crash belongs to every stage. -/
@[simp]
theorem failsOnly_crash : FailsOnly (Failure.From stages) (crash : Result Error α) :=
  failsOnly_error.mpr trivial

/-- A number out of its range belongs to the stage that finds it. -/
@[simp]
theorem failsOnly_outOfRange (q : Quantity) (v : Int) :
    FailsOnly (Failure.From stages) (outOfRange q v : Result Error α) ↔ q.stage ∈ stages :=
  failsOnly_error

/-- A defect belongs to its stage. -/
@[simp]
theorem failsOnly_defect (d : Defect) :
    FailsOnly (Failure.From stages) (defect d : Result Error α) ↔ d.stage ∈ stages :=
  failsOnly_error

/-- A memory failure belongs to every stage. -/
@[simp]
theorem failsOnly_ofMemory (r : Result MemoryError α) :
    FailsOnly (Failure.From stages) (ofMemory r) := by
  intro f hf
  cases r with
  | ok a => cases hf
  | error cause =>
    cases cause with
    | crash =>
      cases hf
      trivial
    | reported cause =>
      cases hf
      trivial

/-- A checked 64-bit number only crashes. -/
@[simp]
theorem failsOnly_word64 (n : Nat) : FailsOnly (Failure.From stages) (word64 n : Result Error Nat) := by
  unfold word64
  exact .ite (failsOnly_ok _) failsOnly_crash

/-- A checked signed 64-bit number only crashes. -/
@[simp]
theorem failsOnly_signedWord64 (v : Int) :
    FailsOnly (Failure.From stages) (signedWord64 v : Result Error Int) := by
  unfold signedWord64
  exact .ite (failsOnly_ok _) failsOnly_crash

/-- A checked signed 32-bit number only crashes. -/
@[simp]
theorem failsOnly_signedWord32 (v : Int) :
    FailsOnly (Failure.From stages) (signedWord32 v : Result Error Int32) := by
  unfold signedWord32
  exact .ite (failsOnly_ok _) failsOnly_crash

/-- A checked address sum only crashes. -/
@[simp]
theorem failsOnly_plus (a : Address) (count : Nat) :
    FailsOnly (Failure.From stages) (a.plus count : Result Error Address) := by
  unfold Address.plus
  exact .ite (failsOnly_ok _) failsOnly_crash

/-- The rounded depth only crashes. -/
@[simp]
theorem failsOnly_roundedDepth (f : Frame) :
    FailsOnly (Failure.From stages) (f.roundedDepth : Result Error UInt32) := by
  unfold Frame.roundedDepth
  exact .ite (failsOnly_ok _) failsOnly_crash

end

namespace Virtual

/-- The defect is one of a slot. -/
def IsSlotDefect (d : Defect) : Prop := d.stage = .slot

/-- A field that names no register is a defect of its slot. -/
theorem register_failsOnly (index : UInt8) : FailsOnly IsSlotDefect (register index) := by
  unfold register
  split
  · exact failsOnly_ok _
  · exact failsOnly_error.mpr rfl

namespace Insn

variable (i : Insn)

/-- An operation code without meaning is a defect of its slot. -/
theorem unknown_failsOnly {α : Type} : FailsOnly IsSlotDefect (i.unknown : Except Defect α) :=
  failsOnly_error.mpr rfl

/-- An operand without a register is a defect of its slot. -/
theorem operand_failsOnly : FailsOnly IsSlotDefect i.operand := by
  unfold operand
  exact .ite (.bind (register_failsOnly _) fun _ => failsOnly_pure _) (failsOnly_ok _)

/-- An operation on an operand fails with the operand. -/
theorem withOperand_failsOnly (operation : Operand → Operation) :
    FailsOnly IsSlotDefect (do return operation (← i.operand)) :=
  .bind i.operand_failsOnly fun _ => failsOnly_pure _

/-- An arithmetic slot reports only defects of slots. -/
theorem arithmetic_failsOnly (size : OpSize) : FailsOnly IsSlotDefect (i.arithmetic size) := by
  unfold arithmetic
  refine .bind (register_failsOnly _) fun dst => ?_
  split
  · exact i.withOperand_failsOnly _
  · exact i.withOperand_failsOnly _
  · refine .ite (i.withOperand_failsOnly _) (.ite (failsOnly_pure _) (.ite
      (i.withOperand_failsOnly _) (.ite (i.withOperand_failsOnly _) (.ite
      (i.withOperand_failsOnly _) (.ite ?_ i.unknown_failsOnly)))))
    exact .ite (failsOnly_pure _) (.ite (failsOnly_pure _) (.ite (failsOnly_pure _)
      i.unknown_failsOnly))

/-- A load slot reports only defects of slots. -/
theorem loading_failsOnly : FailsOnly IsSlotDefect i.loading := by
  unfold loading
  refine .bind (register_failsOnly _) fun dst => .bind (register_failsOnly _) fun base => ?_
  refine .ite (failsOnly_pure _) (.ite (failsOnly_pure _) (.ite ?_ i.unknown_failsOnly))
  refine .ite (failsOnly_error.mpr rfl) (.ite (failsOnly_pure _) ?_)
  exact .ite (failsOnly_pure _) i.unknown_failsOnly

/-- A slot that stores an immediate reports only defects of slots. -/
theorem storingImm_failsOnly : FailsOnly IsSlotDefect i.storingImm := by
  unfold storingImm
  exact .ite (.bind (register_failsOnly _) fun _ => failsOnly_pure _) i.unknown_failsOnly

/-- An atomic slot reports only defects of slots. -/
theorem atomicOf_failsOnly (size : OpSize) (base src : VReg) :
    FailsOnly IsSlotDefect (i.atomicOf size base src) := by
  unfold atomicOf
  repeat' apply FailsOnly.ite
  all_goals first | exact failsOnly_ok _ | exact i.unknown_failsOnly

/-- A slot that stores a register reports only defects of slots. -/
theorem storing_failsOnly : FailsOnly IsSlotDefect i.storing := by
  unfold storing
  refine .bind (register_failsOnly _) fun base => .bind (register_failsOnly _) fun src => ?_
  exact .ite (failsOnly_pure _) (.ite (i.atomicOf_failsOnly _ _ _)
    (.ite (i.atomicOf_failsOnly _ _ _) i.unknown_failsOnly))

/-- A conditional jump slot reports only defects of slots. -/
theorem branching_failsOnly (size : OpSize) : FailsOnly IsSlotDefect (i.branching size) := by
  unfold branching
  split
  · exact i.unknown_failsOnly
  · exact .bind (register_failsOnly _) fun _ => i.withOperand_failsOnly _

/-- A jump slot reports only defects of slots. -/
theorem jumping_failsOnly : FailsOnly IsSlotDefect i.jumping := by
  unfold jumping
  exact .ite (failsOnly_ok _) (.ite (failsOnly_ok _) (.ite (failsOnly_ok _)
    (.ite (failsOnly_ok _) (i.branching_failsOnly _))))

/-- A slot that stands alone reports only defects of slots. -/
theorem operation_failsOnly : FailsOnly IsSlotDefect i.operation := by
  unfold operation
  exact .ite i.loading_failsOnly (.ite i.storingImm_failsOnly (.ite i.storing_failsOnly
    (.ite (i.arithmetic_failsOnly _) (.ite i.jumping_failsOnly (.ite (i.branching_failsOnly _)
    (.ite (i.arithmetic_failsOnly _) i.unknown_failsOnly))))))

end Insn

/-- A step of a program reports only defects of slots. -/
theorem Program.steps_failsOnly {p : Program} {s : Step} (h : s ∈ p.steps) :
    FailsOnly IsSlotDefect s.operation := by
  obtain ⟨before, after, hs⟩ := List.append_of_mem h
  obtain ⟨_, i, _, _, _, hcase⟩ := stepsFrom_split hs
  rcases hcase with ⟨_, _, _, ho⟩ | ⟨_, _, next, _, _, ho⟩ | ⟨_, _, ho⟩
  · rw [ho]
    exact failsOnly_error.mpr rfl
  · rw [ho]
    exact .bind (register_failsOnly _) fun _ => failsOnly_pure _
  · rw [ho]
    exact i.operation_failsOnly

end Virtual

namespace Pass

variable (p : Pass) (depth : UInt32) (index : Nat)

/-- A jump that leaves the program is a defect of its branch. -/
theorem jumpDistance_failsOnly (off : Int16) :
    FailsOnly (Failure.From [.branch]) (p.jumpDistance index off) := by
  unfold jumpDistance
  exact .ite (by simp [Defect.stage]) (failsOnly_ok _)

/-- Padding that fits no form of a jump is a defect of its branch. -/
theorem pad_failsOnly (emitted reserved : Nat) (allowed : List Int) :
    FailsOnly (Failure.From [.branch]) (p.pad index emitted reserved allowed) := by
  unfold pad
  exact .ite (.ite (failsOnly_ok _) (by simp [Defect.stage])) (failsOnly_ok _)

/-- A jump fails only with its padding or its range. -/
theorem jump_failsOnly (distance : Int) (mayVanish : Bool) :
    FailsOnly (Failure.From [.branch]) (p.jump index distance mayVanish) := by
  unfold jump
  exact .ite (p.pad_failsOnly _ _ _ _) (.ite (.bind (p.pad_failsOnly _ _ _ _) fun _ =>
    failsOnly_pure _) (.ite (failsOnly_ok _) (by simp [Quantity.stage])))

/-- A conditional jump fails only with its target, its padding or its range. -/
theorem branch_failsOnly (cond : Condition) (size : OpSize) (dst : VReg) (src : Operand)
    (off : Int16) :
    FailsOnly (Failure.From [.branch]) (p.branch index cond size dst src off) := by
  unfold branch
  refine .bind (p.jumpDistance_failsOnly _ _) fun distance => ?_
  exact .ite (.bind (p.pad_failsOnly _ _ _ _) fun _ => failsOnly_pure _)
    (.ite (failsOnly_pure _) (by simp [Quantity.stage]))

/-- Handing over the counter only crashes. -/
theorem passCounter_failsOnly : FailsOnly (Failure.From [.lowering]) (p.passCounter depth) := by
  unfold passCounter
  exact .ite (.bind (failsOnly_signedWord32 _) fun _ => .bind (failsOnly_signedWord32 _) fun _ =>
    failsOnly_pure _) (failsOnly_ok _)

/-- A call displacement fails only with its range. -/
theorem callDisplacement_failsOnly (before : Nat) (target : Option Address) :
    FailsOnly (Failure.From [.lowering]) (p.callDisplacement index before target) := by
  unfold callDisplacement
  split
  · exact .bind (failsOnly_plus _ _) fun _ => .bind (failsOnly_plus _ _) fun _ =>
      .bind (failsOnly_signedWord64 _) fun _ => .bind (failsOnly_signedWord64 _) fun _ =>
      .ite (failsOnly_pure _) (by simp [Quantity.stage])
  · exact failsOnly_ok _

/-- A call fails only with its target. -/
theorem call_failsOnly (id : Int32) (subprogram : Bool) :
    FailsOnly (Failure.From [.lowering]) (p.call depth index id subprogram) := by
  unfold call
  exact .ite (by simp [Defect.stage]) (.bind (p.passCounter_failsOnly _) fun _ =>
    .bind (p.callDisplacement_failsOnly _ _ _) fun _ => failsOnly_pure _)

/-- A branch around a tail call fails only with its range. -/
theorem shortBranch_failsOnly (cond : Cond) (distance : Nat) :
    FailsOnly (Failure.From [.lowering]) (shortBranch cond distance) := by
  unfold shortBranch
  exact .ite (failsOnly_ok _) (by simp [Defect.stage])

/-- A tail call fails only with its descriptor or a branch around it. -/
theorem tailCall_failsOnly (id : Int32) :
    FailsOnly (Failure.From [.lowering]) (p.tailCall depth id) := by
  unfold tailCall TailCall.indirect TailCall.direct
  refine .ite (.bind ?_ fun _ => failsOnly_pure _) (.ite (by simp [Defect.stage]) ?_)
  · exact .bind (shortBranch_failsOnly _ _) fun _ => .bind (shortBranch_failsOnly _ _) fun _ =>
      .bind (shortBranch_failsOnly _ _) fun _ => failsOnly_pure _
  · exact .bind (.bind (shortBranch_failsOnly _ _) fun _ => failsOnly_pure _) fun _ =>
      failsOnly_pure _

/-- Lowering reports only defects of its own and of branches. -/
theorem lower_failsOnly (epilogue : Option Nat) (operation : Operation) :
    FailsOnly (Failure.From [.lowering, .branch]) (p.lower depth index epilogue operation) := by
  cases operation with
  | fetch op size base src off =>
    refine .bind ?_ fun _ => failsOnly_pure _
    unfold Lowering.fetch
    exact .ite (failsOnly_ok _) (by simp [Defect.stage])
  | jump off =>
    rw [lower]
    have hjump : ∀ distance, FailsOnly (Failure.From [.lowering, .branch]) (do
        let code ← p.jump index distance true
        return ({ code := code } : Fragment)) := fun _ =>
      .bind ((p.jump_failsOnly _ _ _).mono (by simp)) fun _ => failsOnly_pure _
    split
    · exact .bind (failsOnly_pure _) hjump
    · exact .bind ((p.jumpDistance_failsOnly _ _).mono (by simp)) hjump
  | branch cond size dst src off =>
    exact .bind ((p.branch_failsOnly _ _ _ _ _ _).mono (by simp)) fun _ => failsOnly_pure _
  | exit =>
    cases epilogue with
    | none => exact failsOnly_ok _
    | some start => exact .bind ((p.jump_failsOnly _ _ _).mono (by simp)) fun _ => failsOnly_pure _
  | call id subprogram => exact (p.call_failsOnly _ _ _ _).mono (by simp)
  | tailCall id => exact (p.tailCall_failsOnly _ _).mono (by simp)
  | _ => exact failsOnly_ok _

/-- Placing steps reports what their slots, their lowering or their sizes are refused for. -/
theorem place_failsOnly {steps : List Step} (h : ∀ s ∈ steps, FailsOnly IsSlotDefect s.operation)
    (start : Nat) (epilogue : Option Nat) :
    FailsOnly (Failure.From [.slot, .lowering, .branch, .pass])
      (p.place depth steps start epilogue) := by
  induction steps generalizing start epilogue with
  | nil => exact failsOnly_ok _
  | cons step rest ih =>
    rw [place]
    refine .bind ?_ fun operation => .bind ?_ fun fragment => ?_
    · intro f hf
      cases ho : step.operation with
      | ok operation =>
        rw [ho] at hf
        cases hf
      | error d =>
        rw [ho] at hf
        cases hf
        have hd : d.stage = .slot := h step (by simp) d ho
        simp [Failure.From, hd]
    · exact (p.lower_failsOnly _ _ _ _).mono (by simp)
    · refine .ite (by simp [Defect.stage]) (.bind ?_ fun _ => failsOnly_pure _)
      exact ih (fun s hs => h s (by simp [hs])) _ _

/-- A pass over a program reports what a slot, its lowering or the pass itself is refused for. -/
theorem run_failsOnly (program : Program) :
    FailsOnly (Failure.From [.slot, .lowering, .branch, .pass]) (p.run program.steps) := by
  unfold run
  refine .ite (by simp [Defect.stage]) (.ite failsOnly_crash ?_)
  exact .bind (failsOnly_roundedDepth _) fun _ =>
    .bind (p.place_failsOnly _ (fun _ hs => Program.steps_failsOnly hs) _ _) fun _ => failsOnly_pure _

end Pass

/-- Exception entries are refused only for the length of a load. -/
theorem exceptionEntries_failsOnly (offset : Nat) (sites : List ProbeSite) :
    FailsOnly (Failure.From [.image]) (exceptionEntries offset sites) := by
  induction sites generalizing offset with
  | nil => exact failsOnly_ok _
  | cons site rest ih =>
    refine .bind ?_ fun _ => .bind (ih _) fun _ => failsOnly_pure _
    refine .bind (failsOnly_word64 _) fun _ => .bind (failsOnly_signedWord64 _) fun _ =>
      .ite (.bind ?_ fun _ => failsOnly_pure _) (by simp [Quantity.stage])
    unfold ProbeSite.fixup
    exact .ite (by simp [Defect.stage]) (failsOnly_ok _)

/-- Writing an image with as many loads as the program has reports only defects of images. -/
theorem writeImage_failsOnly (image : Image) {out : PassOutput} {probes : Nat}
    (h : out.probes.length = probes) :
    FailsOnly (Failure.From [.image]) (writeImage image out probes) := by
  have hentries : ∀ (entries : List ExceptionEntry) (image : Image) (offset : Nat),
      FailsOnly (Failure.From [.image]) (writeImage.writeEntries image offset entries) := by
    intro entries
    induction entries with
    | nil => exact fun _ _ => failsOnly_ok _
    | cons entry rest ih => exact fun _ _ => .bind (failsOnly_ofMemory _) fun _ => ih _ _
  unfold writeImage
  rw [if_neg (not_not_intro h)]
  exact .bind (failsOnly_ofMemory _) fun _ =>
    .bind (exceptionEntries_failsOnly _ _) fun _ => .bind (hentries _ _ _) fun _ =>
    .bind (failsOnly_plus _ _) fun _ => failsOnly_pure _

/-- The bytes of a site are refused only for their range. -/
theorem siteBytes_failsOnly (ip : Address) (kind : PatchKind) (target : Option Address) :
    FailsOnly (Failure.From [.image]) (siteBytes ip kind target) := by
  refine .bind ?_ fun _ => failsOnly_pure _
  cases target with
  | none => exact failsOnly_ok _
  | some target =>
    refine .bind (.bind (failsOnly_signedWord64 _) fun _ => .bind (failsOnly_signedWord64 _) fun _ =>
      .ite (failsOnly_pure _) (by simp [Quantity.stage])) fun _ => ?_
    cases kind with
    | call => exact failsOnly_pure _
    | jump => exact failsOnly_pure _

/-- Patching a fresh site reports only defects of images. -/
theorem TailCall.Table.patchFresh_failsOnly (image : Image) (ip : Address) (patch : Patch) :
    FailsOnly (Failure.From [.image]) (Table.patchFresh image ip patch) := by
  refine .bind ?_ fun _ => .ite (by simp [Defect.stage]) (failsOnly_pure _)
  refine .bind (failsOnly_plus _ _) fun _ => .bind (siteBytes_failsOnly _ _ _) fun _ =>
    .bind (siteBytes_failsOnly _ _ _) fun _ => .bind ?_ fun _ => ?_
  · unfold Image.read
    exact .ite (failsOnly_ok _) failsOnly_crash
  · exact .ite (failsOnly_pure _) (.ite (failsOnly_pure _)
      (.bind (failsOnly_ofMemory _) fun _ => failsOnly_pure _))

/-- Installing a site reports only defects of images. -/
theorem TailCall.Table.install_failsOnly (t : Table) (key : UInt32) (site : PatchSite)
    (image : Image) : FailsOnly (Failure.From [.image]) (t.install key site image) := by
  unfold install checkKey
  refine .bind (.ite (failsOnly_ok _) (by simp [Quantity.stage])) fun _ => ?_
  dsimp only
  split
  · exact .bind (failsOnly_pure _) fun _ => failsOnly_pure _
  · exact .bind (failsOnly_plus _ _) fun _ => .bind (patchFresh_failsOnly _ _ _) fun _ =>
      .bind (patchFresh_failsOnly _ _ _) fun _ => failsOnly_pure _

/-- Installing a tail call reports only defects of images. -/
theorem Installation.step_failsOnly (s : Installation) (d : DirectSite) :
    FailsOnly (Failure.From [.image]) (s.step d).2 := by
  unfold Installation.step
  split
  · rename_i f hf
    have hplace : FailsOnly (Failure.From [.image])
        (d.place s.image.base : Result Error PatchSite) :=
      .bind (failsOnly_plus _ _) fun _ => .bind (failsOnly_plus _ _) fun _ =>
        .bind (failsOnly_plus _ _) fun _ => failsOnly_pure _
    exact failsOnly_error.mpr (hplace f hf)
  · split
    · simp [Defect.stage]
    · dsimp only
      split
      · exact failsOnly_crash
      · split
        · rename_i f hf
          exact failsOnly_error.mpr (Table.install_failsOnly _ _ _ _ f hf)
        · exact failsOnly_ok _

/-- Installing tail calls reports only defects of images. -/
theorem Installation.run_failsOnly (s : Installation) (sites : List DirectSite) :
    FailsOnly (Failure.From [.image]) (s.run sites).2 := by
  induction sites generalizing s with
  | nil => exact failsOnly_ok _
  | cons d rest ih =>
    rw [Installation.run]
    have hstep := s.step_failsOnly d
    split
    · exact ih _
    · rename_i f hf
      rw [hf] at hstep
      exact hstep

/-- Finalizing a program with all its loads reports only defects of images. -/
theorem finalize_failsOnly_of_count {program : Program} {out : PassOutput}
    (hcount : out.probes.length = program.probeCount) (tables : Array Table) (asked : Option Nat)
    (layout : Layout) (passes : Nat) (image : Image) :
    FailsOnly (Failure.From [.image])
      (finalize program tables asked layout passes image out).outcome := by
  unfold finalize
  split
  · rename_i f hf
    exact failsOnly_error.mpr (writeImage_failsOnly _ hcount f hf)
  · dsimp only
    split
    · rename_i s f hf
      rcases Installation.complete_eq_error hf with hrun | ⟨_, rfl⟩
      · exact failsOnly_error.mpr (Installation.run_failsOnly _ _ f (congrArg Prod.snd hrun))
      · exact failsOnly_error.mpr trivial
    · exact failsOnly_ok _

/-- Finalizing a program reports only a wrong count of loads and defects of images. -/
theorem finalize_failsOnly (program : Program) (tables : Array Table) (asked : Option Nat)
    (layout : Layout) (passes : Nat) (image : Image) (out : PassOutput) :
    FailsOnly (Failure.From [.count, .image])
      (finalize program tables asked layout passes image out).outcome := by
  by_cases hcount : out.probes.length = program.probeCount
  · exact (finalize_failsOnly_of_count hcount tables asked layout passes image).mono (by simp)
  · unfold finalize writeImage
    rw [if_pos hcount]
    exact failsOnly_error.mpr (by simp [Failure.From, Defect.stage])

/-- The final check reports only defects of the driver. -/
theorem checkFinal_failsOnly (layout : Layout) (out : PassOutput) :
    FailsOnly (Failure.From [.driver]) (checkFinal layout out) := by
  unfold checkFinal
  refine .ite (failsOnly_error.mpr ?_) (.ite (failsOnly_error.mpr ?_) (failsOnly_ok _))
  · simp [Failure.From, Defect.stage]
  · simp [Failure.From, Defect.stage]

/-- A failed compilation failed while its layout settled, in its final pass, in the check of that
pass, or behind it with its image. -/
theorem compile_eq_error {config : Config} {program : Program}
    {resolve : CallSite → Option Address} {tables : Array Table}
    {alloc : Nat → Result MemoryError Image} {f : Failure Error}
    (h : (compile config program resolve tables alloc).outcome = .error f) :
    (sourceOf config program resolve).layout = .error f ∨
    (∃ settled base, (sourceOf config program resolve).layout = .ok settled ∧
      (sourceOf config program resolve).run settled.layout.offsets (some base)
        ((sourceOf config program resolve).padded settled.passes) = .error f) ∨
    (∃ settled base out, (sourceOf config program resolve).layout = .ok settled ∧
      (sourceOf config program resolve).run settled.layout.offsets (some base)
        ((sourceOf config program resolve).padded settled.passes) = .ok out ∧
      checkFinal settled.layout out = .error f) ∨
    f.From [.count, .image] := by
  unfold compile at h
  dsimp only at h
  split at h
  · rename_i failure hf
    cases h
    exact .inl hf
  · rename_i settled hs
    split at h
    · rename_i failure hf
      cases h
      exact .inr (.inr (.inr (failsOnly_word64 _ f hf)))
    · split at h
      · rename_i failure hf
        cases h
        exact .inr (.inr (.inr (failsOnly_ofMemory _ f hf)))
      · rename_i image _
        unfold emitFinal at h
        dsimp only at h
        split at h
        · rename_i failure hf
          cases h
          exact .inr (.inl ⟨settled, image.base, hs, hf⟩)
        · rename_i out hr
          split at h
          · rename_i failure hf
            cases h
            exact .inr (.inr (.inl ⟨settled, image.base, out, hs, hr, hf⟩))
          · split at h
            · exact .inr (.inr (.inr (finalize_failsOnly _ _ _ _ _ _ _ f h)))
            · cases h

end NativeForge
