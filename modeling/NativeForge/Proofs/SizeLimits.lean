import NativeForge.Proofs.Causes
import NativeForge.Proofs.FragmentSizes
import NativeForge.Proofs.PassSequence

/-!
# Limits on sizes

An indirect tail call that restores every register, frees a stack area and reads the array through
long displacements takes 71 bytes, and no operation takes more. So a branch around a tail call and
the retry loop of an atomic operation always fit their one-byte displacements, and the greatest
length of one instruction is never exceeded when it is at least 71.
-/

namespace NativeForge

open X64 Virtual Target TailCall

namespace X64

/-- An instruction on two registers takes at most three bytes. -/
theorem size_pair_le (op : AluOp) (size : OpSize) (dst src : Reg) :
    (Instr.mov size dst src).size ≤ 3 ∧ (Instr.alu op size dst src).size ≤ 3 := by
  have h := length_pairPrefix_le size dst src
  simp only [Instr.size, Instr.encode, List.length_append, List.length_cons, List.length_nil]
  omega

/-- A multiplication or division by a register takes at most three bytes. -/
theorem size_single_le (size : OpSize) (r : Reg) :
    (Instr.mul size r).size ≤ 3 ∧ (Instr.div size r).size ≤ 3 := by
  have h := length_basePrefix_le size r
  simp only [Instr.size, Instr.encode, List.length_append, List.length_cons, List.length_nil]
  omega

/-- A copy takes at most three bytes. -/
theorem codeSize_copy_le (dst src : Reg) : codeSize (copy dst src) ≤ 3 := by
  have h := (size_pair_le .add .wide dst src).1
  unfold copy
  split
  · exact Nat.zero_le 3
  · rw [codeSize_cons, codeSize_nil]
    omega

/-- Leaving out instructions makes no code longer. -/
theorem codeSize_le_of_sublist {front code : List Instr} (h : front.Sublist code) :
    codeSize front ≤ codeSize code := by
  induction h with
  | slnil => exact Nat.le_refl _
  | cons i _ ih =>
    rw [codeSize_cons]
    omega
  | cons_cons i _ ih =>
    rw [codeSize_cons, codeSize_cons]
    omega

end X64

/-- A frame that saves what a program has to leave as it found it. -/
def Frame.IsUsual (f : Frame) : Prop := f.saved.Sublist VReg.calleeSaved

/-- The frame of a program is usual. -/
theorem Frame.isUsual_ofProgram (program : Program) : (ofProgram program).IsUsual :=
  List.filter_sublist

/-- Restoring the registers takes at most seven bytes. -/
theorem Frame.IsUsual.codeSize_pops_le {f : Frame} (h : f.IsUsual) : codeSize f.pops ≤ 7 := by
  have hall : codeSize (VReg.calleeSaved.reverse.map fun r => Instr.pop r.native) = 7 := by decide
  rw [← hall]
  exact codeSize_le_of_sublist (h.reverse.map _)

/-- Taking down the frame takes at most fifteen bytes. -/
theorem Frame.IsUsual.codeSize_teardown_le {f : Frame} (h : f.IsUsual) (depth : UInt32) :
    codeSize (f.teardown depth) ≤ 15 := by
  have hpops := h.codeSize_pops_le
  have hteardown := Pass.codeSize_teardown_le_pops f depth
  omega

namespace Pass

variable {p : Pass} {depth : UInt32} {index : Nat}

/-- Filler of a jump is never longer than the longest difference between two forms. -/
theorem codeSize_pad_le {emitted reserved : Nat} {allowed : List Int} {code : List Instr}
    (h : p.pad index emitted reserved allowed = .ok code) (hall : ∀ count ∈ allowed, count ≤ 5) :
    codeSize code ≤ 5 := by
  unfold pad at h
  split at h
  · dsimp only at h
    split at h
    · rename_i hmem
      cases h
      have hle := hall _ hmem
      rw [codeSize_nops]
      omega
    · exact absurd h (defect_ne_ok _ _)
  · cases h
    exact Nat.zero_le 5

/-- A jump takes at most sixteen bytes with its filler. -/
theorem codeSize_jump_le {distance : Int} {mayVanish : Bool} {code : List Instr}
    (h : p.jump index distance mayVanish = .ok code) : codeSize code ≤ 16 := by
  unfold jump at h
  split at h
  · have hfiller := codeSize_pad_le h (by decide)
    omega
  · split at h
    · obtain ⟨filler, hf, h⟩ := bind_eq_ok.mp h
      obtain rfl := pure_eq_ok.mp h
      have hfiller := codeSize_pad_le hf (by decide)
      have hjmp := (size_bounds (.jmp (.byte (Int8.ofInt distance)))).2
      rw [codeSize_append, codeSize_cons, codeSize_nil]
      omega
    · split at h
      · cases h
        exact (by decide : 5 ≤ 16)
      · cases h

/-- A conditional jump takes at most 27 bytes with its comparison and its filler. -/
theorem codeSize_branch_le {cond : Condition} {size : OpSize} {dst : VReg} {src : Operand}
    {off : Int16} {code : List Instr} (h : p.branch index cond size dst src off = .ok code) :
    codeSize code ≤ 27 := by
  have htest := (size_bounds (compare cond size dst src)).2
  unfold branch at h
  obtain ⟨distance, _, h⟩ := bind_eq_ok.mp h
  split at h
  · obtain ⟨filler, hf, h⟩ := bind_eq_ok.mp h
    obtain rfl := pure_eq_ok.mp h
    have hfiller := codeSize_pad_le hf (by decide)
    have hjcc := (size_bounds (.jcc (nativeCond cond) (.byte (Int8.ofInt distance)))).2
    simp only [codeSize_append, codeSize_cons, codeSize_nil]
    omega
  · split at h
    · obtain rfl := pure_eq_ok.mp h
      have hjcc := (size_bounds (.jcc (nativeCond cond) (.dword (Int32.ofInt distance)))).2
      simp only [codeSize_cons, codeSize_nil]
      omega
    · cases h

/-- A multiplication takes at most 32 bytes. -/
theorem codeSize_multiply_le (size : OpSize) (dst : VReg) (src : Operand) :
    codeSize (Lowering.multiply size dst src) ≤ 32 := by
  have hfront := codeSize_copy_le VReg.aux.native dst.native
  have hback := codeSize_copy_le dst.native .rax
  have hmul := (size_single_le size VReg.aux.native).1
  have hrax : (Instr.push .rax).size = 1 ∧ (Instr.pop .rax).size = 1 := ⟨rfl, rfl⟩
  have hrdx : (Instr.push .rdx).size = 1 ∧ (Instr.pop .rdx).size = 1 := ⟨rfl, rfl⟩
  simp only [Lowering.multiply, codeSize_append]
  cases src with
  | reg src =>
    have hfactor := (size_pair_le .add size .rax src.native).1
    split <;> split <;> simp only [codeSize_append, codeSize_cons, codeSize_nil] <;> omega
  | imm v =>
    have hfactor := (size_bounds (loadImm32 .rax v size.isWide)).2
    split <;> split <;> simp only [codeSize_append, codeSize_cons, codeSize_nil] <;> omega

/-- A division takes at most 32 bytes. -/
theorem codeSize_divide_le (part : DivisionPart) (size : OpSize) (dst : VReg) (src : Operand) :
    codeSize (Lowering.divide part size dst src) ≤ 32 := by
  have hfront := codeSize_copy_le .rax dst.native
  have hback := codeSize_copy_le dst.native VReg.aux.native
  have hdiv := (size_single_le size VReg.aux.native).2
  have hxor := (size_pair_le .xor .narrow .rdx .rdx).2
  have hrax : (Instr.push .rax).size = 1 ∧ (Instr.pop .rax).size = 1 := ⟨rfl, rfl⟩
  have hrdx : (Instr.push .rdx).size = 1 ∧ (Instr.pop .rdx).size = 1 := ⟨rfl, rfl⟩
  have hquotient := (size_pair_le .add .wide VReg.aux.native .rax).1
  have hremainder := (size_pair_le .add .wide VReg.aux.native .rdx).1
  simp only [Lowering.divide, codeSize_append, codeSize_cons, codeSize_nil]
  cases src with
  | reg src =>
    have hdivisor := codeSize_copy_le VReg.aux.native src.native
    cases part <;> dsimp only <;> omega
  | imm v =>
    have hdivisor := (size_bounds (loadImm32 VReg.aux.native v true)).2
    simp only [codeSize_cons, codeSize_nil]
    cases part <;> dsimp only <;> omega

/-- One attempt of a fetching operation takes at most 44 bytes. -/
theorem codeSize_fetchAttempt_le (op : AluOp) (size : OpSize) (base src : VReg) (off : Int16) :
    codeSize (Lowering.fetchAttempt op size base src off) ≤ 44 :=
  codeSize_le _

/-- A fetching operation is always lowered, to at most 71 bytes. -/
theorem fetch_eq_ok (op : AluOp) (size : OpSize) (base src : VReg) (off : Int16) :
    ∃ code, Lowering.fetch op size base src off = .ok code ∧ codeSize code ≤ 71 := by
  have hattempt := codeSize_fetchAttempt_le op size base src off
  have hfront := (size_pair_le .add .wide .r10 .rax).1
  have hresult := (size_pair_le .add size (Lowering.besideAccumulator src) .rax).1
  have hback := (size_pair_le .add .wide .rax .r10).1
  have hjcc : (Instr.jcc .notEqual (retryField op size base src off)).size = 2 := rfl
  have hparts : fetchCode op size base src off = [.mov .wide .r10 .rax] ++
      Lowering.fetchAttempt op size base src off ++
      [.jcc .notEqual (retryField op size base src off),
        .mov size (Lowering.besideAccumulator src) .rax, .mov .wide .rax .r10] := rfl
  refine ⟨_, fetch_eq op size base src off, ?_⟩
  simp only [hparts, codeSize_append, codeSize_cons, codeSize_nil, hjcc]
  omega

/-- No operation takes more than 71 bytes. -/
theorem codeSize_lower_le_limit (hframe : p.frame.IsUsual) {epilogue : Option Nat}
    {operation : Operation} {f : Fragment}
    (h : p.lower depth index epilogue operation = .ok f) : codeSize f.code ≤ 71 := by
  -- six instructions of eleven bytes each still fit
  have hshort : f.code.length ≤ 6 → codeSize f.code ≤ 71 := by
    intro hl
    have hle := codeSize_le f.code
    omega
  cases operation with
  | tailCall id =>
    have hteardown := hframe.codeSize_teardown_le depth
    have hle := codeSize_tailCall_le_teardown h
    omega
  | jump off =>
    obtain ⟨_, code, _, hc, rfl⟩ := lower_jump h
    exact Nat.le_trans (codeSize_jump_le hc) (by decide)
  | branch cond size dst src off =>
    obtain ⟨code, hc, h⟩ := bind_eq_ok.mp h
    obtain rfl := pure_eq_ok.mp h
    exact Nat.le_trans (codeSize_branch_le hc) (by decide)
  | exit =>
    rw [lower, exit.eq_def] at h
    split at h
    · cases h
      have hpops := hframe.codeSize_pops_le
      have hleave : Instr.leave.size = 1 := rfl
      have hret : Instr.ret.size = 1 := rfl
      simp only [Frame.epilogue, codeSize_append, codeSize_cons, codeSize_nil]
      omega
    · obtain ⟨code, hc, h⟩ := bind_eq_ok.mp h
      obtain rfl := pure_eq_ok.mp h
      exact Nat.le_trans (codeSize_jump_le hc) (by decide)
  | multiply size dst src =>
    cases h
    exact Nat.le_trans (codeSize_multiply_le size dst src) (by decide)
  | divide part size dst src =>
    cases h
    exact Nat.le_trans (codeSize_divide_le part size dst src) (by decide)
  | fetch op size base src off =>
    obtain ⟨code, hc, hle⟩ := fetch_eq_ok op size base src off
    rw [lower, hc] at h
    cases h
    exact hle
  | alu op size dst src | move size dst src =>
    cases h
    cases src <;> exact hshort (by decide : 1 ≤ 6)
  | shift op size dst src =>
    cases h
    cases src with
    | imm v => exact hshort (by decide : 1 ≤ 6)
    | reg src =>
      have h1 := length_copy_le VReg.aux.native .rcx
      have h2 := length_copy_le .rcx src.native
      have h3 := length_copy_le .rcx VReg.aux.native
      apply hshort
      simp only [Lowering.shift, Lowering.shiftReg, List.length_append]
      split <;> split <;> simp only [List.length_cons, List.length_nil] <;> omega
  | convert order width dst =>
    cases h
    apply hshort
    cases order <;> cases width <;> simp [Lowering.convert, reverseBytes]
  | atomic op size base src off =>
    cases h
    apply hshort
    simp only [Lowering.atomic, List.length_cons]
    split <;> simp only [List.length_cons, List.length_nil] <;> omega
  | call id subprogram =>
    obtain ⟨_, counter, rel, hc, _, rfl⟩ := call_eq_ok.mp h
    have hcounter := length_passCounter_le hc
    apply hshort
    simp only [List.length_append, List.length_cons, List.length_nil]
    omega
  | _ =>
    cases h
    exact hshort (by decide : 1 ≤ 6)

end Pass

/-- The failure is none of a branch around a tail call or of a retry loop, and it is one of a long
instruction only where the limit is below the 71 bytes that an instruction can take. -/
def Failure.Fits (limit : Nat) : Failure Error → Prop
  | .reported (.internal (.tailCallBranch _)) => False
  | .reported (.internal .atomicLoopTooLong) => False
  | .reported (.internal (.instructionTooLong _ size max)) =>
    max = limit ∧ limit < size ∧ size ≤ 71
  | _ => True

section

variable {limit : Nat} {stages : List Stage}

/-- Stages other than lowering and passes find nothing too long. -/
theorem Failure.From.fits {f : Failure Error} (h : f.From stages) (hl : Stage.lowering ∉ stages)
    (hp : Stage.pass ∉ stages) : f.Fits limit := by
  cases f with
  | crash => trivial
  | reported cause =>
    cases cause with
    | internal d =>
      cases d with
      | tailCallBranch distance => exact hl h
      | atomicLoopTooLong => exact hl h
      | instructionTooLong index size max => exact (hp h).elim
      | _ => trivial
    | _ => trivial

/-- A computation that fails only in other stages finds nothing too long. -/
theorem FailsOnly.fits {α : Type} {r : Result Error α} (h : FailsOnly (Failure.From stages) r)
    (hl : Stage.lowering ∉ stages) (hp : Stage.pass ∉ stages) : FailsOnly (Failure.Fits limit) r :=
  fun f hf => (h f hf).fits hl hp

/-- A computation that only crashes finds nothing too long. -/
theorem FailsOnly.fits_of_nil {α : Type} {r : Result Error α} (h : FailsOnly (Failure.From []) r) :
    FailsOnly (Failure.Fits limit) r :=
  h.fits (by decide) (by decide)

/-- A branch over at most 127 bytes does not fail. -/
theorem shortBranch_failsOnly_of_le {P : Failure Error → Prop} {cond : Cond} {distance : Nat}
    (h : distance ≤ 127) : FailsOnly P (shortBranch cond distance) := by
  have hfits : fitsInt8 distance = true := decide_eq_true ⟨by omega, by omega⟩
  unfold shortBranch
  rw [if_pos hfits]
  exact failsOnly_ok _

end

namespace Pass

variable {p : Pass} {depth : UInt32} {index limit : Nat}

/-- A call is never refused for its size. -/
theorem call_fits (id : Int32) (subprogram : Bool) :
    FailsOnly (Failure.Fits limit) (p.call depth index id subprogram) := by
  have hcounter : FailsOnly (Failure.Fits limit) (p.passCounter depth) := by
    unfold passCounter
    exact .ite (.bind (failsOnly_signedWord32 _).fits_of_nil fun _ =>
      .bind (failsOnly_signedWord32 _).fits_of_nil fun _ => failsOnly_pure _) (failsOnly_ok _)
  have hdisplacement : ∀ before target,
      FailsOnly (Failure.Fits limit) (p.callDisplacement index before target) := by
    intro before target
    unfold callDisplacement
    split
    · exact .bind (failsOnly_plus _ _).fits_of_nil fun _ => .bind (failsOnly_plus _ _).fits_of_nil
        fun _ => .bind (failsOnly_signedWord64 _).fits_of_nil fun _ =>
        .bind (failsOnly_signedWord64 _).fits_of_nil fun _ =>
        .ite (failsOnly_pure _) (failsOnly_error.mpr trivial)
    · exact failsOnly_ok _
  unfold call
  exact .ite (failsOnly_error.mpr trivial) (.bind hcounter fun _ => .bind (hdisplacement _ _)
    fun _ => failsOnly_pure _)

/-- The branches around a tail call reach its end. -/
theorem tailCall_fits (hframe : p.frame.IsUsual) (id : Int32) :
    FailsOnly (Failure.Fits limit) (p.tailCall depth id) := by
  have hteardown := hframe.codeSize_teardown_le depth
  unfold tailCall
  refine .ite (.bind ?_ fun _ => failsOnly_pure _) (.ite (failsOnly_error.mpr trivial)
    (.bind ?_ fun _ => failsOnly_pure _))
  · have hjump : ∀ d v, codeSize [Instr.load .double .rcx .rcx d, .aluImm .add .wide .rcx v,
        .jmpReg .rcx] ≤ 33 := fun _ _ => codeSize_le _
    have hj := hjump (.shortest p.abi.programCodeOffset) (.byte (Int8.ofNat tailCallSkip))
    have htwo : shortBranchSize = 2 := rfl
    unfold TailCall.indirect
    simp only [codeSize_append, TailCall.codeSize_checkCount, TailCall.codeSize_bumpCount,
      TailCall.codeSize_lookup, htwo]
    exact .bind (shortBranch_failsOnly_of_le (by omega)) fun _ =>
      .bind (shortBranch_failsOnly_of_le (by omega)) fun _ =>
      .bind (shortBranch_failsOnly_of_le (by omega)) fun _ => failsOnly_pure _
  · have hbump := TailCall.codeSize_bumpCount (Frame.counterOffset depth)
    have hsite : siteSize = 5 := rfl
    exact .bind (shortBranch_failsOnly_of_le (by omega)) fun _ => failsOnly_pure _

/-- Lowering finds nothing too long. -/
theorem lower_fits (hframe : p.frame.IsUsual) (epilogue : Option Nat) (operation : Operation) :
    FailsOnly (Failure.Fits limit) (p.lower depth index epilogue operation) := by
  have hjump : ∀ distance mayVanish,
      FailsOnly (Failure.Fits limit) (p.jump index distance mayVanish) := fun _ _ =>
    (p.jump_failsOnly index _ _).fits (by decide) (by decide)
  cases operation with
  | fetch op size base src off =>
    obtain ⟨code, hc, _⟩ := fetch_eq_ok op size base src off
    rw [lower, hc]
    exact failsOnly_ok _
  | jump off =>
    rw [lower]
    split
    · exact .bind (failsOnly_pure _) fun _ => .bind (hjump _ _) fun _ => failsOnly_pure _
    · exact .bind ((p.jumpDistance_failsOnly index _).fits (by decide) (by decide)) fun _ =>
        .bind (hjump _ _) fun _ => failsOnly_pure _
  | branch cond size dst src off =>
    exact .bind ((p.branch_failsOnly index _ _ _ _ _).fits (by decide) (by decide)) fun _ =>
      failsOnly_pure _
  | exit =>
    cases epilogue with
    | none => exact failsOnly_ok _
    | some start => exact .bind (hjump _ _) fun _ => failsOnly_pure _
  | call id subprogram => exact call_fits id subprogram
  | tailCall id => exact tailCall_fits hframe id
  | _ => exact failsOnly_ok _

/-- Placing steps refuses an instruction only for a limit below 71 bytes. -/
theorem place_fits (hframe : p.frame.IsUsual) {steps : List Step}
    (h : ∀ s ∈ steps, FailsOnly IsSlotDefect s.operation) (start : Nat) (epilogue : Option Nat) :
    FailsOnly (Failure.Fits p.maxInsnSize) (p.place depth steps start epilogue) := by
  induction steps generalizing start epilogue with
  | nil => exact failsOnly_ok _
  | cons step rest ih =>
    rw [place]
    refine .bind ?_ fun operation => .bind_of_eq (lower_fits hframe _ _) fun fragment hl => ?_
    · intro f hf
      cases ho : step.operation with
      | ok operation =>
        rw [ho] at hf
        cases hf
      | error d =>
        rw [ho] at hf
        cases hf
        have hd : d.stage = .slot := h step (by simp) d ho
        have hfrom : Failure.From [.slot] (.reported (.internal d)) := by simp [Failure.From, hd]
        exact hfrom.fits (by decide) (by decide)
    · have hle := codeSize_lower_le_limit hframe hl
      dsimp only
      split
      · rename_i hlong
        exact failsOnly_error.mpr ⟨rfl, hlong, hle⟩
      · exact .bind (ih (fun s hs => h s (by simp [hs])) _ _) fun _ => failsOnly_pure _

/-- A pass refuses an instruction only for a limit below 71 bytes. -/
theorem run_fits (hframe : p.frame.IsUsual) (program : Program) :
    FailsOnly (Failure.Fits p.maxInsnSize) (p.run program.steps) := by
  unfold run
  refine .ite (failsOnly_error.mpr trivial) (.ite failsOnly_crash.fits_of_nil ?_)
  exact .bind (failsOnly_roundedDepth _).fits_of_nil fun _ =>
    .bind (place_fits hframe (fun _ hs => Program.steps_failsOnly hs) _ _) fun _ => failsOnly_pure _

end Pass

/-- A pass of a source with a usual frame refuses an instruction only for a limit below 71 bytes. -/
theorem Source.run_fits {s : Source} (hframe : s.frame.IsUsual) (offsets : Array Nat)
    (base : Option Address) (padding : Bool) :
    FailsOnly (Failure.Fits s.config.maxInsnSize) (s.run offsets base padding) :=
  Pass.run_fits (p := s.pass offsets base padding) hframe s.program

/-- A compilation refuses an instruction only for a limit below 71 bytes. -/
theorem compile_fits (config : Config) (program : Program) (resolve : CallSite → Option Address)
    (tables : Array Table) (alloc : Nat → Result MemoryError Image) :
    FailsOnly (Failure.Fits config.maxInsnSize)
      (compile config program resolve tables alloc).outcome := by
  have hrun := fun offsets base padding => Source.run_fits
    (s := sourceOf config program resolve) (Frame.isUsual_ofProgram program) offsets base padding
  intro f hf
  rcases compile_eq_error hf with h | ⟨_, _, _, h⟩ | ⟨_, _, _, _, _, h⟩ | h
  · rcases Source.layout_eq_error h with rfl | rfl | ⟨_, _, _, h⟩ | ⟨rfl, _⟩
    · trivial
    · trivial
    · exact hrun _ _ _ f h
    · trivial
  · exact hrun _ _ _ f h
  · exact (checkFinal_failsOnly _ _).fits (by decide) (by decide) f h
  · exact h.fits (by decide) (by decide)

/-- Finishing a program with a usual frame refuses an instruction only for a limit below 71 bytes. -/
theorem finish_fits {pending : PendingProgram} (hframe : pending.frame.IsUsual) (program : Program)
    (resolve : CallSite → Option Address) (tables : Array Table) (asked : Option Nat) :
    FailsOnly (Failure.Fits pending.config.maxInsnSize)
      (pending.finish program resolve tables asked).outcome := by
  unfold PendingProgram.finish
  dsimp only
  split
  · rename_i f hf
    refine failsOnly_error.mpr ?_
    exact Source.run_fits (s := ⟨pending.config, program, pending.frame, resolve⟩) hframe _ _ _ f hf
  · split
    · rename_i f hf
      refine failsOnly_error.mpr ?_
      exact (checkFinal_failsOnly _ _).fits (by decide) (by decide) f hf
    · split
      · exact (finalize_failsOnly _ _ _ _ _ _ _).fits (by decide) (by decide)
      · exact failsOnly_error.mpr trivial

/-- The compilation of a program failed, at once or when the program was finished. -/
inductive Fails (config : Config) (program : Program) : Failure Error → Prop
  | atOnce {resolve : CallSite → Option Address} {tables : Array Table}
      {alloc : Nat → Result MemoryError Image} {f : Failure Error}
      (h : (compile config program resolve tables alloc).outcome = .error f) :
      Fails config program f
  | later {resolve resolve' : CallSite → Option Address} {tables tables' : Array Table}
      {alloc : Nat → Result MemoryError Image} {p : PendingProgram} {asked : Option Nat}
      {f : Failure Error}
      (h : (compile config program resolve tables alloc).outcome = .ok (.pending p))
      (h' : (p.finish program resolve' tables' asked).outcome = .error f) :
      Fails config program f

/-- No compilation refuses an instruction, unless for a limit below 71 bytes. -/
theorem Fails.fits {config : Config} {program : Program} {f : Failure Error}
    (h : Fails config program f) : f.Fits config.maxInsnSize := by
  cases h with
  | atOnce h => exact compile_fits _ _ _ _ _ f h
  | later h h' =>
    obtain ⟨rfl, hframe, _⟩ := compile_pending h
    refine finish_fits ?_ _ _ _ _ f h'
    rw [hframe]
    exact Frame.isUsual_ofProgram program

/-- Every operation takes at most 71 bytes, in every pass with the frame of a program. So no
compilation fails for a branch around a tail call or for the retry loop of an atomic operation, and
none fails for a long instruction when the limit is 71 bytes or more. -/
theorem operation_sizes_fit (config : Config) (program : Program) :
    (∀ (p : Pass) (depth : UInt32) (index : Nat) (epilogue : Option Nat) (operation : Operation)
        (f : Fragment), p.frame = Frame.ofProgram program →
      p.lower depth index epilogue operation = .ok f → (encodeAll f.code).length ≤ 71) ∧
    ∀ f, Fails config program f →
      (∀ distance, f ≠ .reported (.internal (.tailCallBranch distance))) ∧
      f ≠ .reported (.internal .atomicLoopTooLong) ∧
      (71 ≤ config.maxInsnSize → ∀ index size limit,
        f ≠ .reported (.internal (.instructionTooLong index size limit))) := by
  constructor
  · intro p depth index epilogue operation f hframe h
    rw [length_encodeAll]
    exact Pass.codeSize_lower_le_limit (by rw [hframe]; exact Frame.isUsual_ofProgram program) h
  · intro f h
    have hfits := h.fits
    refine ⟨?_, ?_, ?_⟩
    · rintro distance rfl
      exact hfits
    · rintro rfl
      exact hfits
    · rintro hlimit index size limit rfl
      obtain ⟨_, hlong, hsize⟩ := hfits
      omega

/-- An indirect tail call from a frame with a stack area and all registers to restore, and an
exit. -/
def towingProgram : Program where
  name := "towing"
  insns := [⟨0xF5, 6, 7, 0, 0⟩, ⟨0x95, 8, 9, 0, 0⟩]
  stackDepth := 8

/-- The tail call through an array whose fields are far from its start. -/
def distantConfig (limit : Nat) : Config where
  maxInsnSize := limit
  abi := { arrayCountOffset := 0x1000, programCodeOffset := 0x1000 }

/-- The tail call takes all 71 bytes, and it is refused by a limit of 70 with no other cause. -/
theorem operation_sizes_fit_towing :
    (∃ f, ((sourceOf (distantConfig 70) towingProgram fun _ => none).pass #[] none false).lower
        8 0 none (.tailCall 0) = .ok f ∧ (encodeAll f.code).length = 71 ∧
      (encodeAll f.code).length ≤ 71) ∧
    Fails (distantConfig 70) towingProgram
      (.reported (.internal (.instructionTooLong 0 71 70))) ∧
    ∀ f, Fails (distantConfig 71) towingProgram f →
      ∀ index size limit, f ≠ .reported (.internal (.instructionTooLong index size limit)) := by
  have hlower : (((sourceOf (distantConfig 70) towingProgram fun _ => none).pass #[] none
      false).lower 8 0 none (.tailCall 0)).toOption.map (fun f => (encodeAll f.code).length) =
        some 71 := by
    decide +kernel
  have hcause : (compile (distantConfig 70) towingProgram (fun _ => none) #[] fun size =>
      .ok (.blank 0x1000 size)).cause? = some (.internal (.instructionTooLong 0 71 70)) := by
    decide +kernel
  obtain ⟨f, hf, hlength⟩ := Option.map_eq_some_iff.mp hlower
  have hf := toOption_eq_some.mp hf
  obtain ⟨hsize, _⟩ := operation_sizes_fit (distantConfig 70) towingProgram
  obtain ⟨_, hfails⟩ := operation_sizes_fit (distantConfig 71) towingProgram
  exact ⟨⟨f, hf, hlength, hsize _ _ _ _ _ f rfl hf⟩,
    .atOnce (Compilation.cause?_eq_some.mp hcause),
    fun f h => (hfails f h).2.2 (Nat.le_refl 71)⟩

end NativeForge
