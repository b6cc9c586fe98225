import NativeForge.Proofs.AtomicFetch
import NativeForge.Proofs.Disassembly
import NativeForge.Proofs.FrameImmediates
import NativeForge.Proofs.StackLevels

/-!
# Registers and stack levels of lowered code

The code of one operation writes the register that the operation names, registers in which nobody
expects to keep a value, and those that the frame saves. What is pushed around a shift, a
multiplication or a division is popped again, branches and calls are made with the stack pointer
where it was at the start, and where the frame is taken down control leaves the program. The code
can be read back from its bytes, except that a stored immediate is known by its low bytes only.
-/

namespace NativeForge

open X64 Virtual Target TailCall

namespace X64

/-- Instructions write to the given registers at most. -/
def WritesOnly (rs : List Reg) (code : List Instr) : Prop :=
  ∀ i ∈ code, ∀ r ∈ i.written, r ∈ rs

/-- The instruction goes on to the next one and calls nothing. -/
def Instr.isPlain : Instr → Bool
  | .jmp _ | .jcc .. | .jmpReg _ | .call _ | .ret => false
  | _ => true

/-- Control goes through the instructions from the first one to the last, and the stack pointer is
then where it was. -/
structure Orderly (code : List Instr) : Prop where
  /-- Every instruction goes on to the next one. -/
  plain : ∀ i ∈ code, i.isPlain = true
  /-- The stack pointer comes back. -/
  level : stackMoves code = some 0

section Instructions

variable {rs : List Reg} {front back rest code : List Instr} {i : Instr} {r : Reg}

/-- No instructions write nothing. -/
@[simp]
theorem writesOnly_nil : WritesOnly rs [] := by
  intro i hi
  cases hi

/-- The first instruction and the others. -/
@[simp]
theorem writesOnly_cons :
    WritesOnly rs (i :: rest) ↔ (∀ r ∈ i.written, r ∈ rs) ∧ WritesOnly rs rest :=
  List.forall_mem_cons

/-- Instructions in two parts. -/
@[simp]
theorem writesOnly_append :
    WritesOnly rs (front ++ back) ↔ WritesOnly rs front ∧ WritesOnly rs back :=
  List.forall_mem_append

/-- One instruction that writes one register. -/
theorem writesOnly_single (hi : i.written = [r]) (hr : r ∈ rs) : WritesOnly rs [i] := by
  rw [writesOnly_cons, hi, List.forall_mem_singleton]
  exact ⟨hr, writesOnly_nil⟩

/-- A loaded immediate is written to its register, whatever the form. -/
@[simp]
theorem written_loadImm32 (r : Reg) (v : Int32) (sign : Bool) :
    (loadImm32 r v sign).written = [r] := by
  unfold loadImm32
  split
  · rfl
  · split <;> rfl

/-- A loaded 64-bit immediate is written to its register, whatever the form. -/
@[simp]
theorem written_loadImm64 (r : Reg) (v : UInt64) : (loadImm64 r v).written = [r] := by
  unfold loadImm64
  split
  · exact written_loadImm32 _ _ _
  · rfl

/-- A combination with an immediate is written to its register; the accumulator form is taken for
the accumulator only. -/
@[simp]
theorem written_aluWithImm (op : AluOp) (size : OpSize) (r : Reg) (v : Int32) :
    (aluWithImm op size r v).written = [r] := by
  unfold aluWithImm
  split
  · rfl
  · split
    · rename_i hr
      rw [hr]
      rfl
    · rfl

/-- A shift by an immediate is written to its register in both forms. -/
@[simp]
theorem written_shiftBy (op : ShiftOp) (size : OpSize) (r : Reg) (count : UInt8) :
    (shiftBy op size r count).written = [r] := by
  unfold shiftBy
  split <;> rfl

/-- A copy writes its destination at most. -/
theorem writesOnly_copy (src : Reg) (h : r ∈ rs) : WritesOnly rs (copy r src) := by
  unfold copy
  split
  · exact writesOnly_nil
  · simpa [Instr.written] using h

/-- A reversal of bytes writes its register at most. -/
theorem writesOnly_reverseBytes (width : Width) (h : r ∈ rs) :
    WritesOnly rs (reverseBytes r width) := by
  cases width <;> simp [reverseBytes, Instr.written, h]

/-- The choice of a form does not make a branch. -/
@[simp]
theorem isPlain_loadImm32 (r : Reg) (v : Int32) (sign : Bool) :
    (loadImm32 r v sign).isPlain = true := by
  unfold loadImm32
  split
  · rfl
  · split <;> rfl

/-- The choice of a form does not make a branch. -/
@[simp]
theorem isPlain_loadImm64 (r : Reg) (v : UInt64) : (loadImm64 r v).isPlain = true := by
  unfold loadImm64
  split
  · exact isPlain_loadImm32 _ _ _
  · rfl

/-- The choice of a form does not make a branch. -/
@[simp]
theorem isPlain_aluWithImm (op : AluOp) (size : OpSize) (r : Reg) (v : Int32) :
    (aluWithImm op size r v).isPlain = true := by
  unfold aluWithImm
  split
  · rfl
  · split <;> rfl

/-- The choice of a form does not make a branch. -/
@[simp]
theorem isPlain_shiftBy (op : ShiftOp) (size : OpSize) (r : Reg) (count : UInt8) :
    (shiftBy op size r count).isPlain = true := by
  unfold shiftBy
  split <;> rfl

/-- Nothing happens between no instructions. -/
theorem orderly_nil : Orderly [] where
  plain i hi := by cases hi
  level := rfl

/-- One piece behind the other. -/
theorem Orderly.append (hf : Orderly front) (hb : Orderly back) : Orderly (front ++ back) where
  plain := List.forall_mem_append.mpr ⟨hf.plain, hb.plain⟩
  level := stackMoves_append_eq hf.level hb.level

/-- One instruction that leaves the stack pointer alone. -/
theorem orderly_single (hi : i.isPlain = true) (hr : .rsp ∉ i.written) : Orderly [i] where
  plain := List.forall_mem_singleton.mpr hi
  level := (stackMoves_singleton i).trans (Instr.stackMove_of_not_written hr)

/-- One instruction that writes another register than the stack pointer. -/
theorem orderly_write (hi : i.isPlain = true) (hw : i.written = [r]) (hr : r ≠ .rsp) :
    Orderly [i] :=
  orderly_single hi (by rw [hw, List.mem_singleton]; exact hr.symm)

/-- A piece between a push and a pop. -/
theorem Orderly.saving (h : Orderly code) (saved : Reg) (hr : r ≠ .rsp) :
    Orderly ([.push saved] ++ code ++ [.pop r]) where
  plain := by
    simp only [List.forall_mem_append, List.forall_mem_singleton]
    exact ⟨⟨rfl, h.plain⟩, rfl⟩
  level := by
    have hpush : stackMoves [.push saved] = some (-8) := rfl
    have hpop : stackMoves [.pop r] = some 8 := by
      rw [stackMoves_singleton, Instr.stackMove, if_neg hr]
    exact stackMoves_append_eq (stackMoves_append_eq hpush h.level) hpop

/-- A piece between a push and a pop, unless they are left out. -/
theorem Orderly.savingUnless (h : Orderly code) (out : Prop) [Decidable out] (saved : Reg)
    (hr : r ≠ .rsp) : Orderly ((if out then [] else [.push saved]) ++ code ++
      (if out then [] else [.pop r])) := by
  by_cases hout : out
  · simpa only [if_pos hout, List.nil_append, List.append_nil] using h
  · simpa only [if_neg hout] using h.saving saved hr

/-- A copy to another register than the stack pointer. -/
theorem orderly_copy (src : Reg) (hr : r ≠ .rsp) : Orderly (copy r src) := by
  unfold copy
  split
  · exact orderly_nil
  · exact orderly_write rfl rfl hr

/-- A reversal of the bytes of another register than the stack pointer. -/
theorem orderly_reverseBytes (width : Width) (hr : r ≠ .rsp) : Orderly (reverseBytes r width) := by
  cases width with
  | byte => exact orderly_nil
  | half => exact (orderly_write rfl rfl hr).append (orderly_write rfl rfl hr)
  | word | double => exact orderly_write rfl rfl hr

/-- An instruction that goes on does not branch. -/
theorem Instr.distance?_of_isPlain (h : i.isPlain = true) : i.distance? = none := by
  cases i with
  | jmp | jcc => cases h
  | _ => rfl

/-- Orderly code in front of a door. -/
theorem Orderly.levelled (h : Orderly code) {doors exits : Nat → Prop} {start : Nat}
    (hdoor : doors (start + codeSize code)) : Levelled doors exits start code := by
  refine .straight (fun i hi => Instr.distance?_of_isPlain (h.plain i hi)) (fun rel hmem => ?_)
    h.level hdoor
  cases h.plain _ hmem

end Instructions

end X64

namespace Virtual

/-- The register of the program that an operation gives a value, the accumulator of an exchange
apart. -/
def Operation.target? : Operation → Option VReg
  | .alu _ _ dst _ | .shift _ _ dst _ | .move _ dst _ | .negate _ dst | .multiply _ dst _
  | .divide _ _ dst _ | .convert _ _ dst | .loadWide dst _ | .load _ _ dst _ _
  | .probe _ _ dst _ _ => some dst
  | .atomic _ _ _ src _ | .fetch _ _ _ src _ => some src
  | .storeImm .. | .store .. | .jump _ | .branch .. | .exit | .call .. | .tailCall _ => none

/-- Control goes through the code of the operation from its start to its end. -/
def Operation.IsStraight : Operation → Prop
  | .fetch .. | .jump _ | .branch .. | .exit | .call .. | .tailCall _ => False
  | _ => True

/-- The operation with its stored immediate reduced to the bytes that are stored. -/
def Operation.trimmed : Operation → Operation
  | .storeImm width base off imm => .storeImm width base off (lowNumber imm width)
  | operation => operation

/-- The code of the operation tells the operation: no load extends the sign of all eight bytes, and
a stored immediate is a number of its width. -/
def Operation.Readable : Operation → Prop
  | .load ext width _ _ _ | .probe ext width _ _ _ => ext = .sign → width ≠ .double
  | .storeImm width _ _ imm => lowNumber imm width = imm
  | _ => True

namespace Insn

/-- What is known of an operation that a slot means. -/
structure Grants (i : Insn) (operation : Operation) : Prop where
  /-- The slot names the register that gets a value. -/
  named : ∀ v, operation.target? = some v →
    VReg.ofIndex? i.dst = some v ∨ VReg.ofIndex? i.src = some v
  /-- The code tells the operation. -/
  readable : operation.trimmed.Readable

variable {i : Insn} {operation : Operation} {size : OpSize}

/-- An operation that gives no register a value. -/
theorem Grants.of_none (hnone : operation.target? = none) (hr : operation.trimmed.Readable) :
    i.Grants operation where
  named v hv := by
    rw [hnone] at hv
    cases hv
  readable := hr

/-- An operation that gives the destination of the slot a value. -/
theorem Grants.of_dst {dst : VReg} (hdst : VReg.ofIndex? i.dst = some dst)
    (ht : operation.target? = some dst) (hr : operation.trimmed.Readable) : i.Grants operation where
  named _ hv := .inl (hdst.trans (ht.symm.trans hv))
  readable := hr

/-- The low bytes of low bytes. -/
theorem lowNumber_lowNumber (imm : Int32) (width : Width) :
    lowNumber (lowNumber imm width) width = lowNumber imm width := by
  cases width with
  | byte => simp [lowNumber]
  | half => simp [lowNumber]
  | word | double => rfl

/-- Arithmetic slots. -/
theorem grants_of_arithmetic (h : i.arithmetic size = .ok operation) : i.Grants operation := by
  obtain ⟨dst, hdst, hreads⟩ := reads_of_arithmetic h
  cases hreads <;> exact .of_dst hdst rfl trivial

/-- Slots that load. -/
theorem grants_of_loading (h : i.loading = .ok operation) : i.Grants operation := by
  obtain ⟨dst, hdst, h⟩ := bind_eq_ok.mp h
  obtain ⟨base, _, h⟩ := bind_eq_ok.mp h
  rw [register_eq_ok] at hdst
  dsimp only at h
  split at h
  · obtain rfl := pure_eq_ok.mp h
    exact .of_dst hdst rfl fun hsign => by cases hsign
  · split at h
    · rename_i hwidth
      obtain rfl := pure_eq_ok.mp h
      exact .of_dst hdst rfl fun _ => hwidth.2
    · split at h
      · split at h
        · cases h
        · split at h
          · obtain rfl := pure_eq_ok.mp h
            exact .of_dst hdst rfl fun hsign => by cases hsign
          · split at h
            · rename_i hwidth
              obtain rfl := pure_eq_ok.mp h
              exact .of_dst hdst rfl fun _ => hwidth
            · cases h
      · cases h

/-- Slots that store an immediate. -/
theorem grants_of_storingImm (h : i.storingImm = .ok operation) : i.Grants operation := by
  unfold storingImm at h
  split at h
  · obtain ⟨base, _, h⟩ := bind_eq_ok.mp h
    obtain rfl := pure_eq_ok.mp h
    exact .of_none rfl (lowNumber_lowNumber _ _)
  · cases h

/-- Slots that store a register or work atomically. -/
theorem grants_of_storing (h : i.storing = .ok operation) : i.Grants operation := by
  obtain ⟨base, src, hsrc, rfl | ⟨size, ⟨op, rfl⟩ | ⟨op, rfl⟩⟩⟩ := storing_eq_ok h
  · exact .of_none rfl trivial
  · exact ⟨fun v hv => .inr (hsrc.trans hv), trivial⟩
  · exact ⟨fun v hv => .inr (hsrc.trans hv), trivial⟩

/-- Slots that jump on a condition. -/
theorem grants_of_branching (h : i.branching size = .ok operation) : i.Grants operation := by
  obtain ⟨_, _, _, _, _, _, rfl⟩ := branching_eq_ok h
  exact .of_none rfl trivial

/-- Slots that jump, call or leave. -/
theorem grants_of_jumping (h : i.jumping = .ok operation) : i.Grants operation := by
  unfold jumping at h
  repeat' split at h
  case isFalse => exact grants_of_branching h
  all_goals
    cases h
    exact .of_none rfl trivial

/-- Every slot that means an operation. -/
theorem grants_of_operation (h : i.operation = .ok operation) : i.Grants operation := by
  unfold Insn.operation at h
  split at h
  · exact grants_of_loading h
  · split at h
    · exact grants_of_storingImm h
    · split at h
      · exact grants_of_storing h
      · split at h
        · exact grants_of_arithmetic h
        · split at h
          · exact grants_of_jumping h
          · split at h
            · exact grants_of_branching h
            · split at h
              · exact grants_of_arithmetic h
              · cases h

/-- The first slot of a 64-bit immediate load. -/
theorem grants_of_wideOperation {next : Insn} (h : i.wideOperation next = .ok operation) :
    i.Grants operation := by
  obtain ⟨dst, hdst, h⟩ := bind_eq_ok.mp h
  obtain rfl := pure_eq_ok.mp h
  exact .of_dst (register_eq_ok.mp hdst) rfl trivial

end Insn

/-- Some slot of the program means the operation of a step. -/
theorem Program.grants_of_step {p : Program} {before after : List Step} {s : Step}
    {operation : Operation} (hs : p.steps = before ++ s :: after)
    (ho : s.operation = .ok operation) : ∃ i ∈ p.insns, i.Grants operation := by
  obtain ⟨_, i, rest, hdrop, _, hcases⟩ := stepsFrom_split hs
  have hmem : i ∈ p.insns := List.mem_of_mem_drop (hdrop ▸ List.mem_cons_self)
  refine ⟨i, hmem, ?_⟩
  rcases hcases with ⟨_, _, _, herror⟩ | ⟨_, _, next, _, _, hwide⟩ | ⟨_, _, hsingle⟩
  · rw [herror] at ho
    cases ho
  · exact Insn.grants_of_wideOperation (hwide.symm.trans ho)
  · exact Insn.grants_of_operation (hsingle.symm.trans ho)

end Virtual

namespace Frame

variable {f : Frame} {r : Reg}

/-- The registers that code in any frame may write: those in which nobody expects to keep a value,
and the two of the frame itself. -/
def scratch : List Reg := [.rax, .rcx, .rdx, .rsi, .rdi, .r8, .r10, .r11, .rsp, .rbp]

/-- The registers that code in the frame may write. -/
def writable (f : Frame) : List Reg := scratch ++ f.saved.map VReg.native

/-- A virtual register may be written if it is saved, should a caller keep a value in it. -/
theorem native_mem_writable {v : VReg} (h : v ∈ VReg.calleeSaved → v ∈ f.saved) :
    v.native ∈ f.writable := by
  have hfixed : v ∈ VReg.calleeSaved ∨ v.native ∈ scratch := by
    cases v <;> decide
  rcases hfixed with hsaved | hfixed
  · exact List.mem_append_right _ (List.mem_map_of_mem (h hsaved))
  · exact List.mem_append_left _ hfixed

/-- A register that the operation of a step gives a value may be written. -/
theorem target_mem_writable {p : Program} {before after : List Step} {s : Step}
    {operation : Operation} (hs : p.steps = before ++ s :: after)
    (ho : s.operation = .ok operation) {v : VReg} (hv : operation.target? = some v) :
    v.native ∈ (ofProgram p).writable := by
  obtain ⟨i, hi, hgrants⟩ := Program.grants_of_step hs ho
  refine native_mem_writable fun hcallee => List.mem_filter.mpr
    ⟨hcallee, List.any_eq_true.mpr ⟨i, hi, ?_⟩⟩
  rcases hgrants.named v hv with hname | hname
  · simp [VReg.number_of_index hname]
  · simp [VReg.number_of_index hname]

/-- Of the registers that callers keep values in, only saved ones may be written. -/
theorem of_mem_writable (hsaved : ∀ v ∈ f.saved, v ∈ VReg.calleeSaved) (h : r ∈ f.writable) :
    r ≠ .r12 ∧ (r ∈ [.rbx, .r13, .r14, .r15] → r ∈ f.saved.map VReg.native) := by
  have hscratch : ∀ r ∈ scratch, r ≠ .r12 ∧ r ∉ [.rbx, .r13, .r14, .r15] := by decide
  have hcallee : ∀ v ∈ VReg.calleeSaved, v.native ≠ .r12 := by decide
  rcases List.mem_append.mp h with hfixed | hmem
  · exact ⟨(hscratch r hfixed).1, fun hkept => absurd hkept (hscratch r hfixed).2⟩
  · obtain ⟨v, hv, rfl⟩ := List.mem_map.mp hmem
    exact ⟨hcallee v (hsaved v hv), fun _ => hmem⟩

/-- The registers that lowered code uses beside those that operations name. -/
theorem scratch_writable (f : Frame) :
    .rax ∈ f.writable ∧ .rcx ∈ f.writable ∧ .rdx ∈ f.writable ∧ .rsp ∈ f.writable ∧
      .rbp ∈ f.writable ∧ .r10 ∈ f.writable ∧ .r11 ∈ f.writable := by
  simp [writable, scratch]

/-- Restoring the saved registers writes them. -/
theorem writesOnly_pops (f : Frame) : WritesOnly f.writable f.pops := by
  obtain ⟨_, _, _, hrsp, _⟩ := f.scratch_writable
  intro i hi
  obtain ⟨v, hv, rfl⟩ := List.mem_map.mp hi
  have hmem := List.mem_append_right scratch
    (List.mem_map_of_mem (f := VReg.native) (List.mem_reverse.mp hv))
  exact List.forall_mem_cons.mpr ⟨hrsp, List.forall_mem_singleton.mpr hmem⟩

/-- The epilogue can be read back. -/
theorem encodable_epilogue (f : Frame) : Encodable f.epilogue := by
  refine encodable_append.mpr ⟨fun i hi => ?_, by simp [Instr.HasOwnEncoding]⟩
  obtain ⟨v, _, rfl⟩ := List.mem_map.mp hi
  trivial

end Frame

/-- A virtual register is never the stack pointer, and it can be the base of an address. -/
theorem Virtual.VReg.native_fits (v : VReg) : v.native ≠ .rsp ∧ v.native.code ≠ 4 := by
  cases v <;> decide

section Writes

variable {frame : Frame} {dst : VReg}

/-- The code of a multiplication around the instruction that gets the second factor. -/
theorem Lowering.multiply_parts (size : OpSize) (dst : VReg) (src : Operand) :
    ∃ factor : Instr, factor.written = [.rax] ∧ factor.isPlain = true ∧
      Lowering.multiply size dst src =
        (if dst = .r0 then [] else [.push .rax]) ++ (if dst = .r3 then [] else [.push .rdx]) ++
        copy VReg.aux.native dst.native ++ [factor] ++ [.mul size VReg.aux.native] ++
        (if dst = .r3 then [] else [.pop .rdx]) ++
        (if dst = .r0 then [] else copy dst.native .rax ++ [.pop .rax]) := by
  cases src with
  | reg src => exact ⟨.mov size .rax src.native, rfl, rfl, rfl⟩
  | imm v =>
    exact ⟨loadImm32 .rax v size.isWide, written_loadImm32 _ _ _, isPlain_loadImm32 _ _ _, rfl⟩

/-- The code of a division around the instructions that get the divisor. -/
theorem Lowering.divide_parts (part : DivisionPart) (size : OpSize) (dst : VReg) (src : Operand) :
    ∃ (divisor : List Instr) (result : Reg),
      (∀ {rs : List Reg}, .r11 ∈ rs → WritesOnly rs divisor) ∧ Orderly divisor ∧
      Lowering.divide part size dst src =
        [.push .rax, .push .rdx] ++ divisor ++ copy .rax dst.native ++
        [.alu .xor .narrow .rdx .rdx, .div size VReg.aux.native, .mov .wide VReg.aux.native result,
          .pop .rdx, .pop .rax] ++
        copy dst.native VReg.aux.native := by
  cases src with
  | reg src =>
    exact ⟨copy VReg.aux.native src.native, _, fun h => writesOnly_copy _ h,
      orderly_copy _ (by decide), rfl⟩
  | imm v =>
    refine ⟨[loadImm32 VReg.aux.native v true], _, fun h => ?_, ?_, rfl⟩
    · exact writesOnly_single (written_loadImm32 _ _ _) h
    · exact orderly_write (isPlain_loadImm32 _ _ _) (written_loadImm32 _ _ _) (by decide)

/-- Filler writes nothing. -/
theorem writesOnly_filler {rs : List Reg} {code : List Instr} (h : IsFiller code) :
    WritesOnly rs code := by
  intro i hi
  obtain ⟨extra, rfl⟩ := h i hi
  simp [Instr.written]

variable (hd : dst.native ∈ frame.writable)
include hd

/-- Combining writes the destination. -/
theorem writesOnly_alu {op : AluOp} {size : OpSize} (src : Operand) :
    WritesOnly frame.writable (Lowering.alu op size dst src) := by
  cases src with
  | reg src => exact writesOnly_single rfl hd
  | imm v => exact writesOnly_single (written_aluWithImm _ _ _ _) hd

/-- Moving writes the destination. -/
theorem writesOnly_move {size : OpSize} (src : Operand) :
    WritesOnly frame.writable (Lowering.move size dst src) := by
  cases src with
  | reg src => exact writesOnly_single rfl hd
  | imm v => exact writesOnly_single (written_loadImm32 _ _ _) hd

/-- Shifting writes the destination, or the scratch register and the one of the count. -/
theorem writesOnly_shift {op : ShiftOp} {size : OpSize} (src : Operand) :
    WritesOnly frame.writable (Lowering.shift op size dst src) := by
  obtain ⟨_, hrcx, _, hrsp, _, _, hr11⟩ := frame.scratch_writable
  have haux : VReg.aux.native ∈ frame.writable := hr11
  cases src with
  | imm v => exact writesOnly_single (written_shiftBy _ _ _ _) hd
  | reg src =>
    by_cases hdst : dst = .r4 <;> by_cases hsrc : src = .r4 <;>
      simp [Lowering.shift, Lowering.shiftReg, hdst, hsrc, Instr.written, hrcx, hrsp, haux, hd,
        writesOnly_copy _ haux, writesOnly_copy _ hrcx]

/-- Multiplying writes the destination and the registers that it works in. -/
theorem writesOnly_multiply {size : OpSize} (src : Operand) :
    WritesOnly frame.writable (Lowering.multiply size dst src) := by
  obtain ⟨hrax, _, hrdx, hrsp, _, _, hr11⟩ := frame.scratch_writable
  obtain ⟨factor, hwritten, _, hcode⟩ := Lowering.multiply_parts size dst src
  simp only [hcode, writesOnly_append]
  refine ⟨⟨⟨⟨⟨⟨?_, ?_⟩, writesOnly_copy _ hr11⟩, writesOnly_single hwritten hrax⟩, ?_⟩, ?_⟩, ?_⟩
  · split <;> simp [Instr.written, hrsp]
  · split <;> simp [Instr.written, hrsp]
  · simp [Instr.written, hrax, hrdx]
  · split <;> simp [Instr.written, hrsp, hrdx]
  · split
    · exact writesOnly_nil
    · simp [Instr.written, hrsp, hrax, writesOnly_copy .rax hd]

/-- Dividing writes the destination and the registers that it works in. -/
theorem writesOnly_divide {part : DivisionPart} {size : OpSize} (src : Operand) :
    WritesOnly frame.writable (Lowering.divide part size dst src) := by
  obtain ⟨hrax, _, hrdx, hrsp, _, _, hr11⟩ := frame.scratch_writable
  have haux : VReg.aux.native ∈ frame.writable := hr11
  obtain ⟨divisor, result, hwritten, _, hcode⟩ := Lowering.divide_parts part size dst src
  rw [hcode]
  simp [Instr.written, hwritten hr11, hrax, hrdx, hrsp, haux, writesOnly_copy dst.native hrax,
    writesOnly_copy VReg.aux.native hd]

/-- Converting writes the register that is converted. -/
theorem writesOnly_convert (order : ByteOrder) (width : Width) :
    WritesOnly frame.writable (Lowering.convert order width dst) := by
  cases order with
  | big => exact writesOnly_reverseBytes width hd
  | little => cases width <;> simp [Lowering.convert, Instr.written, hd]

/-- A locked operation writes the accumulator or the register that it exchanges. -/
theorem writesOnly_atomic (op : LockedOp) (size : OpSize) (base : VReg) (off : Int16) :
    WritesOnly frame.writable (Lowering.atomic op size base dst off) := by
  obtain ⟨hrax, _⟩ := frame.scratch_writable
  have hlocked : ∀ r ∈ op.written dst.native, r ∈ frame.writable := by
    cases op <;> simp [LockedOp.written, hrax, hd]
  refine writesOnly_cons.mpr ⟨hlocked, ?_⟩
  split <;> simp [Instr.written, hrax]

/-- A fetching operation writes the register that gets the old value, the accumulator and the
scratch registers. -/
theorem writesOnly_fetchCode (op : AluOp) (size : OpSize) (base : VReg) (off : Int16) :
    WritesOnly frame.writable (fetchCode op size base dst off) := by
  obtain ⟨hrax, _, _, _, _, hr10, hr11⟩ := frame.scratch_writable
  have hbeside : Lowering.besideAccumulator dst ∈ frame.writable := by
    unfold Lowering.besideAccumulator
    split
    · exact hr10
    · exact hd
  simp [fetchCode, Instr.written, LockedOp.written, hrax, hr10, hr11, hbeside]

end Writes

section Order

variable {size : OpSize} {dst : VReg}

/-- Combining is orderly. -/
theorem orderly_alu (op : AluOp) (src : Operand) : Orderly (Lowering.alu op size dst src) := by
  cases src with
  | reg src => exact orderly_write rfl rfl dst.native_fits.1
  | imm v =>
    exact orderly_write (isPlain_aluWithImm _ _ _ _) (written_aluWithImm _ _ _ _) dst.native_fits.1

/-- Moving is orderly. -/
theorem orderly_move (src : Operand) : Orderly (Lowering.move size dst src) := by
  cases src with
  | reg src => exact orderly_write rfl rfl dst.native_fits.1
  | imm v =>
    exact orderly_write (isPlain_loadImm32 _ _ _) (written_loadImm32 _ _ _) dst.native_fits.1

/-- Shifting is orderly: the register of the count is saved around it, unless it holds the count
already. -/
theorem orderly_shift (op : ShiftOp) (src : Operand) :
    Orderly (Lowering.shift op size dst src) := by
  cases src with
  | imm v =>
    exact orderly_write (isPlain_shiftBy _ _ _ _) (written_shiftBy _ _ _ _) dst.native_fits.1
  | reg src =>
    have hcopies : Orderly (if dst = .r4 then copy VReg.aux.native .rcx else []) ∧
        Orderly (if dst = .r4 then copy .rcx VReg.aux.native else []) := by
      split
      · exact ⟨orderly_copy _ (by decide), orderly_copy _ (by decide)⟩
      · exact ⟨orderly_nil, orderly_nil⟩
    have hshift : Orderly [.shiftCount op size
        (if dst = .r4 then VReg.aux.native else dst.native)] := by
      refine orderly_write rfl rfl ?_
      split
      · decide
      · exact dst.native_fits.1
    have hbody : Orderly ((if src = .r4 then [] else .push .rcx :: copy .rcx src.native) ++
        [.shiftCount op size (if dst = .r4 then VReg.aux.native else dst.native)] ++
        (if src = .r4 then [] else [.pop .rcx])) := by
      by_cases hsrc : src = .r4
      · simpa only [if_pos hsrc, List.nil_append, List.append_nil] using hshift
      · have hcount : Orderly (copy .rcx src.native) := orderly_copy _ (by decide)
        simpa [if_neg hsrc] using (hcount.append hshift).saving .rcx (r := .rcx) (by decide)
    simpa [Lowering.shift, Lowering.shiftReg] using (hcopies.1.append hbody).append hcopies.2

/-- Multiplying is orderly: the registers that it works in are saved around it, unless one of them
is the destination. -/
theorem orderly_multiply (src : Operand) : Orderly (Lowering.multiply size dst src) := by
  obtain ⟨factor, hwritten, hplain, hcode⟩ := Lowering.multiply_parts size dst src
  have hcopy : Orderly (copy VReg.aux.native dst.native) := orderly_copy _ (by decide)
  have hmul : Orderly [.mul size VReg.aux.native] := orderly_single rfl (by simp [Instr.written])
  have hinner := ((hcopy.append (orderly_write hplain hwritten (by decide))).append
    hmul).savingUnless (dst = .r3) .rdx (r := .rdx) (by decide)
  rw [hcode]
  by_cases h0 : dst = .r0
  · simpa [h0] using hinner
  · have hresult : Orderly (copy dst.native .rax) := orderly_copy _ dst.native_fits.1
    simpa [h0] using (hinner.append hresult).saving .rax (r := .rax) (by decide)

/-- Dividing is orderly: the registers that it works in are saved around it. -/
theorem orderly_divide (part : DivisionPart) (src : Operand) :
    Orderly (Lowering.divide part size dst src) := by
  obtain ⟨divisor, result, _, hdivisor, hcode⟩ := Lowering.divide_parts part size dst src
  have hdividend : Orderly (copy .rax dst.native) := orderly_copy _ (by decide)
  have hclear : Orderly [.alu .xor .narrow .rdx .rdx] := orderly_write rfl rfl (by decide)
  have hdiv : Orderly [.div size VReg.aux.native] := orderly_single rfl (by simp [Instr.written])
  have hkeep : Orderly [.mov .wide VReg.aux.native result] := orderly_write rfl rfl (by decide)
  have hinner := (hdivisor.append (hdividend.append (hclear.append (hdiv.append hkeep)))).saving .rdx
    (r := .rdx) (by decide)
  have hresult : Orderly (copy dst.native VReg.aux.native) := orderly_copy _ dst.native_fits.1
  rw [hcode]
  simpa using (hinner.saving .rax (r := .rax) (by decide)).append hresult

/-- Converting is orderly. -/
theorem orderly_convert (order : ByteOrder) (width : Width) :
    Orderly (Lowering.convert order width dst) := by
  cases order with
  | big => exact orderly_reverseBytes width dst.native_fits.1
  | little =>
    cases width with
    | half | word => exact orderly_write rfl rfl dst.native_fits.1
    | byte | double => exact orderly_nil

/-- A locked operation is orderly. -/
theorem orderly_atomic (op : LockedOp) (base : VReg) (off : Int16) :
    Orderly (Lowering.atomic op size base dst off) := by
  have hrsp : .rsp ∉ op.written dst.native := by
    cases op with
    | alu => simp [LockedOp.written]
    | fetchAdd | exchange => simpa [LockedOp.written] using dst.native_fits.1.symm
    | compareExchange => simp [LockedOp.written]
  have hlocked : Orderly [.locked op size base.native dst.native (Lowering.displacement off)] :=
    orderly_single rfl hrsp
  have hclear : Orderly (if op = .compareExchange ∧ size = .narrow then [.mov .narrow .rax .rax]
      else []) := by
    split
    · exact orderly_write rfl rfl (by decide)
    · exact orderly_nil
  exact hlocked.append hclear

end Order

namespace Pass

variable {p : Pass} {depth : UInt32} {index : Nat} {epilogue : Option Nat} {operation : Operation}
  {f : Fragment}

/-- A comparison can be read back, goes on and writes no register. -/
theorem compare_spares (cond : Condition) (size : OpSize) (dst : VReg) (src : Operand) :
    (compare cond size dst src).HasOwnEncoding ∧ (compare cond size dst src).isPlain = true ∧
      (compare cond size dst src).written = [] := by
  unfold compare
  cases src with
  | reg src =>
    dsimp only
    split <;> exact ⟨trivial, rfl, rfl⟩
  | imm v =>
    dsimp only
    split
    · exact ⟨trivial, rfl, rfl⟩
    · split <;> exact ⟨trivial, rfl, rfl⟩

/-- A call stands behind at most a load of the counter. -/
theorem call_code {id : Int32} {subprogram : Bool} (h : p.call depth index id subprogram = .ok f) :
    ∃ counter rel, f.code = counter ++ [.call rel] ∧
      (counter = [] ∨ ∃ field, counter = [.load .double .rax .rbp field]) := by
  obtain ⟨counter, rel, hcode, hcounter⟩ := call_hands h
  refine ⟨counter, rel, hcode, ?_⟩
  split at hcounter
  · obtain ⟨field, _, hload⟩ := hcounter
    exact .inr ⟨field, hload⟩
  · exact .inl hcounter

/-- The code of an operation is as it is for the operation with its immediate reduced, in bytes. -/
theorem lower_trimmed (h : p.lower depth index epilogue operation = .ok f) :
    ∃ g, p.lower depth index epilogue operation.trimmed = .ok g ∧
      encodeAll g.code = encodeAll f.code := by
  cases operation with
  | storeImm width base off imm =>
    cases h
    refine ⟨_, rfl, ?_⟩
    have hbytes := take_ofInt32_lowNumber imm width
    simp only [encodeAll_cons, encodeAll_nil, List.append_nil, Lowering.storeImm, Instr.encode]
    cases width <;> simp_all
  | _ => exact ⟨f, h, rfl⟩

/-- The code of an operation other than a tail call can be read back if it tells the operation. -/
theorem encodable_of_readable (h : p.lower depth index epilogue operation = .ok f)
    (hr : operation.Readable) (ht : ∀ id, operation ≠ .tailCall id) : Encodable f.code := by
  cases operation with
  | alu | shift | move | negate | multiply | divide | convert | loadWide =>
    exact encodable_lower h trivial
  | load ext width dst base off | probe ext width dst base off =>
    cases h
    refine encodable_cons.mpr ⟨?_, encodable_nil⟩
    cases ext with
    | zero => exact base.native_fits.2
    | sign => exact ⟨hr rfl, base.native_fits.2⟩
  | storeImm width base off imm =>
    cases h
    refine encodable_cons.mpr ⟨⟨base.native_fits.2, ?_, ?_⟩, encodable_nil⟩
    · rintro rfl
      exact hr
    · rintro rfl
      exact hr
  | store width base src off =>
    cases h
    exact encodable_cons.mpr ⟨base.native_fits.2, encodable_nil⟩
  | atomic op size base src off =>
    cases h
    refine encodable_cons.mpr ⟨base.native_fits.2, ?_⟩
    split <;> simp [Instr.HasOwnEncoding]
  | fetch op size base src off =>
    rw [lower, fetch_eq] at h
    cases h
    exact encodable_fetchCode
  | jump off =>
    obtain ⟨distance, code, _, hjump, rfl⟩ := lower_jump h
    rcases jump_eq_ok hjump with ⟨_, _, hfiller⟩ | ⟨_, filler, hfiller, rfl⟩
    · exact encodable_filler hfiller
    · simp [encodable_filler hfiller, Instr.HasOwnEncoding]
  | branch cond size dst src off =>
    obtain ⟨distance, filler, _, _, hfiller, hcode⟩ := lower_branch h
    rw [hcode]
    exact encodable_append.mpr
      ⟨encodable_cons.mpr ⟨(compare_spares cond size dst src).1, encodable_filler hfiller⟩,
        encodable_cons.mpr ⟨trivial, encodable_nil⟩⟩
  | exit =>
    rcases lower_exit h with ⟨_, hcode⟩ | ⟨_, _, filler, _, _, _, hfiller, hcode⟩
    · rw [hcode]
      exact p.frame.encodable_epilogue
    · rw [hcode]
      simp [encodable_filler hfiller, Instr.HasOwnEncoding]
  | call id subprogram =>
    obtain ⟨counter, rel, hcode, hcounter⟩ := call_code h
    have hbase : Reg.rbp.code ≠ 4 := by decide
    rw [hcode]
    rcases hcounter with rfl | ⟨field, rfl⟩ <;> simp [Instr.HasOwnEncoding, hbase]
  | tailCall id => exact absurd rfl (ht id)

/-- The code of an operation other than a tail call writes its register, if it may be written, and
registers that may always be. -/
theorem writesOnly_lower (h : p.lower depth index epilogue operation = .ok f)
    (hv : ∀ v, operation.target? = some v → v.native ∈ p.frame.writable)
    (ht : ∀ id, operation ≠ .tailCall id) : WritesOnly p.frame.writable f.code := by
  obtain ⟨hrax, _, _, hrsp, hrbp, _⟩ := p.frame.scratch_writable
  cases operation with
  | alu op size dst src =>
    cases h
    exact writesOnly_alu (hv dst rfl) src
  | shift op size dst src =>
    cases h
    exact writesOnly_shift (hv dst rfl) src
  | move size dst src =>
    cases h
    exact writesOnly_move (hv dst rfl) src
  | negate size dst =>
    cases h
    simp [Instr.written, hv dst rfl]
  | multiply size dst src =>
    cases h
    exact writesOnly_multiply (hv dst rfl) src
  | divide part size dst src =>
    cases h
    exact writesOnly_divide (hv dst rfl) src
  | convert order width dst =>
    cases h
    exact writesOnly_convert (hv dst rfl) order width
  | loadWide dst value =>
    cases h
    simpa using hv dst rfl
  | load ext width dst base off | probe ext width dst base off =>
    cases h
    cases ext <;> simpa [Lowering.load, Instr.written] using hv dst rfl
  | storeImm | store =>
    cases h
    simp [Lowering.storeImm, Lowering.store, Instr.written]
  | atomic op size base src off =>
    cases h
    exact writesOnly_atomic (hv src rfl) op size base off
  | fetch op size base src off =>
    rw [lower, fetch_eq] at h
    cases h
    exact writesOnly_fetchCode (hv src rfl) op size base off
  | jump off =>
    obtain ⟨distance, code, _, hjump, rfl⟩ := lower_jump h
    rcases jump_eq_ok hjump with ⟨_, _, hf⟩ | ⟨_, filler, hf, rfl⟩
    · exact writesOnly_filler hf
    · simp [writesOnly_filler hf, Instr.written]
  | branch cond size dst src off =>
    obtain ⟨distance, filler, _, _, hf, hcode⟩ := lower_branch h
    have hcompare := (compare_spares cond size dst src).2.2
    rw [hcode]
    simp only [writesOnly_append, writesOnly_cons, hcompare, writesOnly_filler hf]
    simp [Instr.written]
  | exit =>
    rcases lower_exit h with ⟨_, hcode⟩ | ⟨_, _, filler, _, _, _, hf, hcode⟩
    · rw [hcode]
      simp [Frame.epilogue, p.frame.writesOnly_pops, Instr.written, hrsp, hrbp]
    · rw [hcode]
      simp [writesOnly_filler hf, Instr.written]
  | call id subprogram =>
    obtain ⟨counter, rel, hcode, hcounter⟩ := call_code h
    rw [hcode]
    rcases hcounter with rfl | ⟨field, rfl⟩ <;> simp [Instr.written, hrax, hrsp]
  | tailCall id => exact absurd rfl (ht id)

/-- The code of an operation that control goes straight through is orderly. -/
theorem orderly_lower (h : p.lower depth index epilogue operation = .ok f)
    (ho : operation.IsStraight) : Orderly f.code := by
  cases operation with
  | alu op size dst src =>
    cases h
    exact orderly_alu op src
  | shift op size dst src =>
    cases h
    exact orderly_shift op src
  | move size dst src =>
    cases h
    exact orderly_move src
  | multiply size dst src =>
    cases h
    exact orderly_multiply src
  | divide part size dst src =>
    cases h
    exact orderly_divide part src
  | convert order width dst =>
    cases h
    exact orderly_convert order width
  | atomic op size base src off =>
    cases h
    exact orderly_atomic op base off
  | negate size dst =>
    cases h
    exact orderly_write rfl rfl dst.native_fits.1
  | loadWide dst value =>
    cases h
    exact orderly_write (isPlain_loadImm64 _ _) (written_loadImm64 _ _) dst.native_fits.1
  | load ext width dst base off | probe ext width dst base off =>
    cases h
    cases ext <;> exact orderly_write rfl rfl dst.native_fits.1
  | storeImm | store =>
    cases h
    exact orderly_single rfl (by simp [Lowering.storeImm, Lowering.store, Instr.written])
  | fetch | jump | branch | exit | call | tailCall => exact ho.elim

end Pass

end NativeForge
