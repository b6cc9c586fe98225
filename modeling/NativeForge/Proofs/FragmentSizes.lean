import NativeForge.Proofs.SlotLengths

/-!
# Sizes of fragments

Bounds that hold for all operations and all operands: no instruction takes more than eleven bytes,
no fragment takes exactly one byte, and a tail call takes at most 56 bytes beside taking down its
frame.
-/

namespace NativeForge

open X64 Virtual Target

namespace X64

/-- A prefix is one byte or none. -/
theorem length_pairPrefix_le (size : OpSize) (rm reg : Reg) : (pairPrefix size rm reg).length ≤ 1 := by
  unfold pairPrefix
  split
  · exact Nat.le_refl 1
  · split
    · exact Nat.le_refl 1
    · exact Nat.zero_le 1

/-- The prefix of one operand is one byte or none. -/
theorem length_basePrefix_le (size : OpSize) (rm : Reg) : (basePrefix size rm).length ≤ 1 := by
  unfold basePrefix
  split
  · exact Nat.le_refl 1
  · split
    · exact Nat.le_refl 1
    · exact Nat.zero_le 1

/-- A 32-bit field has four bytes. -/
theorem length_ofInt32 (v : Int32) : (Bytes.ofInt32 v).length = 4 := rfl

/-- A sign-extended field has at most four bytes. -/
theorem length_bytes_le (field : SignedField) : field.bytes.length ≤ 4 := by
  cases field with
  | byte v => exact (by decide : 1 ≤ 4)
  | dword v => exact Nat.le_refl 4

/-- A memory operand has two to five bytes. -/
theorem length_memoryField (base : Reg) (field : UInt8) (disp : SignedField) :
    2 ≤ (memoryField base field disp).length ∧ (memoryField base field disp).length ≤ 5 := by
  cases disp with
  | byte v => exact (by decide : 2 ≤ 2 ∧ 2 ≤ 5)
  | dword v => exact (by decide : 2 ≤ 5 ∧ 5 ≤ 5)

/-- The least number of bytes of an instruction: stack operations, returns and instructions that do
nothing can be a single byte. -/
def Instr.leastSize : Instr → Nat
  | .push _ | .pop _ | .leave | .ret | .nop _ => 1
  | _ => 2

/-- The instruction has its least number of bytes, and at most eleven. -/
def Instr.InBounds (i : Instr) : Prop := i.leastSize ≤ i.size ∧ i.size ≤ 11

section InBounds

variable (size : OpSize) (width : Width) (dst src base : Reg) (disp : SignedField)

/-- Loads of immediates. -/
theorem inBounds_movWide (imm : UInt64) : (Instr.movWide dst imm).InBounds := by
  have hprefix := length_basePrefix_le .wide dst
  have hbytes : (Bytes.ofUInt64 imm).length = 8 := rfl
  simp only [Instr.InBounds, Instr.leastSize, Instr.size, Instr.encode, List.length_append,
    List.length_cons, List.length_nil]
  omega

/-- Loads from memory. -/
theorem inBounds_load : (Instr.load width dst base disp).InBounds := by
  have hmem := length_memoryField base dst.code disp
  have hwide := length_pairPrefix_le .wide base dst
  have hnarrow := length_pairPrefix_le .narrow base dst
  simp only [Instr.InBounds, Instr.leastSize, Instr.size, Instr.encode, loadOpcode, memoryPair]
  cases width <;> simp only [List.length_append, List.length_cons, List.length_nil] <;> omega

/-- Loads from memory with sign. -/
theorem inBounds_loadSigned : (Instr.loadSigned width dst base disp).InBounds := by
  have hmem := length_memoryField base dst.code disp
  have hprefix := length_pairPrefix_le .wide base dst
  simp only [Instr.InBounds, Instr.leastSize, Instr.size, Instr.encode, memoryPair,
    List.length_append]
  cases width <;> simp only [loadSignedOpcode, List.length_cons, List.length_nil] <;> omega

/-- Stores of registers; a byte may need a prefix of its own. -/
theorem inBounds_store : (Instr.store width base src disp).InBounds := by
  have hmem := length_memoryField base src.code disp
  have hwide := length_pairPrefix_le .wide base src
  have hnarrow := length_pairPrefix_le .narrow base src
  simp only [Instr.InBounds, Instr.leastSize, Instr.size, Instr.encode, storeOpcode, memoryPair]
  cases width with
  | byte =>
    dsimp only
    split <;> simp only [List.length_append, List.length_cons, List.length_nil] <;> omega
  | _ =>
    simp only [List.length_append, List.length_cons, List.length_nil]
    omega

/-- Stores of immediates. -/
theorem inBounds_storeImm (imm : Int32) : (Instr.storeImm width base disp imm).InBounds := by
  have hmem := length_memoryField base 0 disp
  have hwide := length_basePrefix_le .wide base
  have hnarrow := length_basePrefix_le .narrow base
  simp only [Instr.InBounds, Instr.leastSize, Instr.size, Instr.encode, storeImmOpcode]
  cases width <;>
    simp only [List.length_append, List.length_cons, List.length_nil, List.length_take,
      length_ofInt32, Width.bytes] <;> omega

/-- Locked operations. -/
theorem inBounds_locked (op : LockedOp) : (Instr.locked op size base src disp).InBounds := by
  have hmem := length_memoryField base src.code disp
  have hprefix := length_pairPrefix_le size base src
  simp only [Instr.InBounds, Instr.leastSize, Instr.size, Instr.encode, memoryPair,
    List.length_append, List.length_cons]
  cases op <;> simp only [lockedOpcode, List.length_cons, List.length_nil] <;> omega

/-- Addresses of memory. -/
theorem inBounds_lea : (Instr.lea dst base disp).InBounds := by
  have hmem := length_memoryField base dst.code disp
  have hprefix := length_pairPrefix_le .wide base dst
  simp only [Instr.InBounds, Instr.leastSize, Instr.size, Instr.encode, memoryPair,
    List.length_append, List.length_cons, List.length_nil]
  omega

/-- Comparisons of memory with a register. -/
theorem inBounds_cmpMem : (Instr.cmpMem size base src disp).InBounds := by
  have hmem := length_memoryField base src.code disp
  have hprefix := length_pairPrefix_le size base src
  simp only [Instr.InBounds, Instr.leastSize, Instr.size, Instr.encode, memoryPair,
    List.length_append, List.length_cons, List.length_nil]
  omega

/-- Comparisons of memory with an immediate. -/
theorem inBounds_cmpMemImm (imm : Int8) : (Instr.cmpMemImm size base disp imm).InBounds := by
  have hmem := length_memoryField base 7 disp
  have hprefix := length_basePrefix_le size base
  simp only [Instr.InBounds, Instr.leastSize, Instr.size, Instr.encode, List.length_append,
    List.length_cons, List.length_nil]
  omega

/-- Jumps. -/
theorem inBounds_jmp (rel : SignedField) : (Instr.jmp rel).InBounds := by
  cases rel with
  | byte v => exact (by decide : 2 ≤ 2 ∧ 2 ≤ 11)
  | dword v => exact (by decide : 2 ≤ 5 ∧ 5 ≤ 11)

/-- Conditional jumps. -/
theorem inBounds_jcc (cond : Cond) (rel : SignedField) : (Instr.jcc cond rel).InBounds := by
  cases rel with
  | byte v => exact (by decide : 2 ≤ 2 ∧ 2 ≤ 11)
  | dword v => exact (by decide : 2 ≤ 6 ∧ 6 ≤ 11)

/-- Instructions that do nothing. -/
theorem inBounds_nop (extra : Fin 8) : (Instr.nop extra).InBounds := by
  have hsize := size_nop extra
  simp only [Instr.InBounds, Instr.leastSize]
  omega

/-- Every instruction is in bounds. The others are a prefix, some fixed bytes and an immediate. -/
theorem size_bounds (i : Instr) : i.leastSize ≤ i.size ∧ i.size ≤ 11 := by
  have hpair := length_pairPrefix_le
  have hbase := length_basePrefix_le
  cases i with
  | movWide dst imm => exact inBounds_movWide dst imm
  | load width dst base disp => exact inBounds_load width dst base disp
  | loadSigned width dst base disp => exact inBounds_loadSigned width dst base disp
  | store width base src disp => exact inBounds_store width src base disp
  | storeImm width base disp imm => exact inBounds_storeImm width base disp imm
  | locked op size base src disp => exact inBounds_locked size src base disp op
  | loadIndexed dst base index disp => exact (by decide : 2 ≤ 8 ∧ 8 ≤ 11)
  | lea dst base disp => exact inBounds_lea dst base disp
  | cmpMem size base src disp => exact inBounds_cmpMem size src base disp
  | cmpMemImm size base disp imm => exact inBounds_cmpMemImm size base disp imm
  | jmp rel => exact inBounds_jmp rel
  | jcc cond rel => exact inBounds_jcc cond rel
  | nop extra => exact inBounds_nop extra
  | call rel => exact (by decide : 2 ≤ 5 ∧ 5 ≤ 11)
  | leave | ret => exact (by decide : 1 ≤ 1 ∧ 1 ≤ 11)
  | aluImm op size dst imm | cmpImm size dst imm =>
    have hprefix := hbase size dst
    have hbytes := length_bytes_le imm
    simp only [Instr.leastSize, Instr.size, Instr.encode, List.length_append, List.length_cons,
      List.length_nil]
    omega
  | movSigned dst imm =>
    have hprefix := hbase .wide dst
    simp only [Instr.leastSize, Instr.size, Instr.encode, List.length_append, List.length_cons,
      List.length_nil, length_ofInt32]
    omega
  | movZero dst imm =>
    have hprefix := hbase .narrow dst
    simp only [Instr.leastSize, Instr.size, Instr.encode, List.length_append, List.length_cons,
      List.length_nil, length_ofInt32]
    omega
  | aluAccumulator op size imm =>
    have hprefix := hbase size .rax
    simp only [Instr.leastSize, Instr.size, Instr.encode, List.length_append, List.length_cons,
      List.length_nil, length_ofInt32]
    omega
  | testImm size dst imm =>
    have hprefix := hbase size dst
    simp only [Instr.leastSize, Instr.size, Instr.encode, List.length_append, List.length_cons,
      List.length_nil, length_ofInt32]
    omega
  | mov size dst src | alu op size dst src | cmp size dst src | test size dst src =>
    have hprefix := hpair size dst src
    simp only [Instr.leastSize, Instr.size, Instr.encode, List.length_append, List.length_cons,
      List.length_nil]
    omega
  | zeroExtendHalf dst =>
    have hprefix := hpair .narrow dst dst
    simp only [Instr.leastSize, Instr.size, Instr.encode, List.length_append, List.length_cons,
      List.length_nil]
    omega
  | rotateHalf dst | push dst | pop dst | jmpReg dst =>
    have hprefix := hbase .narrow dst
    simp only [Instr.leastSize, Instr.size, Instr.encode, List.length_append, List.length_cons,
      List.length_nil]
    omega
  | swapBytes size dst | neg size dst | mul size dst | div size dst | shiftOne op size dst
  | shiftImm op size dst count | shiftCount op size dst =>
    have hprefix := hbase size dst
    simp only [Instr.leastSize, Instr.size, Instr.encode, List.length_append, List.length_cons,
      List.length_nil]
    omega

end InBounds

/-- A sequence is not shorter than an instruction in it. -/
theorem size_le_codeSize {i : Instr} {code : List Instr} (h : i ∈ code) : i.size ≤ codeSize code := by
  obtain ⟨front, back, rfl⟩ := List.append_of_mem h
  rw [codeSize_append, codeSize_cons]
  omega

/-- A sequence with an instruction of two bytes or more is not a single byte. -/
theorem two_le_codeSize {i : Instr} {code : List Instr} (h : i ∈ code) (hl : i.leastSize = 2) :
    2 ≤ codeSize code := by
  have hle := size_le_codeSize h
  have hsize := (size_bounds i).1
  omega

/-- A sequence takes at most eleven bytes per instruction. -/
theorem codeSize_le (code : List Instr) : codeSize code ≤ 11 * code.length := by
  induction code with
  | nil => exact Nat.le_refl 0
  | cons i rest ih =>
    have hsize := (size_bounds i).2
    rw [codeSize_cons, List.length_cons]
    omega

/-- Loading a 32-bit immediate takes two bytes or more. -/
theorem leastSize_loadImm32 (dst : Reg) (imm : Int32) (signExtend : Bool) :
    (loadImm32 dst imm signExtend).leastSize = 2 := by
  unfold loadImm32
  split
  · rfl
  · split <;> rfl

/-- Combining a register and an immediate takes two bytes or more. -/
theorem leastSize_aluWithImm (op : AluOp) (size : OpSize) (dst : Reg) (imm : Int32) :
    (aluWithImm op size dst imm).leastSize = 2 := by
  unfold aluWithImm
  split
  · rfl
  · split <;> rfl

/-- A copy is at most one instruction. -/
theorem length_copy_le (dst src : Reg) : (copy dst src).length ≤ 1 := by
  unfold copy
  split
  · exact Nat.zero_le 1
  · exact Nat.le_refl 1

end X64

/-- The distance of the branch back to the attempt, in one byte. -/
def retryField (op : AluOp) (size : OpSize) (base src : VReg) (off : Int16) : SignedField :=
  .byte (Int8.ofInt (-(codeSize (Lowering.fetchAttempt op size base src off) + 2)))

/-- The code of a fetching operation. -/
def fetchCode (op : AluOp) (size : OpSize) (base src : VReg) (off : Int16) : List Instr :=
  [.mov .wide .r10 .rax,
    .load size.width .rax (Lowering.besideAccumulator base) (Lowering.displacement off),
    .mov size .r11 .rax,
    .alu op size .r11 (Lowering.besideAccumulator src),
    .locked .compareExchange size (Lowering.besideAccumulator base) .r11 (Lowering.displacement off),
    .jcc .notEqual (retryField op size base src off),
    .mov size (Lowering.besideAccumulator src) .rax,
    .mov .wide .rax .r10]

/-- An attempt is short enough for a branch back in one byte. -/
theorem fitsInt8_attempt (op : AluOp) (size : OpSize) (base src : VReg) (off : Int16) :
    fitsInt8 (-(codeSize (Lowering.fetchAttempt op size base src off) + 2)) = true := by
  have hsize := codeSize_le (Lowering.fetchAttempt op size base src off)
  have hlength : (Lowering.fetchAttempt op size base src off).length = 4 := rfl
  rw [fitsInt8_iff]
  omega

/-- Every fetching operation is lowered. -/
theorem fetch_eq (op : AluOp) (size : OpSize) (base src : VReg) (off : Int16) :
    Lowering.fetch op size base src off = .ok (fetchCode op size base src off) := by
  unfold Lowering.fetch
  rw [if_pos (fitsInt8_attempt op size base src off)]
  rfl

namespace Pass

variable {p : Pass} {depth : UInt32} {index : Nat}

/-- A fragment that is no branch is empty or has two bytes or more. -/
theorem codeSize_ne_one {epilogue : Option Nat} {operation : Operation} {f : Fragment}
    (hform : form? epilogue.isSome operation = none)
    (h : p.lower depth index epilogue operation = .ok f) : codeSize f.code ≠ 1 := by
  have hmem : ∀ i : Instr, i ∈ f.code → i.leastSize = 2 → codeSize f.code ≠ 1 := by
    intro i hi hl
    have htwo := two_le_codeSize hi hl
    omega
  cases operation with
  | jump off => cases hform
  | branch cond size dst src off => cases hform
  | alu op size dst src =>
    cases h
    cases src with
    | reg src => exact hmem _ (List.mem_singleton.mpr rfl) rfl
    | imm v => exact hmem _ (List.mem_singleton.mpr rfl) (leastSize_aluWithImm _ _ _ _)
  | shift op size dst src =>
    cases h
    cases src with
    | reg src =>
      refine hmem (.shiftCount op size (if dst = .r4 then VReg.aux.native else dst.native)) ?_ rfl
      simp [Lowering.shift, Lowering.shiftReg]
    | imm v =>
      refine hmem _ (List.mem_singleton.mpr rfl) ?_
      unfold shiftBy
      split <;> rfl
  | move size dst src =>
    cases h
    cases src with
    | reg src => exact hmem _ (List.mem_singleton.mpr rfl) rfl
    | imm v => exact hmem _ (List.mem_singleton.mpr rfl) (leastSize_loadImm32 _ _ _)
  | negate size dst =>
    cases h
    exact hmem _ (List.mem_singleton.mpr rfl) rfl
  | multiply size dst src =>
    cases h
    exact hmem (.mul size VReg.aux.native) (by simp [Lowering.multiply]) rfl
  | divide part size dst src =>
    cases h
    exact hmem (.div size VReg.aux.native) (by simp [Lowering.divide]) rfl
  | convert order width dst =>
    cases h
    cases order with
    | little =>
      cases width with
      | byte | double => exact (by decide : 0 ≠ 1)
      | half | word => exact hmem _ (List.mem_singleton.mpr rfl) rfl
    | big =>
      cases width with
      | byte => exact (by decide : 0 ≠ 1)
      | half => exact hmem (.rotateHalf dst.native) (List.mem_cons_self ..) rfl
      | word | double => exact hmem _ (List.mem_singleton.mpr rfl) rfl
  | loadWide dst value =>
    cases h
    refine hmem _ (List.mem_singleton.mpr rfl) ?_
    unfold loadImm64
    split
    · exact leastSize_loadImm32 _ _ _
    · rfl
  | load ext width dst base off | probe ext width dst base off =>
    cases h
    cases ext <;> exact hmem _ (List.mem_singleton.mpr rfl) rfl
  | storeImm width base off imm | store width base src off =>
    cases h
    exact hmem _ (List.mem_singleton.mpr rfl) rfl
  | atomic op size base src off =>
    cases h
    exact hmem _ (List.mem_cons_self ..) rfl
  | fetch op size base src off =>
    rw [lower, fetch_eq] at h
    cases h
    exact hmem (.mov .wide .r10 .rax) (List.mem_cons_self ..) rfl
  | exit =>
    cases epilogue with
    | some start => cases hform
    | none =>
      cases h
      show codeSize (p.frame.pops ++ [.leave, .ret]) ≠ 1
      have hleave : Instr.leave.size = 1 := rfl
      have hret : Instr.ret.size = 1 := rfl
      rw [codeSize_append, codeSize_cons, codeSize_cons, codeSize_nil]
      omega
  | call id subprogram =>
    obtain ⟨_, counter, rel, _, _, rfl⟩ := call_eq_ok.mp h
    exact hmem (.call rel) (by simp) rfl
  | tailCall id =>
    obtain ⟨_, code, hc, rfl⟩ | ⟨_, _, code, site, hc, rfl⟩ := tailCall_eq_ok h
    · obtain ⟨_, _, _, rfl, _⟩ := TailCall.indirect_eq_ok hc
      exact hmem (.mov .narrow .rdx .rdx) (List.mem_cons_self ..) rfl
    · obtain ⟨_, rfl, _⟩ := TailCall.direct_eq_ok hc
      exact hmem (.load .word .rax .rbp (.dword (Frame.counterOffset depth)))
        (List.mem_cons_self ..) rfl

/-- Taking a frame down takes at most eight bytes beside restoring the registers. -/
theorem codeSize_teardown_le_pops (f : Frame) (depth : UInt32) :
    codeSize (f.teardown depth) ≤ codeSize f.pops + 8 := by
  have harea : codeSize (if f.stackDepth = 0 then []
      else [Instr.aluImm .add .wide .rsp (.dword depth.toInt32)]) ≤ 7 := by
    split
    · exact Nat.zero_le 7
    · exact Nat.le_refl 7
  have hrax : (Instr.pop .rax).size = 1 := rfl
  unfold Frame.teardown
  rw [codeSize_append, codeSize_append, codeSize_cons, codeSize_nil]
  omega

/-- A tail call takes at most 56 bytes beside taking down the frame. -/
theorem codeSize_tailCall_le_teardown {id : Int32} {f : Fragment}
    (h : p.tailCall depth id = .ok f) : codeSize f.code ≤ codeSize (p.frame.teardown depth) + 56 := by
  obtain ⟨_, code, hc, rfl⟩ | ⟨_, _, code, site, hc, rfl⟩ := tailCall_eq_ok h
  · obtain ⟨outOfBounds, exhausted, empty, rfl, _⟩ := TailCall.indirect_eq_ok hc
    have hbounds : ∀ d, codeSize [.mov .narrow .rdx .rdx, .cmpMem .narrow .rsi .rdx d,
        .jcc .belowEqual (.byte outOfBounds)] ≤ 10 := by
      intro d
      cases d with
      | byte v => exact (by decide : 7 ≤ 10)
      | dword v => exact Nat.le_refl 10
    have hlookup : ∀ d, codeSize [.loadIndexed .rcx .rsi .rdx d, .test .wide .rcx .rcx,
        .jcc .equal (.byte empty)] = 13 := fun _ => rfl
    have hlanding : ∀ d, codeSize [.load .double .rcx .rcx d,
        .aluImm .add .wide .rcx (.byte (Int8.ofNat tailCallSkip))] ≤ 11 := by
      intro d
      cases d with
      | byte v => exact (by decide : 8 ≤ 11)
      | dword v => exact Nat.le_refl 11
    have hb := hbounds (.shortest p.abi.arrayCountOffset)
    have hl := hlanding (.shortest p.abi.programCodeOffset)
    have hjmp : codeSize [Instr.jmpReg .rcx] = 2 := rfl
    rw [codeSize_append, codeSize_append, codeSize_append, codeSize_append, codeSize_append,
      TailCall.codeSize_counting, hlookup, hjmp, TailCall.landing]
    omega
  · obtain ⟨_, rfl, _⟩ := TailCall.direct_eq_ok hc
    simp only [codeSize_append, codeSize_cons, codeSize_nil, TailCall.codeSize_counting,
      size_jmp_dword, size_nop]
    omega

/-- Handing over the counter is at most one instruction. -/
theorem length_passCounter_le {counter : List Instr} (h : p.passCounter depth = .ok counter) :
    counter.length ≤ 1 := by
  obtain ⟨_, off, _, rfl⟩ | ⟨_, rfl⟩ := passCounter_eq_ok h
  · exact Nat.le_refl 1
  · exact Nat.zero_le 1

/-- A branch has at least two bytes in its short form and at most seventeen in its long form. -/
theorem form?_bounds {known : Bool} {operation : Operation} {form : BranchForm}
    (h : form? known operation = some form) :
    2 ≤ form.narrow ∧ form.narrow < form.wide ∧ form.wide ≤ 17 := by
  have hbranch : ∀ i : Instr, 2 ≤ (BranchForm.ofBranch i).narrow ∧
      (BranchForm.ofBranch i).narrow < (BranchForm.ofBranch i).wide ∧
      (BranchForm.ofBranch i).wide ≤ 17 := by
    intro i
    have hsize := (size_bounds i).2
    simp only [BranchForm.ofBranch]
    omega
  cases operation with
  | jump off =>
    cases h
    exact (by decide)
  | branch cond size dst src off =>
    cases h
    exact hbranch _
  | exit =>
    cases known with
    | false => cases h
    | true =>
      cases h
      exact (by decide)
  | _ => cases h

end Pass

end NativeForge
