import NativeForge.Proofs.Decoder

/-!
# Encoded instructions are read back

Whatever follows the bytes of an encoded instruction, the processor reads that very instruction
from them and goes on behind it. The proof has one lemma per instruction form; prefixes, operand
bytes and fields are read back once for all forms.
-/

namespace NativeForge.X64

-- every lemma below opens the encoding of its instruction
attribute [local simp] Instr.encode

/-- A register is read from the code and the fourth bit of its number. -/
@[simp]
theorem Reg.ofBits_code (r : Reg) : Reg.ofBits r.extended r.code = r := by
  cases r <;> rfl

/-- The code of a register has three bits. -/
theorem Reg.code_lt (r : Reg) : r.code < 8 := by
  cases r <;> decide

/-- What the prefix of an instruction on two operands says. -/
def Rex.ofPair (size : OpSize) (rm reg : Reg) : Rex :=
  ⟨size.isWide || rm.extended || reg.extended, size.isWide, reg.extended, false, rm.extended⟩

/-- The operand size is read from the prefix. -/
@[simp]
theorem Rex.size_ofPair (size : OpSize) (rm reg : Reg) : (Rex.ofPair size rm reg).size = size := by
  cases size <;> rfl

/-- The 64-bit mark is read from the prefix. -/
@[simp]
theorem Rex.wide_ofPair (size : OpSize) (rm reg : Reg) :
    (Rex.ofPair size rm reg).wide = size.isWide := rfl

/-- The fourth bit of the reg field is read from the prefix. -/
@[simp]
theorem Rex.reg_ofPair (size : OpSize) (rm reg : Reg) :
    (Rex.ofPair size rm reg).reg = reg.extended := rfl

/-- The fourth bit of the r/m field is read from the prefix. -/
@[simp]
theorem Rex.base_ofPair (size : OpSize) (rm reg : Reg) :
    (Rex.ofPair size rm reg).base = rm.extended := rfl

/-- The prefix of an instruction on one operand is that on two, the second of which needs no
mark. -/
theorem basePrefix_eq (size : OpSize) (rm : Reg) : basePrefix size rm = pairPrefix size rm .rax := by
  unfold basePrefix pairPrefix markPair
  have h : Reg.rax.extended = false := rfl
  simp [h]

/-- The prefix is taken off before an opcode that is no prefix. -/
theorem readRex_pairPrefix (size : OpSize) (rm reg : Reg) {b : UInt8} (hb : b &&& 0xF0 ≠ 0x40)
    (rest : List UInt8) :
    readRex (pairPrefix size rm reg ++ b :: rest) = (.ofPair size rm reg, b :: rest) := by
  unfold pairPrefix markPair markBase Rex.ofPair
  cases size <;> cases rm.extended <;> cases reg.extended
  case narrow.false.false => exact if_neg hb
  all_goals rfl

/-- Behind the prefix of its operands an instruction is read by its opcode. -/
theorem decode_pairPrefix (size : OpSize) (rm reg : Reg) {b : UInt8} (hb : b &&& 0xF0 ≠ 0x40)
    (h66 : b ≠ 0x66) (hF0 : b ≠ 0xF0) (rest : List UInt8) :
    decode (pairPrefix size rm reg ++ b :: rest) =
      decodePlain (.ofPair size rm reg) (b :: rest) := by
  have hread := readRex_pairPrefix size rm reg hb rest
  have hplain : ∀ c tail, pairPrefix size rm reg ++ b :: rest = c :: tail → c ≠ 0x66 ∧ c ≠ 0xF0 := by
    intro c tail hc
    unfold pairPrefix markPair markBase at hc
    revert hc
    cases size <;> cases rm.extended <;> cases reg.extended <;>
      simp only [OpSize.isWide, Bool.or_self, Bool.or_true, Bool.true_or, Bool.false_eq_true, if_true,
        if_false, List.cons_append, List.nil_append, List.cons.injEq] <;>
      rintro ⟨rfl, _⟩ <;> first | exact ⟨h66, hF0⟩ | decide
  unfold decode
  split
  · rename_i tail heq
    exact absurd rfl (hplain _ _ heq).1
  · rename_i tail heq
    exact absurd rfl (hplain _ _ heq).2
  · rw [hread]

/-- A one-byte field is read back. -/
@[simp]
theorem readInt8_cons (v : Int8) (rest : List UInt8) :
    readInt8 (v.toUInt8 :: rest) = some (v, rest) := by
  simp [readInt8]

/-- A four-byte field is read back. -/
@[simp]
theorem readInt32_append (v : Int32) (rest : List UInt8) :
    readInt32 (Bytes.ofInt32 v ++ rest) = some (v, rest) := by
  have hvalue := Bytes.value_littleEndian 4 v.toUInt32.toNat
  have hlt := v.toUInt32.toNat_lt
  rw [Nat.mod_eq_of_lt (by omega)] at hvalue
  simp only [Bytes.ofInt32, Bytes.ofUInt32, Bytes.littleEndian, List.cons_append, List.nil_append,
    readInt32] at hvalue ⊢
  rw [hvalue]
  simp

/-- An eight-byte field is read back. -/
@[simp]
theorem readUInt64_append (v : UInt64) (rest : List UInt8) :
    readUInt64 (Bytes.ofUInt64 v ++ rest) = some (v, rest) := by
  have hvalue := Bytes.value_littleEndian 8 v.toNat
  have hlt := v.toNat_lt
  rw [Nat.mod_eq_of_lt (by omega)] at hvalue
  simp only [Bytes.ofUInt64, Bytes.littleEndian, List.cons_append, List.nil_append,
    readUInt64] at hvalue ⊢
  rw [hvalue]
  simp

/-- The field takes one byte. -/
def SignedField.isByte : SignedField → Bool
  | .byte _ => true
  | .dword _ => false

/-- A sign-extended field is read back. -/
@[simp]
theorem readField_append (f : SignedField) (rest : List UInt8) :
    readField f.isByte (f.bytes ++ rest) = some (f, rest) := by
  cases f with
  | byte v => simp [readField, SignedField.isByte, SignedField.bytes]
  | dword v => simp [readField, SignedField.isByte, SignedField.bytes]

/-- The parts of an operand byte do not overlap. -/
theorem operandByte_parts {field code : UInt8} (mode : Fin 4) (hf : field < 8) (hc : code < 8) :
    operandByte (UInt8.ofNat (64 * mode)) field code >>> 6 = UInt8.ofNat mode ∧
      (operandByte (UInt8.ofNat (64 * mode)) field code >>> 3) &&& 7 = field ∧
      operandByte (UInt8.ofNat (64 * mode)) field code &&& 7 = code := by
  have hall : ∀ (m : Fin 4) (f c : Fin 8),
      operandByte (UInt8.ofNat (64 * m)) (UInt8.ofNat f) (UInt8.ofNat c) >>> 6 = UInt8.ofNat m ∧
        (operandByte (UInt8.ofNat (64 * m)) (UInt8.ofNat f) (UInt8.ofNat c) >>> 3) &&& 7 =
          UInt8.ofNat f ∧
        operandByte (UInt8.ofNat (64 * m)) (UInt8.ofNat f) (UInt8.ofNat c) &&& 7 = UInt8.ofNat c := by
    decide +kernel
  have h := hall mode ⟨field.toNat, hf⟩ ⟨code.toNat, hc⟩
  simpa using h

/-- An operand byte of a register is read back. -/
theorem readPlace_register (e : Rex) (field : UInt8) (rm : Reg) (hf : field < 8)
    (hb : e.base = rm.extended) (rest : List UInt8) :
    readPlace e (registerField field rm :: rest) = some (field, .register rm, rest) := by
  obtain ⟨h1, h2, h3⟩ := operandByte_parts 3 hf rm.code_lt
  have hmode : operandByte 0xC0 field rm.code = operandByte (UInt8.ofNat (64 * (3 : Fin 4))) field
    rm.code := rfl
  rw [readPlace, registerField, hmode]
  dsimp only
  rw [h1, h2, h3, if_pos (by decide), hb, Reg.ofBits_code]

/-- The operand bytes of a cell are read back, unless its base needs the form with an index. -/
theorem readPlace_memory (e : Rex) (field : UInt8) (base : Reg) (disp : SignedField) (hf : field < 8)
    (hb : e.base = base.extended) (hc : base.code ≠ 4) (rest : List UInt8) :
    readPlace e (memoryField base field disp ++ rest) = some (field, .memory base disp, rest) := by
  have hfield := readField_append disp rest
  cases disp with
  | byte v =>
    obtain ⟨h1, h2, h3⟩ := operandByte_parts 1 hf base.code_lt
    have hmode : operandByte 0x40 field base.code =
      operandByte (UInt8.ofNat (64 * (1 : Fin 4))) field base.code := rfl
    rw [memoryField, List.cons_append, readPlace, hmode]
    dsimp only
    rw [h1, h2, h3, if_neg (by decide), if_neg hc, if_neg (by decide), hb, Reg.ofBits_code]
    simp only [SignedField.isByte] at hfield
    simp [hfield]
  | dword v =>
    obtain ⟨h1, h2, h3⟩ := operandByte_parts 2 hf base.code_lt
    have hmode : operandByte 0x80 field base.code =
      operandByte (UInt8.ofNat (64 * (2 : Fin 4))) field base.code := rfl
    rw [memoryField, List.cons_append, readPlace, hmode]
    dsimp only
    rw [h1, h2, h3, if_neg (by decide), if_neg hc, if_neg (by decide), hb, Reg.ofBits_code]
    simp only [SignedField.isByte] at hfield
    simp [hfield]

section Forms

variable (size : OpSize) (rm reg : Reg) (rest : List UInt8)

/-- A form on two registers is read back. -/
@[simp]
theorem pairForm_register (onRegister : Reg → Reg → Option Instr)
    (onMemory : Reg → SignedField → Reg → Option Instr) :
    pairForm (.ofPair size rm reg) (registerPair rm reg :: rest) onRegister onMemory =
      (onRegister rm reg).map (·, rest) := by
  have h := readPlace_register (.ofPair size rm reg) reg.code rm reg.code_lt rfl rest
  rw [registerField, ← registerPair] at h
  rw [pairForm, h]
  simp [Rex.ofPair]

/-- A form on a cell and a register is read back. -/
theorem pairForm_memory {e : Rex} {base : Reg} (hr : e.reg = reg.extended)
    (hb : e.base = base.extended) (hc : base.code ≠ 4) (disp : SignedField)
    (onRegister : Reg → Reg → Option Instr) (onMemory : Reg → SignedField → Reg → Option Instr) :
    pairForm e (memoryPair base reg disp ++ rest) onRegister onMemory =
      (onMemory base disp reg).map (·, rest) := by
  have h := readPlace_memory e reg.code base disp reg.code_lt hb hc rest
  rw [pairForm, memoryPair, h]
  simp [hr]

/-- A form on a cell and a register is read back behind the prefix of both. -/
theorem pairForm_ofPair {base : Reg} (hc : base.code ≠ 4) (disp : SignedField)
    (onRegister : Reg → Reg → Option Instr) (onMemory : Reg → SignedField → Reg → Option Instr) :
    pairForm (.ofPair size base reg) (memoryPair base reg disp ++ rest) onRegister onMemory =
      (onMemory base disp reg).map (·, rest) :=
  pairForm_memory reg rest rfl rfl hc disp onRegister onMemory

/-- A form on one register is read back. -/
theorem fieldForm_register {field : UInt8} (hf : field < 8)
    (form : UInt8 → Reg → List UInt8 → Option (Instr × List UInt8)) :
    fieldForm (.ofPair size rm .rax) (registerField field rm :: rest) form = form field rm rest := by
  rw [fieldForm, readPlace_register _ _ _ hf rfl]
  rfl

/-- A form with a four-byte field is read back. -/
@[simp]
theorem int32Form_append (v : Int32) (form : Int32 → Instr) :
    int32Form (Bytes.ofInt32 v ++ rest) form = some (form v, rest) := by
  simp [int32Form]

/-- An immediate form on a register is read back. -/
theorem immediateForm_register (field : UInt8) (hf : field < 8) (imm : SignedField) :
    immediateForm (.ofPair size rm .rax) imm.isByte (registerField field rm :: (imm.bytes ++ rest)) =
      if field = 7 then some (.cmpImm size rm imm, rest)
      else (aluOfField? field).map fun op => (.aluImm op size rm imm, rest) := by
  rw [immediateForm, readPlace_register _ _ _ hf rfl]
  simp

end Forms

/-- The instruction has an encoding of its own: no cell is addressed from a register that needs
the form with an index, the index is none that stands for no index, and an immediate is the one
that its bytes hold. -/
def Instr.HasOwnEncoding : Instr → Prop
  | .load _ _ base _ => base.code ≠ 4
  | .loadSigned width _ base _ => width ≠ .double ∧ base.code ≠ 4
  | .loadIndexed _ _ index _ => index ≠ .rsp
  | .store _ base _ _ => base.code ≠ 4
  | .storeImm width base _ imm => base.code ≠ 4 ∧ (width = .byte → imm.toInt8.toInt32 = imm) ∧
      (width = .half → imm.toInt16.toInt32 = imm)
  | .lea _ base _ => base.code ≠ 4
  | .locked _ _ base _ _ => base.code ≠ 4
  | .cmpMem _ base _ _ => base.code ≠ 4
  | .cmpMemImm _ base _ _ => base.code ≠ 4
  | _ => True

/-- The reg fields of the immediate forms are read back. -/
@[simp]
theorem aluOfField?_aluField (op : AluOp) : aluOfField? (aluField op) = some op := by
  cases op <;> rfl

/-- The reg fields of the shift forms are read back. -/
@[simp]
theorem shiftOfField?_shiftField (op : ShiftOp) : shiftOfField? (shiftField op) = some op := by
  cases op <;> rfl

/-- The byte is an opcode of its own: neither a prefix nor the first of two opcode bytes. -/
def IsOpcode (b : UInt8) : Prop := b &&& 0xF0 ≠ 0x40 ∧ b ≠ 0x66 ∧ b ≠ 0xF0 ∧ b ≠ 0x0F

instance (b : UInt8) : Decidable (IsOpcode b) := inferInstanceAs (Decidable (_ ∧ _))

/-- Behind the prefix of its operands an instruction is read by its one-byte opcode. -/
theorem decode_one (size : OpSize) (rm reg : Reg) {b : UInt8} (hb : IsOpcode b)
    (rest : List UInt8) :
    decode (pairPrefix size rm reg ++ b :: rest) = decodeOne (.ofPair size rm reg) b rest := by
  obtain ⟨h1, h2, h3, h4⟩ := hb
  rw [decode_pairPrefix _ _ _ h1 h2 h3]
  unfold decodePlain
  split
  · rename_i heq
    exact absurd (List.cons.inj heq).1 h4
  · rename_i heq
    obtain ⟨rfl, rfl⟩ := List.cons.inj heq
    rfl
  · rename_i heq
    cases heq

/-- Behind the prefix of its operands an instruction is read by its two-byte opcode. -/
theorem decode_two (size : OpSize) (rm reg : Reg) (b : UInt8) (rest : List UInt8) :
    decode (pairPrefix size rm reg ++ 0x0F :: b :: rest) =
      decodeTwo (.ofPair size rm reg) b rest := by
  rw [decode_pairPrefix _ _ _ (by decide) (by decide) (by decide), decodePlain]

/-- An opcode that carries a register is read by its range, and the register is read back. -/
theorem decode_registerOpcode (base : UInt8) (hbase : base ∈ [(0x50 : UInt8), 0x58, 0xB8])
    (size : OpSize) (r : Reg) (rest : List UInt8) :
    decode (basePrefix size r ++ (base + r.code) :: rest) =
        decodeByRange (.ofPair size r .rax) (base + r.code) rest ∧
      (base + r.code) &&& 0xF8 = base ∧ (base + r.code) &&& 7 = r.code := by
  have hfacts : ∀ b ∈ [(0x50 : UInt8), 0x58, 0xB8], ∀ c ∈ [(0 : UInt8), 1, 2, 3, 4, 5, 6, 7],
      IsOpcode (b + c) ∧ (b + c) &&& 0xF8 = b ∧ (b + c) &&& 7 = c := by
    decide +kernel
  have hcode : r.code ∈ [(0 : UInt8), 1, 2, 3, 4, 5, 6, 7] := by cases r <;> decide
  obtain ⟨h1, h2, h3⟩ := hfacts base hbase r.code hcode
  refine ⟨?_, h2, h3⟩
  rw [basePrefix_eq, decode_one _ _ _ h1]
  generalize Rex.ofPair size r .rax = e
  generalize r.code = c at hcode
  simp only [List.mem_cons, List.not_mem_nil, or_false] at hbase hcode
  rcases hbase with rfl | rfl | rfl <;>
    rcases hcode with rfl | rfl | rfl | rfl | rfl | rfl | rfl | rfl <;> rfl

/-- The opcodes of the immediate forms are opcodes of their own. -/
theorem isOpcode_immOpcode (imm : SignedField) : IsOpcode (immOpcode imm) := by
  cases imm with
  | byte => exact show IsOpcode 0x83 by decide
  | dword => exact show IsOpcode 0x81 by decide

/-- The opcode of comparisons with a register. -/
theorem decodeOne_compare (e : Rex) (tail : List UInt8) :
    decodeOne e 0x39 tail = pairForm e tail (fun rm reg => some (.cmp e.size rm reg))
      fun base disp reg => some (.cmpMem e.size base reg disp) :=
  rfl

/-- The opcode of copies of a register, to a register or to a cell. -/
theorem decodeOne_copy (e : Rex) (tail : List UInt8) :
    decodeOne e 0x89 tail = pairForm e tail (fun rm reg => some (.mov e.size rm reg))
      fun base disp reg => some (.store e.size.width base reg disp) :=
  rfl

/-- The opcode of extensions of 16 bits, from a register or from a cell. -/
theorem decodeTwo_extendHalf (e : Rex) (tail : List UInt8) :
    decodeTwo e 0xB7 tail = pairForm e tail
      (fun rm reg => if rm = reg ∧ e.wide = false then some (.zeroExtendHalf rm) else none)
      fun base disp reg => if e.wide then some (.load .half reg base disp) else none :=
  rfl

section Register

variable (size : OpSize) (dst src reg : Reg) (rest : List UInt8)

/-- A zero-extended immediate is read back. -/
theorem decode_movZero (imm : Int32) :
    decode ((Instr.movZero dst imm).encode ++ rest) = some (.movZero dst imm, rest) := by
  obtain ⟨hd, hmask, hcode⟩ := decode_registerOpcode 0xB8 (by decide) .narrow dst
    (Bytes.ofInt32 imm ++ rest)
  rw [Instr.encode, List.append_assoc, List.append_assoc, List.cons_append, List.nil_append, hd,
    decodeByRange, hmask, hcode]
  simp [Rex.ofPair, OpSize.isWide]

/-- A 64-bit immediate is read back. -/
theorem decode_movWide (imm : UInt64) :
    decode ((Instr.movWide dst imm).encode ++ rest) = some (.movWide dst imm, rest) := by
  obtain ⟨hd, hmask, hcode⟩ := decode_registerOpcode 0xB8 (by decide) .wide dst
    (Bytes.ofUInt64 imm ++ rest)
  rw [Instr.encode, List.append_assoc, List.append_assoc, List.cons_append, List.nil_append, hd,
    decodeByRange, hmask, hcode]
  simp [Rex.ofPair, OpSize.isWide]

/-- A sign-extended immediate is read back. -/
theorem decode_movSigned (imm : Int32) :
    decode ((Instr.movSigned dst imm).encode ++ rest) = some (.movSigned dst imm, rest) := by
  simp only [Instr.encode, basePrefix_eq, List.append_assoc, List.cons_append, List.nil_append]
  rw [decode_one _ _ _ (by decide)]
  change loadImmediateForm _ _ = _
  rw [loadImmediateForm, readPlace_register (.ofPair .wide dst .rax) 0 dst (by decide) rfl]
  simp [OpSize.isWide]

/-- A copy of a register is read back. -/
theorem decode_mov :
    decode ((Instr.mov size dst src).encode ++ rest) = some (.mov size dst src, rest) := by
  simp only [Instr.encode, List.append_assoc, List.cons_append, List.nil_append]
  rw [decode_one _ _ _ (by decide), decodeOne_copy, pairForm_register]
  simp

/-- The extension of the low 16 bits is read back. -/
theorem decode_zeroExtendHalf :
    decode ((Instr.zeroExtendHalf dst).encode ++ rest) = some (.zeroExtendHalf dst, rest) := by
  simp only [Instr.encode, List.append_assoc, List.cons_append, List.nil_append]
  rw [decode_two, decodeTwo_extendHalf, pairForm_register]
  simp [OpSize.isWide]

/-- The rotation of the low 16 bits is read back. -/
theorem decode_rotateHalf :
    decode ((Instr.rotateHalf dst).encode ++ rest) = some (.rotateHalf dst, rest) := by
  simp only [Instr.encode, basePrefix_eq, List.append_assoc, List.cons_append, List.nil_append]
  rw [decode, readRex_pairPrefix _ _ _ (by decide)]
  simp [decodeHalf, fieldForm_register, OpSize.isWide]

/-- The reversal of bytes is read back. -/
theorem decode_swapBytes :
    decode ((Instr.swapBytes size dst).encode ++ rest) = some (.swapBytes size dst, rest) := by
  simp only [Instr.encode, basePrefix_eq, List.append_assoc, List.cons_append, List.nil_append]
  have hcode : (0xC8 + dst.code) &&& 7 = dst.code := by cases dst <;> rfl
  have htwo : ∀ e : Rex, decodeTwo e (0xC8 + dst.code) rest =
      some (.swapBytes e.size (.ofBits e.base ((0xC8 + dst.code) &&& 7)), rest) := by
    intro e
    cases dst <;> rfl
  rw [decode_two, htwo, hcode, Rex.size_ofPair]
  simp [Rex.ofPair]

/-- Arithmetic on two registers is read back. -/
theorem decode_alu (op : AluOp) :
    decode ((Instr.alu op size dst src).encode ++ rest) = some (.alu op size dst src, rest) := by
  have hop : ∀ e tail, decodeOne e (aluOpcode op) tail =
      pairForm e tail (fun rm reg => some (.alu op e.size rm reg)) fun _ _ _ => none := by
    intro e tail
    cases op <;> rfl
  simp only [Instr.encode, List.append_assoc, List.cons_append, List.nil_append]
  rw [decode_one _ _ _ (by cases op <;> decide), hop, pairForm_register]
  simp

/-- Arithmetic with an immediate is read back. -/
theorem decode_aluImm (op : AluOp) (imm : SignedField) :
    decode ((Instr.aluImm op size dst imm).encode ++ rest) =
      some (.aluImm op size dst imm, rest) := by
  simp only [Instr.encode, basePrefix_eq, List.append_assoc, List.cons_append, List.nil_append]
  rw [decode_one _ _ _ (isOpcode_immOpcode imm)]
  have hform := immediateForm_register size dst rest (aluField op)
    (by cases op <;> decide) imm
  rw [if_neg (by cases op <;> decide), aluOfField?_aluField] at hform
  cases imm <;> exact hform

/-- Arithmetic on the accumulator is read back. -/
theorem decode_aluAccumulator (op : AluOp) (imm : Int32) :
    decode ((Instr.aluAccumulator op size imm).encode ++ rest) =
      some (.aluAccumulator op size imm, rest) := by
  simp only [Instr.encode, basePrefix_eq, List.append_assoc, List.cons_append, List.nil_append]
  have hop : ∀ e tail, decodeOne e (aluAccumulatorOpcode op) tail =
      int32Form tail (.aluAccumulator op e.size) := by
    intro e tail
    cases op <;> rfl
  rw [decode_one _ _ _ (by cases op <;> decide), hop, int32Form_append, Rex.size_ofPair]

/-- A comparison of two registers is read back. -/
theorem decode_cmp :
    decode ((Instr.cmp size dst src).encode ++ rest) = some (.cmp size dst src, rest) := by
  simp only [Instr.encode, List.append_assoc, List.cons_append, List.nil_append]
  rw [decode_one _ _ _ (by decide), decodeOne_compare, pairForm_register]
  simp

/-- A comparison with an immediate is read back. -/
theorem decode_cmpImm (imm : SignedField) :
    decode ((Instr.cmpImm size dst imm).encode ++ rest) = some (.cmpImm size dst imm, rest) := by
  simp only [Instr.encode, basePrefix_eq, List.append_assoc, List.cons_append, List.nil_append]
  rw [decode_one _ _ _ (isOpcode_immOpcode imm)]
  have hform := immediateForm_register size dst rest 7 (by decide) imm
  rw [if_pos rfl] at hform
  cases imm <;> exact hform

/-- A test of two registers is read back. -/
theorem decode_test :
    decode ((Instr.test size dst src).encode ++ rest) = some (.test size dst src, rest) := by
  have hop : ∀ e tail, decodeOne e 0x85 tail =
      pairForm e tail (fun rm reg => some (.test e.size rm reg)) fun _ _ _ => none :=
    fun _ _ => rfl
  simp only [Instr.encode, List.append_assoc, List.cons_append, List.nil_append]
  rw [decode_one _ _ _ (by decide), hop, pairForm_register]
  simp

/-- The group of negation: a field and the instruction that it selects. -/
theorem decode_unary {field : UInt8} {tail : List UInt8} (hf : field < 8) :
    decode (basePrefix size dst ++ 0xF7 :: registerField field dst :: tail) =
      if field = 0 then int32Form tail (.testImm size dst)
      else if field = 3 then some (.neg size dst, tail)
      else if field = 4 then some (.mul size dst, tail)
      else if field = 6 then some (.div size dst, tail)
      else none := by
  rw [basePrefix_eq, decode_one _ _ _ (by decide)]
  change unaryForm _ _ = _
  rw [unaryForm, fieldForm_register _ _ _ hf, Rex.size_ofPair]

/-- The shifts: a field and the form that an opcode selects. -/
theorem decode_shift (op : ShiftOp) {b : UInt8} (tail : List UInt8)
    (hb : b = 0xC1 ∨ b = 0xD1 ∨ b = 0xD3) :
    decode (basePrefix size dst ++ b :: registerField (shiftField op) dst :: tail) =
      if b = 0xD1 then some (.shiftOne op size dst, tail)
      else if b = 0xD3 then some (.shiftCount op size dst, tail)
      else match tail with
        | count :: tail => some (.shiftImm op size dst count, tail)
        | [] => none := by
  have hf : shiftField op < 8 := by cases op <;> decide
  rw [basePrefix_eq, decode_one _ _ _ (by rcases hb with rfl | rfl | rfl <;> decide)]
  have hform := fun form => fieldForm_register size dst tail hf form
  rcases hb with rfl | rfl | rfl
  · refine (hform fun field rm rest => do
      let op ← shiftOfField? field
      match rest with
      | count :: rest => return (.shiftImm op (Rex.ofPair size dst .rax).size rm count, rest)
      | [] => none).trans ?_
    cases tail <;> simp
  · refine (hform fun field rm rest => (shiftOfField? field).map fun op =>
      (.shiftOne op (Rex.ofPair size dst .rax).size rm, rest)).trans ?_
    simp
  · refine (hform fun field rm rest => (shiftOfField? field).map fun op =>
      (.shiftCount op (Rex.ofPair size dst .rax).size rm, rest)).trans ?_
    simp

end Register

/-- An instruction whose first byte is no operand-size or lock prefix is read as a plain one. -/
theorem decode_of_head {b : UInt8} (h66 : b ≠ 0x66) (hF0 : b ≠ 0xF0) (rest : List UInt8) :
    decode (b :: rest) = decodePlain (readRex (b :: rest)).1 (readRex (b :: rest)).2 := by
  unfold decode
  split
  · rename_i heq
    exact absurd (List.cons.inj heq).1 h66
  · rename_i heq
    exact absurd (List.cons.inj heq).1 hF0
  · rfl

section Memory

variable (size : OpSize) {base : Reg} (dst src index : Reg) (disp : SignedField)
  (rest : List UInt8)

/-- A zero-extending load is read back. -/
theorem decode_load (hc : base.code ≠ 4) (width : Width) :
    decode ((Instr.load width dst base disp).encode ++ rest) =
      some (.load width dst base disp, rest) := by
  have hplace : ∀ size, readPlace (.ofPair size base dst) (memoryPair base dst disp ++ rest) =
      some (dst.code, .memory base disp, rest) := fun size =>
    readPlace_memory (.ofPair size base dst) dst.code base disp dst.code_lt rfl hc rest
  simp only [Instr.encode, loadOpcode]
  have hbyte : ∀ e tail, decodeTwo e 0xB6 tail = pairForm e tail (fun _ _ => none)
      fun base disp reg => if e.wide then some (.load .byte reg base disp) else none :=
    fun _ _ => rfl
  cases width <;>
    simp only [List.append_assoc, List.cons_append, List.nil_append] <;>
    first | rw [decode_two] | rw [decode_one _ _ _ (by decide)]
  · rw [hbyte, pairForm_ofPair _ _ _ hc]
    simp [OpSize.isWide]
  · rw [decodeTwo_extendHalf, pairForm_ofPair _ _ _ hc]
    simp [OpSize.isWide]
  · change loadForm _ _ = _
    rw [loadForm, hplace]
    simp [OpSize.width]
  · change loadForm _ _ = _
    rw [loadForm, hplace]
    simp [OpSize.width]

/-- A sign-extending load is read back. -/
theorem decode_loadSigned (hc : base.code ≠ 4) {width : Width} (hw : width ≠ .double) :
    decode ((Instr.loadSigned width dst base disp).encode ++ rest) =
      some (.loadSigned width dst base disp, rest) := by
  -- the forms of the three opcodes differ in the width only
  have hform : ∀ width, pairForm (.ofPair .wide base dst) (memoryPair base dst disp ++ rest)
      (fun _ _ => none) (fun base disp reg => if (Rex.ofPair .wide base dst).wide then
        some (.loadSigned width reg base disp) else none) =
        some (.loadSigned width dst base disp, rest) := by
    intro width
    rw [pairForm_ofPair _ _ _ hc]
    simp [OpSize.isWide]
  simp only [Instr.encode, loadSignedOpcode]
  cases width <;> simp only [List.append_assoc, List.cons_append, List.nil_append]
  · rw [decode_two]
    exact hform .byte
  · rw [decode_two]
    exact hform .half
  · rw [decode_one _ _ _ (by decide)]
    exact hform .word
  · exact absurd rfl hw

/-- A store of a register is read back. -/
theorem decode_store (hc : base.code ≠ 4) (width : Width) :
    decode ((Instr.store width base src disp).encode ++ rest) =
      some (.store width base src disp, rest) := by
  simp only [Instr.encode, storeOpcode]
  cases width <;> simp only [List.append_assoc, List.cons_append, List.nil_append]
  · by_cases hp : (base.extended || src.needsBytePrefix) = true
    · have hread : readRex (markPair 0x40 base src :: 0x88 :: (memoryPair base src disp ++ rest)) =
          (⟨true, false, src.extended, false, base.extended⟩,
            0x88 :: (memoryPair base src disp ++ rest)) := by
        unfold markPair markBase
        cases base.extended <;> cases src.extended <;> rfl
      have hmark : markPair 0x40 base src ≠ 0x66 ∧ markPair 0x40 base src ≠ 0xF0 := by
        unfold markPair markBase
        cases base.extended <;> cases src.extended <;> decide
      rw [if_pos hp, List.cons_append, List.nil_append, decode_of_head hmark.1 hmark.2, hread]
      change storeByteForm _ _ = _
      rw [storeByteForm, pairForm_memory src rest rfl rfl hc]
      simp
    · have hsrc : src.number < 4 := by
        revert hp
        cases src <;> simp [Reg.needsBytePrefix, Reg.extended, Reg.number]
      have hpair : pairPrefix .narrow base src = [] := by
        rw [Bool.or_eq_true, not_or] at hp
        have hext : src.extended = false := by
          cases src <;> simp_all [Reg.number, Reg.extended]
        simp [pairPrefix, OpSize.isWide, hext, hp.1]
      have hone := decode_one .narrow base src (show IsOpcode 0x88 by decide)
        (memoryPair base src disp ++ rest)
      rw [hpair] at hone
      rw [if_neg hp, List.nil_append, ← List.nil_append (0x88 :: _), hone]
      change storeByteForm _ _ = _
      rw [storeByteForm, pairForm_ofPair _ _ _ hc]
      simp [hsrc]
  · have hop : ∀ e tail, decodeHalf e (0x89 :: tail) = pairForm e tail (fun _ _ => none)
        fun base disp reg => if e.wide then none else some (.store .half base reg disp) :=
      fun _ _ => rfl
    rw [decode, readRex_pairPrefix _ _ _ (by decide), hop, pairForm_ofPair _ _ _ hc]
    simp [OpSize.isWide]
  · rw [decode_one _ _ _ (by decide), decodeOne_copy, pairForm_ofPair _ _ _ hc]
    simp [OpSize.width]
  · rw [decode_one _ _ _ (by decide), decodeOne_copy, pairForm_ofPair _ _ _ hc]
    simp [OpSize.width]

/-- The address of a cell is read back. -/
theorem decode_lea (hc : base.code ≠ 4) :
    decode ((Instr.lea dst base disp).encode ++ rest) = some (.lea dst base disp, rest) := by
  have hop : ∀ e tail, decodeOne e 0x8D tail = pairForm e tail (fun _ _ => none)
      fun base disp reg => if e.wide then some (.lea reg base disp) else none :=
    fun _ _ => rfl
  simp only [Instr.encode, List.append_assoc, List.cons_append, List.nil_append]
  rw [decode_one _ _ _ (by decide), hop, pairForm_ofPair _ _ _ hc]
  simp [OpSize.isWide]

/-- An atomic operation is read back. -/
theorem decode_locked (hc : base.code ≠ 4) (op : LockedOp) :
    decode ((Instr.locked op size base src disp).encode ++ rest) =
      some (.locked op size base src disp, rest) := by
  have hform : ∀ op, decodeLocked.form (.ofPair size base src) op
      (memoryPair base src disp ++ rest) = some (.locked op size base src disp, rest) := by
    intro op
    simp [decodeLocked.form, pairForm_ofPair _ _ _ hc]
  simp only [Instr.encode, lockedOpcode]
  cases op with
  | alu op =>
    simp only [List.append_assoc, List.cons_append, List.nil_append]
    rw [decode, readRex_pairPrefix _ _ _ (by cases op <;> decide)]
    cases op <;> exact hform _
  | fetchAdd =>
    simp only [List.append_assoc, List.cons_append, List.nil_append]
    rw [decode, readRex_pairPrefix _ _ _ (by decide)]
    exact hform _
  | exchange =>
    simp only [List.append_assoc, List.cons_append, List.nil_append]
    rw [decode, readRex_pairPrefix _ _ _ (by decide)]
    exact hform _
  | compareExchange =>
    simp only [List.append_assoc, List.cons_append, List.nil_append]
    rw [decode, readRex_pairPrefix _ _ _ (by decide)]
    exact hform _

/-- A comparison of a cell and a register is read back. -/
theorem decode_cmpMem (hc : base.code ≠ 4) :
    decode ((Instr.cmpMem size base src disp).encode ++ rest) =
      some (.cmpMem size base src disp, rest) := by
  simp only [Instr.encode, List.append_assoc, List.cons_append, List.nil_append]
  rw [decode_one _ _ _ (by decide), decodeOne_compare, pairForm_ofPair _ _ _ hc]
  simp

/-- A comparison of a cell and an immediate is read back. -/
theorem decode_cmpMemImm (hc : base.code ≠ 4) (imm : Int8) :
    decode ((Instr.cmpMemImm size base disp imm).encode ++ rest) =
      some (.cmpMemImm size base disp imm, rest) := by
  simp only [Instr.encode, basePrefix_eq, List.append_assoc, List.cons_append, List.nil_append]
  rw [decode_one _ _ _ (by decide)]
  have hplace := readPlace_memory (.ofPair size base .rax) 7 base disp (by decide) rfl hc
    (imm.toUInt8 :: rest)
  change immediateForm _ true _ = _
  rw [immediateForm, hplace]
  simp [readField]

/-- A load by a scaled index is read back. -/
theorem decode_loadIndexed (base : Reg) {index : Reg} (hi : index ≠ .rsp) (disp : Int32) :
    decode ((Instr.loadIndexed dst base index disp).encode ++ rest) =
      some (.loadIndexed dst base index disp, rest) := by
  have hread : ∀ tail,
      readRex ((markPair 0x48 base dst ||| (if index.extended then 2 else 0)) :: tail) =
      (⟨true, true, dst.extended, index.extended, base.extended⟩, tail) := by
    intro tail
    unfold markPair markBase
    cases base.extended <;> cases dst.extended <;> cases index.extended <;> rfl
  have hmark : (markPair 0x48 base dst ||| (if index.extended then 2 else 0)) ≠ 0x66 ∧
      (markPair 0x48 base dst ||| (if index.extended then 2 else 0)) ≠ 0xF0 := by
    unfold markPair markBase
    cases base.extended <;> cases dst.extended <;> cases index.extended <;> decide
  obtain ⟨hm, hf, hrm⟩ := operandByte_parts 2 dst.code_lt (show (4 : UInt8) < 8 by decide)
  obtain ⟨hscale, hindex, hbase⟩ := operandByte_parts 3 index.code_lt base.code_lt
  have hplace : readPlace ⟨true, true, dst.extended, index.extended, base.extended⟩
      (operandByte 0x80 dst.code 4 :: operandByte 0xC0 index.code base.code ::
        (Bytes.ofInt32 disp ++ rest)) =
        some (dst.code, .indexed base index 3 (.dword disp), rest) := by
    rw [show (0x80 : UInt8) = UInt8.ofNat (64 * (2 : Fin 4)) from rfl,
      show (0xC0 : UInt8) = UInt8.ofNat (64 * (3 : Fin 4)) from rfl, readPlace]
    dsimp only
    rw [hm, hf, hrm, if_neg (by decide), if_pos rfl, readIndexed]
    dsimp only
    rw [hindex, hbase, hscale, Reg.ofBits_code, Reg.ofBits_code]
    have hfield : readField (decide (UInt8.ofNat (2 : Fin 4) = 1)) (Bytes.ofInt32 disp ++ rest) =
        some (.dword disp, rest) := readField_append (.dword disp) rest
    rw [if_neg (by decide), hfield]
    exact if_neg hi
  simp only [Instr.encode, List.cons_append, List.nil_append]
  rw [decode_of_head hmark.1 hmark.2, hread]
  change loadForm _ _ = _
  rw [loadForm, hplace]
  simp

/-- A store of an immediate is read back if the immediate is the one that its bytes hold. -/
theorem decode_storeImm (hc : base.code ≠ 4) {width : Width} {imm : Int32}
    (hbyte : width = .byte → imm.toInt8.toInt32 = imm)
    (hhalf : width = .half → imm.toInt16.toInt32 = imm) :
    decode ((Instr.storeImm width base disp imm).encode ++ rest) =
      some (.storeImm width base disp imm, rest) := by
  have hplace : ∀ size tail, readPlace (.ofPair size base .rax) (memoryField base 0 disp ++ tail) =
      some (0, .memory base disp, tail) := fun size tail =>
    readPlace_memory (.ofPair size base .rax) 0 base disp (by decide) rfl hc tail
  have htake : ∀ n, 4 ≤ n → (Bytes.ofInt32 imm).take n = Bytes.ofInt32 imm := fun n hn =>
    List.take_of_length_le (by simpa [Bytes.ofInt32, Bytes.ofUInt32] using hn)
  simp only [Instr.encode, storeImmOpcode, basePrefix_eq]
  cases width with
  | byte =>
    have hfirst : imm.toUInt32.toUInt8.toInt8 = imm.toInt8 := by
      apply Int8.toBitVec_inj.mp
      simp [BitVec.signExtend_eq_setWidth_of_le]
    simp only [List.append_assoc, List.cons_append, List.nil_append]
    rw [decode_one _ _ _ (by decide)]
    change storeByteImmediateForm _ _ = _
    rw [storeByteImmediateForm, hplace]
    simp [Width.bytes, Bytes.ofInt32, Bytes.ofUInt32, Bytes.littleEndian, readInt8, hfirst,
      hbyte rfl]
  | half =>
    have hfirst : imm.toUInt32.toUInt16.toInt16 = imm.toInt16 := by
      apply Int16.toBitVec_inj.mp
      simp [BitVec.signExtend_eq_setWidth_of_le]
    have hvalue := Bytes.value_littleEndian 2 imm.toUInt32.toNat
    have hread : readInt16 ((Bytes.ofInt32 imm).take 2 ++ rest) = some (imm.toInt16, rest) := by
      simp only [Bytes.ofInt32, Bytes.ofUInt32, Bytes.littleEndian, List.take_succ_cons,
        List.take_zero, List.cons_append, List.nil_append, readInt16] at hvalue ⊢
      rw [hvalue, ← hfirst]
      congr 3
      apply UInt16.toNat_inj.mp
      simp
    simp only [List.append_assoc, List.cons_append, List.nil_append]
    rw [decode, readRex_pairPrefix _ _ _ (by decide)]
    simp [decodeHalf, hplace, Width.bytes, hread, OpSize.isWide, hhalf rfl]
  | word =>
    simp only [List.append_assoc, List.cons_append, List.nil_append]
    rw [decode_one _ _ _ (by decide)]
    change loadImmediateForm _ _ = _
    rw [loadImmediateForm, hplace, htake _ (by decide)]
    simp [OpSize.width]
  | double =>
    simp only [List.append_assoc, List.cons_append, List.nil_append]
    rw [decode_one _ _ _ (by decide)]
    change loadImmediateForm _ _ = _
    rw [loadImmediateForm, hplace, htake _ (by decide)]
    simp [OpSize.width]

end Memory

section Control

variable (rest : List UInt8)

/-- An instruction without prefixes is read by its one-byte opcode. -/
theorem decode_bare {b : UInt8} (hb : IsOpcode b) :
    decode (b :: rest) = decodeOne (.ofPair .narrow .rax .rax) b rest :=
  decode_one .narrow .rax .rax hb rest

/-- A jump is read back. -/
theorem decode_jmp (rel : SignedField) :
    decode ((Instr.jmp rel).encode ++ rest) = some (.jmp rel, rest) := by
  cases rel with
  | byte rel =>
    have hop : ∀ e tail, decodeOne e 0xEB tail =
        (readInt8 tail).map fun p => (.jmp (.byte p.1), p.2) := fun _ _ => rfl
    simp only [Instr.encode, List.cons_append, List.nil_append]
    rw [decode_bare _ (by decide), hop, readInt8_cons]
    rfl
  | dword rel =>
    simp only [Instr.encode, List.cons_append]
    rw [decode_bare _ (by decide)]
    exact int32Form_append rest rel fun rel => .jmp (.dword rel)

/-- A conditional jump is read back. -/
theorem decode_jcc (cond : Cond) (rel : SignedField) :
    decode ((Instr.jcc cond rel).encode ++ rest) = some (.jcc cond rel, rest) := by
  have hcode : condOfCode? cond.code = some cond := by cases cond <;> rfl
  cases rel with
  | byte rel =>
    have hrange : ∀ e tail, decodeOne e cond.shortOpcode tail = (condOfCode? cond.code).bind fun cond =>
        (readInt8 tail).bind fun p => some (.jcc cond (.byte p.1), p.2) := by
      intro e tail
      cases cond <;> rfl
    simp only [Instr.encode, List.cons_append, List.nil_append]
    rw [decode_bare _ (by cases cond <;> decide), hrange, hcode]
    simp
  | dword rel =>
    have hrange : ∀ e tail, decodeTwo e cond.nearOpcode tail = (condOfCode? cond.code).bind fun cond =>
        int32Form tail fun rel => .jcc cond (.dword rel) := by
      intro e tail
      cases cond <;> rfl
    simp only [Instr.encode, List.cons_append]
    rw [show decode (0x0F :: cond.nearOpcode :: (Bytes.ofInt32 rel ++ rest)) = _ from
      decode_two .narrow .rax .rax _ _, hrange, hcode]
    simp

/-- A call is read back. -/
theorem decode_call (rel : Int32) :
    decode ((Instr.call rel).encode ++ rest) = some (.call rel, rest) := by
  simp only [Instr.encode, List.cons_append]
  rw [decode_bare _ (by decide)]
  exact int32Form_append rest rel .call

/-- A push is read back. -/
theorem decode_push (reg : Reg) :
    decode ((Instr.push reg).encode ++ rest) = some (.push reg, rest) := by
  obtain ⟨hd, hmask, hcode⟩ := decode_registerOpcode 0x50 (by decide) .narrow reg rest
  rw [Instr.encode, List.append_assoc, List.cons_append, List.nil_append, hd, decodeByRange, hmask,
    hcode]
  simp

/-- A pop is read back. -/
theorem decode_pop (reg : Reg) :
    decode ((Instr.pop reg).encode ++ rest) = some (.pop reg, rest) := by
  obtain ⟨hd, hmask, hcode⟩ := decode_registerOpcode 0x58 (by decide) .narrow reg rest
  rw [Instr.encode, List.append_assoc, List.cons_append, List.nil_append, hd, decodeByRange, hmask,
    hcode]
  simp

/-- A jump through a register is read back. -/
theorem decode_jmpReg (reg : Reg) :
    decode ((Instr.jmpReg reg).encode ++ rest) = some (.jmpReg reg, rest) := by
  simp only [Instr.encode, basePrefix_eq, List.append_assoc, List.cons_append, List.nil_append]
  rw [decode_one _ _ _ (by decide)]
  exact fieldForm_register .narrow reg rest (by decide) fun field rm rest =>
    if field = 4 then some (.jmpReg rm, rest) else none

/-- Instructions that do nothing are read back with their length. -/
theorem decode_nop (extra : Fin 8) :
    decode ((Instr.nop extra).encode ++ rest) = some (.nop extra, rest) := by
  match extra with
  | 0 => rfl
  | 1 => rfl
  | 2 => rfl
  | 3 => rfl
  | 4 => rfl
  | 5 => rfl
  | 6 => rfl
  | 7 => rfl

end Control

/-- The processor reads from an encoded instruction that instruction and leaves what is behind. -/
theorem decode_encode {i : Instr} (h : i.HasOwnEncoding) (rest : List UInt8) :
    decode (i.encode ++ rest) = some (i, rest) := by
  cases i with
  | movSigned dst imm => exact decode_movSigned dst rest imm
  | movZero dst imm => exact decode_movZero dst rest imm
  | movWide dst imm => exact decode_movWide dst rest imm
  | mov size dst src => exact decode_mov size dst src rest
  | zeroExtendHalf dst => exact decode_zeroExtendHalf dst rest
  | rotateHalf dst => exact decode_rotateHalf dst rest
  | swapBytes size dst => exact decode_swapBytes size dst rest
  | load width dst base disp => exact decode_load dst disp rest h width
  | loadSigned width dst base disp => exact decode_loadSigned dst disp rest h.2 h.1
  | loadIndexed dst base index disp => exact decode_loadIndexed dst rest base h disp
  | store width base src disp => exact decode_store src disp rest h width
  | storeImm width base disp imm => exact decode_storeImm disp rest h.1 h.2.1 h.2.2
  | lea dst base disp => exact decode_lea dst disp rest h
  | locked op size base src disp => exact decode_locked size src disp rest h op
  | alu op size dst src => exact decode_alu size dst src rest op
  | aluImm op size dst imm => exact decode_aluImm size dst rest op imm
  | aluAccumulator op size imm => exact decode_aluAccumulator size rest op imm
  | neg size dst =>
    simp only [Instr.encode, List.append_assoc, List.cons_append, List.nil_append]
    exact decode_unary size dst (by decide)
  | shiftOne op size dst =>
    simp only [Instr.encode, List.append_assoc, List.cons_append, List.nil_append]
    exact decode_shift size dst op rest (.inr (.inl rfl))
  | shiftImm op size dst count =>
    simp only [Instr.encode, List.append_assoc, List.cons_append, List.nil_append]
    exact decode_shift size dst op (count :: rest) (.inl rfl)
  | shiftCount op size dst =>
    simp only [Instr.encode, List.append_assoc, List.cons_append, List.nil_append]
    exact decode_shift size dst op rest (.inr (.inr rfl))
  | mul size src =>
    simp only [Instr.encode, List.append_assoc, List.cons_append, List.nil_append]
    exact decode_unary size src (by decide)
  | div size src =>
    simp only [Instr.encode, List.append_assoc, List.cons_append, List.nil_append]
    exact decode_unary size src (by decide)
  | cmp size dst src => exact decode_cmp size dst src rest
  | cmpImm size dst imm => exact decode_cmpImm size dst rest imm
  | cmpMem size base src disp => exact decode_cmpMem size src disp rest h
  | cmpMemImm size base disp imm => exact decode_cmpMemImm size disp rest h imm
  | test size dst src => exact decode_test size dst src rest
  | testImm size dst imm =>
    simp only [Instr.encode, List.append_assoc, List.cons_append, List.nil_append]
    rw [decode_unary size dst (by decide), if_pos rfl, int32Form_append]
  | push reg => exact decode_push rest reg
  | pop reg => exact decode_pop rest reg
  | leave => rfl
  | ret => rfl
  | jmp rel => exact decode_jmp rest rel
  | jcc cond rel => exact decode_jcc rest cond rel
  | call rel => exact decode_call rest rel
  | jmpReg reg => exact decode_jmpReg rest reg
  | nop extra => exact decode_nop rest extra

end NativeForge.X64
