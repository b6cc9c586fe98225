import Mathlib.Data.List.Forall2
import NativeForge.Proofs.BranchForms
import NativeForge.Proofs.LoweredArithmetic

/-!
# Assembled code reads back

The bytes that a sequence of requests leaves in a code buffer are read by the decoder from the
first byte on. It finds the instructions of the first request, then those of the second, and so
on to the last byte, and between two requests it stands on the first byte of the later one.
`Directive.Intends` says what the instructions of a request are without the choices that the
assembler makes: a number may stand in a field of either length, an immediate may be combined
with the accumulator in its own form, and a loaded immediate is known by its effect.
-/

namespace NativeForge.X64

open Virtual

/-- Read a number of instructions and give the bytes behind them. -/
def readInstrs : Nat → List UInt8 → Option (List Instr × List UInt8)
  | 0, bytes => some ([], bytes)
  | count + 1, bytes => do
    let (i, bytes) ← decode bytes
    let (code, bytes) ← readInstrs count bytes
    return (i :: code, bytes)

/-- Encoded instructions are read back, and the reader stops right behind them. -/
theorem readInstrs_encodeAll {code : List Instr} (h : Encodable code) (rest : List UInt8) :
    readInstrs code.length (encodeAll code ++ rest) = some (code, rest) := by
  induction code with
  | nil => rfl
  | cons i code ih =>
    obtain ⟨hi, hcode⟩ := encodable_cons.mp h
    have hfirst : decode (i.encode ++ (encodeAll code ++ rest)) =
        some (i, encodeAll code ++ rest) := decode_encode hi _
    rw [encodeAll_cons, List.append_assoc, List.length_cons, readInstrs, hfirst]
    simp [ih hcode]

/-- The bytes that requests leave in an empty code buffer. -/
def assembled (calls : List Directive) : List UInt8 :=
  (calls.foldl CodeBuffer.assemble {}).bytes.toList

/-- A request appends the bytes of its instructions. -/
theorem toList_assemble (buf : CodeBuffer) (d : Directive) :
    (buf.assemble d).bytes.toList = buf.bytes.toList ++ encodeAll d.instrs := by
  simp [CodeBuffer.assemble, CodeBuffer.emit]

/-- Requests append the bytes of their instructions in order. -/
theorem toList_foldl_assemble (buf : CodeBuffer) (calls : List Directive) :
    (calls.foldl CodeBuffer.assemble buf).bytes.toList =
      buf.bytes.toList ++ encodeAll (calls.flatMap Directive.instrs) := by
  induction calls generalizing buf with
  | nil => simp
  | cons d calls ih =>
    rw [List.foldl_cons, ih, toList_assemble, List.flatMap_cons, encodeAll_append,
      List.append_assoc]

/-- A code buffer holds the bytes of the instructions of its requests. -/
theorem assembled_eq (calls : List Directive) :
    assembled calls = encodeAll (calls.flatMap Directive.instrs) := by
  rw [assembled, toList_foldl_assemble]
  rfl

/-- The number that the low bytes of an immediate hold, sign-extended. -/
def lowNumber (imm : Int32) : Width → Int32
  | .byte => imm.toInt8.toInt32
  | .half => imm.toInt16.toInt32
  | .word | .double => imm

/-- The instruction puts a value into a register and leaves the other registers and memory. -/
def Instr.Loads (i : Instr) (dst : Reg) (value : BitVec 64) : Prop :=
  ∀ s, ∃ t, i.exec s = some (t, .next) ∧ t.regs dst = value ∧
    (∀ r, r ≠ dst → t.regs r = s.regs r) ∧ t.mem = s.mem

/-- The request addresses memory by a register that needs no index form, and no sign is extended
from 64 bits. -/
def Directive.Supported : Directive → Prop
  | .load _ _ base _ => base ≠ .rsp ∧ base ≠ .r12
  | .loadSigned width _ base _ => width ≠ .double ∧ base ≠ .rsp ∧ base ≠ .r12
  | .store _ base _ _ => base ≠ .rsp ∧ base ≠ .r12
  | .storeImm _ base _ _ => base ≠ .rsp ∧ base ≠ .r12
  | .lea _ base _ => base ≠ .rsp ∧ base ≠ .r12
  | .locked _ base _ _ _ => base ≠ .rsp ∧ base ≠ .r12
  | _ => True

/-- The instructions do what the request asks for: the same operation on the same registers at the
same size, with the same numbers in fields of any length. -/
def Directive.Intends : Directive → List Instr → Prop
  | .loadImm32 dst imm true, code => ∃ i, code = [i] ∧ i.Loads dst (imm.toBitVec.signExtend 64)
  | .loadImm32 dst imm false, code => ∃ i, code = [i] ∧ i.Loads dst (imm.toBitVec.setWidth 64)
  | .loadImm64 dst imm, code => ∃ i, code = [i] ∧ i.Loads dst imm.toBitVec
  | .mov dst src size, code => code = [.mov size dst src]
  | .copy dst src, code => (dst = src ∧ code = []) ∨ (dst ≠ src ∧ code = [.mov .wide dst src])
  | .zeroExtendHalf dst, code => code = [.zeroExtendHalf dst]
  | .reverseBytes _ .byte, code => code = []
  | .reverseBytes dst .half, code => code = [.rotateHalf dst, .zeroExtendHalf dst]
  | .reverseBytes dst .word, code => code = [.swapBytes .narrow dst]
  | .reverseBytes dst .double, code => code = [.swapBytes .wide dst]
  | .load width dst base off, code =>
    ∃ disp : SignedField, disp.value = off.toInt ∧ code = [.load width dst base disp]
  | .loadSigned width dst base off, code =>
    ∃ disp : SignedField, disp.value = off.toInt ∧ code = [.loadSigned width dst base disp]
  | .store width base src off, code =>
    ∃ disp : SignedField, disp.value = off.toInt ∧ code = [.store width base src disp]
  | .storeImm width base off imm, code =>
    ∃ disp : SignedField, disp.value = off.toInt ∧
      code = [.storeImm width base disp (lowNumber imm width)]
  | .lea dst base off, code =>
    ∃ disp : SignedField, disp.value = off.toInt ∧ code = [.lea dst base disp]
  | .locked op base src off size, code =>
    ∃ disp : SignedField, disp.value = off.toInt ∧ code = [.locked op size base src disp]
  | .alu op dst src size, code => code = [.alu op size dst src]
  | .aluImm op dst imm size, code =>
    (∃ field : SignedField, field.value = imm.toInt ∧ code = [.aluImm op size dst field]) ∨
      (dst = .rax ∧ code = [.aluAccumulator op size imm])
  | .neg dst size, code => code = [.neg size dst]
  | .shiftImm op dst count size, code =>
    code = [.shiftImm op size dst count] ∨ (count = 1 ∧ code = [.shiftOne op size dst])
  | .shiftCount op dst size, code => code = [.shiftCount op size dst]
  | .mul src size, code => code = [.mul size src]
  | .div src size, code => code = [.div size src]
  | .cmp dst src size, code => code = [.cmp size dst src]
  | .cmpImm dst imm size, code =>
    ∃ field : SignedField, field.value = imm.toInt ∧ code = [.cmpImm size dst field]
  | .test dst src size, code => code = [.test size dst src]
  | .testImm dst imm size, code => code = [.testImm size dst imm]
  | .push reg, code => code = [.push reg]
  | .pop reg, code => code = [.pop reg]
  | .jmpReg reg, code => code = [.jmpReg reg]
  | .leave, code => code = [.leave]
  | .ret, code => code = [.ret]
  | .jmpShort rel, code => code = [.jmp (.byte rel)]
  | .jmpNear rel, code => code = [.jmp (.dword rel)]
  | .call rel, code => code = [.call rel]
  | .jccShort cond rel, code => code = [.jcc cond (.byte rel)]
  | .jccNear cond rel, code => code = [.jcc cond (.dword rel)]
  | .nops count, code => IsFiller code ∧ codeSize code = count

section Immediates

/-- The first byte of a field is the immediate cut to one byte. -/
theorem take_one_ofInt32 (imm : Int32) : (Bytes.ofInt32 imm).take 1 = [imm.toInt8.toUInt8] := by
  have hbyte : UInt8.ofNat imm.toUInt32.toNat = imm.toInt8.toUInt8 := by
    apply UInt8.toBitVec_inj.mp
    simp [BitVec.signExtend_eq_setWidth_of_le]
  rw [← hbyte]
  rfl

/-- The first two bytes of a field are those of the immediate cut to two bytes. -/
theorem take_two_ofInt32 (imm : Int32) :
    (Bytes.ofInt32 imm).take 2 = Bytes.ofUInt16 imm.toInt16.toUInt16 := by
  have hhalf : imm.toInt16.toUInt16.toNat = imm.toUInt32.toNat % 65536 := by
    have h : imm.toInt16.toUInt16 = imm.toUInt32.toUInt16 := by
      apply UInt16.toBitVec_inj.mp
      simp [BitVec.signExtend_eq_setWidth_of_le]
    rw [h, UInt32.toNat_toUInt16]
  have hlow : UInt8.ofNat (imm.toUInt32.toNat % 65536) = UInt8.ofNat imm.toUInt32.toNat := by
    apply UInt8.toNat_inj.mp
    simp only [UInt8.toNat_ofNat']
    omega
  have hhigh : UInt8.ofNat (imm.toUInt32.toNat % 65536 / 256) =
      UInt8.ofNat (imm.toUInt32.toNat / 256) := by
    apply UInt8.toNat_inj.mp
    simp only [UInt8.toNat_ofNat']
    omega
  rw [Bytes.ofUInt16, hhalf]
  simp only [Bytes.littleEndian, hlow, hhigh]
  rfl

/-- The bytes that a store writes are those of the number that they hold. -/
theorem take_ofInt32_lowNumber (imm : Int32) (width : Width) :
    (Bytes.ofInt32 (lowNumber imm width)).take width.bytes =
      (Bytes.ofInt32 imm).take width.bytes := by
  cases width with
  | byte =>
    change (Bytes.ofInt32 imm.toInt8.toInt32).take 1 = (Bytes.ofInt32 imm).take 1
    rw [take_one_ofInt32, take_one_ofInt32, Int8.toInt8_toInt32]
  | half =>
    change (Bytes.ofInt32 imm.toInt16.toInt32).take 2 = (Bytes.ofInt32 imm).take 2
    rw [take_two_ofInt32, take_two_ofInt32, Int16.toInt16_toInt32]
  | word => rfl
  | double => rfl

/-- A loaded 32-bit immediate is sign-extended on request. -/
theorem loads_loadImm32_signed (dst : Reg) (imm : Int32) :
    (loadImm32 dst imm true).Loads dst (imm.toBitVec.signExtend 64) := by
  intro s
  obtain ⟨t, ht, hv, hr, hm⟩ := exec_loadImm32 s dst imm .wide
  exact ⟨t, ht, by rw [hv, low_wide]; rfl, hr, hm⟩

/-- A loaded 32-bit immediate is zero-extended otherwise. -/
theorem loads_loadImm32_unsigned (dst : Reg) (imm : Int32) :
    (loadImm32 dst imm false).Loads dst (imm.toBitVec.setWidth 64) := by
  intro s
  obtain ⟨t, ht, hv, hr, hm⟩ := exec_loadImm32 s dst imm .narrow
  have hvalue : low .narrow (BitVec.ofInt 64 imm.toInt) = imm.toBitVec := by
    rw [← ofInt_eq_low]
    exact BitVec.ofInt_toInt
  exact ⟨t, ht, by rw [hv, hvalue], hr, hm⟩

end Immediates

namespace Directive

/-- The request with the immediate that a store writes in place of the one that is given. -/
def trimmed : Directive → Directive
  | .storeImm width base off imm => .storeImm width base off (lowNumber imm width)
  | d => d

/-- A request and its trimmed form have the same bytes. -/
theorem encodeAll_trimmed (d : Directive) : encodeAll d.trimmed.instrs = encodeAll d.instrs := by
  cases d with
  | storeImm width base off imm =>
    simp only [trimmed, instrs, encodeAll_cons, Instr.encode, take_ofInt32_lowNumber]
  | _ => rfl

/-- Every form of a combination with an immediate is what is asked for. -/
theorem intends_aluWithImm (op : AluOp) (dst : Reg) (imm : Int32) (size : OpSize) :
    (aluImm op dst imm size).Intends [aluWithImm op size dst imm] := by
  unfold aluWithImm
  split
  · rename_i hbyte
    exact .inl ⟨.byte imm.toInt8, toInt_toInt8 (fitsInt8_iff.mp hbyte), rfl⟩
  · split
    · rename_i hdst
      exact .inr ⟨hdst, rfl⟩
    · exact .inl ⟨.dword imm, rfl, rfl⟩

/-- The trimmed form of a request is what the request asks for. -/
theorem intends_trimmed (d : Directive) : d.Intends d.trimmed.instrs := by
  cases d with
  | loadImm32 dst imm signExtend =>
    cases signExtend with
    | false => exact ⟨_, rfl, loads_loadImm32_unsigned dst imm⟩
    | true => exact ⟨_, rfl, loads_loadImm32_signed dst imm⟩
  | loadImm64 dst imm => exact ⟨_, rfl, fun s => exec_loadImm64 s dst imm⟩
  | copy dst src =>
    by_cases h : dst = src
    · exact .inl ⟨h, if_pos h⟩
    · exact .inr ⟨h, if_neg h⟩
  | reverseBytes dst width => cases width <;> rfl
  | load width dst base off => exact ⟨_, value_shortest off, rfl⟩
  | loadSigned width dst base off => exact ⟨_, value_shortest off, rfl⟩
  | store width base src off => exact ⟨_, value_shortest off, rfl⟩
  | storeImm width base off imm => exact ⟨_, value_shortest off, rfl⟩
  | lea dst base off => exact ⟨_, value_shortest off, rfl⟩
  | locked op base src off size => exact ⟨_, value_shortest off, rfl⟩
  | aluImm op dst imm size => exact intends_aluWithImm op dst imm size
  | shiftImm op dst count size =>
    by_cases h : count = 1
    · exact .inr ⟨h, congrArg ([·]) (if_pos h)⟩
    · exact .inl (congrArg ([·]) (if_neg h))
  | cmpImm dst imm size => exact ⟨_, value_shortest imm, rfl⟩
  | nops count => exact ⟨isFiller_nops count, codeSize_nops count⟩
  | _ => rfl

/-- Registers other than these two have a form of address without an index. -/
theorem code_ne_four {base : Reg} (h : base ≠ .rsp ∧ base ≠ .r12) : base.code ≠ 4 := by
  revert h
  cases base <;> decide

/-- The instructions of a trimmed request can be read back. -/
theorem Supported.encodable {d : Directive} (h : d.Supported) : Encodable d.trimmed.instrs := by
  have hsingle {i : Instr} (hi : i.HasOwnEncoding) : Encodable [i] :=
    encodable_cons.mpr ⟨hi, encodable_nil⟩
  cases d with
  | loadImm32 dst imm signExtend => exact hsingle (hasOwnEncoding_loadImm32 dst imm signExtend)
  | loadImm64 dst imm => exact hsingle (hasOwnEncoding_loadImm64 dst imm)
  | copy dst src => exact encodable_copy dst src
  | reverseBytes dst width => exact encodable_reverseBytes dst width
  | load width dst base off => exact hsingle (code_ne_four h)
  | loadSigned width dst base off => exact hsingle ⟨h.1, code_ne_four h.2⟩
  | store width base src off => exact hsingle (code_ne_four h)
  | storeImm width base off imm =>
    -- cutting a number that was cut to the width before changes nothing
    refine hsingle ⟨code_ne_four h, ?_, ?_⟩
    · rintro rfl
      exact congrArg Int8.toInt32 (Int8.toInt8_toInt32 imm.toInt8)
    · rintro rfl
      exact congrArg Int16.toInt32 (Int16.toInt16_toInt32 imm.toInt16)
  | lea dst base off => exact hsingle (code_ne_four h)
  | locked op base src off size => exact hsingle (code_ne_four h)
  | aluImm op dst imm size => exact hsingle (hasOwnEncoding_aluWithImm op size dst imm)
  | shiftImm op dst count size => exact hsingle (hasOwnEncoding_shiftBy op size dst count)
  | nops count =>
    intro i hi
    obtain ⟨extra, rfl⟩ := isFiller_nops count i hi
    trivial
  | _ => exact hsingle trivial

end Directive

/-- Requests leave the bytes of their trimmed forms. -/
theorem assembled_eq_trimmed (calls : List Directive) :
    assembled calls = encodeAll (calls.flatMap fun d => d.trimmed.instrs) := by
  rw [assembled_eq]
  induction calls with
  | nil => rfl
  | cons d calls ih =>
    rw [List.flatMap_cons, List.flatMap_cons, encodeAll_append, encodeAll_append, ih,
      d.encodeAll_trimmed]

/-- Every sequence of supported requests reads back: from the first byte on the decoder finds what
each request asks for, in order and to the last byte, and after any number of requests it stands on
the first byte of the next one. -/
theorem assembled_reads_back (calls : List Directive) (h : ∀ d ∈ calls, d.Supported) :
    ∃ groups : List (List Instr), List.Forall₂ Directive.Intends calls groups ∧
      ∀ n, readInstrs (groups.take n).flatten.length (assembled calls) =
        some ((groups.take n).flatten, assembled (calls.drop n)) := by
  -- the decoder cannot see more of an immediate than its bytes, so it finds the trimmed requests
  refine ⟨calls.map fun d => d.trimmed.instrs, ?_, fun n => ?_⟩
  · exact List.forall₂_map_right_iff.mpr (List.forall₂_same.mpr fun d _ => d.intends_trimmed)
  · have hcode : ((calls.map fun d => d.trimmed.instrs).take n).flatten =
        (calls.take n).flatMap fun d => d.trimmed.instrs := by
      rw [← List.map_take, List.flatMap]
    have hencodable : Encodable ((calls.take n).flatMap fun d => d.trimmed.instrs) := by
      intro i hi
      obtain ⟨d, hd, hi⟩ := List.mem_flatMap.mp hi
      exact (h d (List.mem_of_mem_take hd)).encodable i hi
    have hbytes : assembled calls =
        encodeAll ((calls.take n).flatMap fun d => d.trimmed.instrs) ++
          assembled (calls.drop n) := by
      rw [assembled_eq_trimmed calls, assembled_eq_trimmed (calls.drop n), ← encodeAll_append,
        ← List.flatMap_append, List.take_append_drop]
    rw [hcode, hbytes]
    exact readInstrs_encodeAll hencodable _

/-- Requests that take many forms: immediates loaded in every way, low bytes of registers that need
a prefix, immediates longer than the cell, a copy that vanishes, filler in three pieces. -/
def mixedCalls : List Directive :=
  [.loadImm32 .r9 (-2) true, .loadImm32 .rdi (-2) false, .loadImm32 .r15 0 true,
    .loadImm64 .rax 0x123456789ABCDEF0, .copy .rcx .rcx, .store .byte .rbp .rsi 0,
    .store .byte .r13 .r12 (-129), .storeImm .byte .r13 128 0x1FF, .storeImm .half .rdx 4 0x18000,
    .loadSigned .word .rax .r8 (-128), .aluImm .sub .rax 1000 .narrow, .aluImm .and .rax (-1) .wide,
    .shiftImm .arithmetic .r10 1 .wide, .reverseBytes .r11 .half, .nops 21, .jccNear .less (-5),
    .leave, .ret]

/-- These requests are supported. -/
theorem supported_mixedCalls : ∀ d ∈ mixedCalls, d.Supported := by
  simp [mixedCalls, Directive.Supported]

/-- The mixed requests read back. -/
theorem mixedCalls_read_back : (∀ d ∈ mixedCalls, d.Supported) ∧
    ∃ groups : List (List Instr), List.Forall₂ Directive.Intends mixedCalls groups ∧
      ∀ n, readInstrs (groups.take n).flatten.length (assembled mixedCalls) =
        some ((groups.take n).flatten, assembled (mixedCalls.drop n)) :=
  ⟨supported_mixedCalls, assembled_reads_back mixedCalls supported_mixedCalls⟩

end NativeForge.X64
