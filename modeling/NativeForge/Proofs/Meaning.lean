import NativeForge.Proofs.Interpreter
import NativeForge.Proofs.Outcome
import NativeForge.Proofs.Processor

/-!
# The meaning of operations

What an operation does to the virtual registers, in the terms that the generator reads slots in.
The interpreter of slots computes the same, so the generator may work from operations.
-/

namespace NativeForge.Virtual

/-- The low part of a word. -/
def low (size : OpSize) (a : BitVec 64) : BitVec size.bits := a.setWidth size.bits

/-- The value of a second operand; an immediate is sign-extended. -/
def Operand.value (regs : Registers) : Operand → BitVec 64
  | .reg r => regs r
  | .imm v => BitVec.ofInt 64 v.toInt

/-- The condition of a conditional jump. -/
def Condition.holds {n : Nat} (cond : Condition) (a b : BitVec n) : Bool :=
  match cond with
  | .equal => a == b
  | .greater => b.ult a
  | .greaterEqual => b.ule a
  | .anySet => a &&& b != 0
  | .notEqual => a != b
  | .signedGreater => b.slt a
  | .signedGreaterEqual => b.sle a
  | .less => a.ult b
  | .lessEqual => a.ule b
  | .signedLess => a.slt b
  | .signedLessEqual => a.sle b

/-- A part of an unsigned division, unless the divisor is zero. -/
def divisionResult {n : Nat} (part : DivisionPart) (a b : BitVec n) : Option (BitVec n) :=
  if b = 0 then none
  else match part with
    | .quotient => some (a / b)
    | .remainder => some (a % b)

/-- The result of an operation on two operands of its size, as a register and its value. -/
def setting (size : OpSize) (dst : VReg) (v : Option (BitVec size.bits)) :
    Option (VReg × BitVec 64) :=
  v.map fun v => (dst, v.setWidth 64)

/-- The register that an operation sets, and its value. Only arithmetic and immediate loads have a
result here; a division by zero and a 32-bit shift by a count of zero have none. -/
def Operation.result (regs : Registers) : Operation → Option (VReg × BitVec 64)
  | .alu op size dst src =>
    setting size dst (some (op.apply (low size (regs dst)) (low size (src.value regs))))
  | .shift op size dst src =>
    setting size dst (shiftResult op.apply (low size (regs dst)) (low size (src.value regs)))
  | .move size dst src => setting size dst (some (low size (src.value regs)))
  | .negate size dst => setting size dst (some (-low size (regs dst)))
  | .multiply size dst src =>
    setting size dst (some (low size (regs dst) * low size (src.value regs)))
  | .divide part size dst src =>
    setting size dst (divisionResult part (low size (regs dst)) (low size (src.value regs)))
  | .convert order width dst => some (dst, orderedBytes (order = .big) width.bytes (regs dst))
  | .loadWide dst value => some (dst, value.toBitVec)
  | _ => none

/-- The low part of a word at full size is the word. -/
@[simp]
theorem low_wide (a : BitVec 64) : low .wide a = a := BitVec.setWidth_eq _

/-- A field that names a register names it in the interpreter. -/
theorem register_eq_ok {index : UInt8} {r : VReg} :
    register index = .ok r ↔ VReg.ofIndex? index = some r := by
  unfold register
  split <;> simp_all

/-- The operation codes of arithmetic and bitwise operations. -/
theorem aluOp?_eq_some {code : UInt8} {op : AluOp} (h : aluOp? code = some op) :
    (code = 0x00 ∧ op = .add) ∨ (code = 0x10 ∧ op = .sub) ∨ (code = 0x40 ∧ op = .or) ∨
      (code = 0x50 ∧ op = .and) ∨ (code = 0xA0 ∧ op = .xor) := by
  unfold aluOp? at h
  repeat' split at h
  all_goals simp_all

/-- The operation codes of shifts. -/
theorem shiftOp?_eq_some {code : UInt8} {op : ShiftOp} (h : shiftOp? code = some op) :
    (code = 0x60 ∧ op = .left) ∨ (code = 0x70 ∧ op = .right) ∨ (code = 0xC0 ∧ op = .arithmetic) := by
  unfold shiftOp? at h
  repeat' split at h
  all_goals simp_all

/-- The interpreter decides exactly the conditions that there are. -/
theorem conditionResult_eq {n : Nat} (op : UInt8) (a b : BitVec n) :
    conditionResult op a b = (condition? op).map fun cond => cond.holds a b := by
  unfold conditionResult condition?
  simp only [apply_ite (Option.map fun cond => Condition.holds cond a b), Option.map_some,
    Option.map_none]
  rfl

namespace Insn

variable {i : Insn} {regs : Registers}

/-- The second operand has the value that the interpreter takes. -/
theorem source_of_operand {src : Operand} (h : i.operand = .ok src) :
    i.source regs = some (src.value regs) := by
  unfold operand at h
  unfold source
  split at h
  · rename_i hr
    obtain ⟨r, hreg, h⟩ := bind_eq_ok.mp h
    obtain rfl := pure_eq_ok.mp h
    rw [if_pos hr, register_eq_ok.mp hreg]
    rfl
  · rename_i hr
    cases h
    rw [if_neg hr]
    rfl

/-- How an arithmetic slot on a destination is read, by its operation code. -/
inductive Reads (i : Insn) (size : OpSize) (dst : VReg) : Operation → Prop
  | alu {op : AluOp} {src : Operand} (h : aluOp? i.op = some op) (hs : i.operand = .ok src) :
    Reads i size dst (.alu op size dst src)
  | shift {op : ShiftOp} {src : Operand} (h : shiftOp? i.op = some op) (hs : i.operand = .ok src) :
    Reads i size dst (.shift op size dst src)
  | move {src : Operand} (h : i.op = 0xB0) (hs : i.operand = .ok src) :
    Reads i size dst (.move size dst src)
  | negate (h : i.op = 0x80) : Reads i size dst (.negate size dst)
  | multiply {src : Operand} (h : i.op = 0x20) (hs : i.operand = .ok src) :
    Reads i size dst (.multiply size dst src)
  | quotient {src : Operand} (h : i.op = 0x30) (hs : i.operand = .ok src) :
    Reads i size dst (.divide .quotient size dst src)
  | remainder {src : Operand} (h : i.op = 0x90) (hs : i.operand = .ok src) :
    Reads i size dst (.divide .remainder size dst src)
  | convert {width : Width} (h : i.op = 0xD0)
      (hw : (i.imm = 16 ∧ width = .half) ∨ (i.imm = 32 ∧ width = .word) ∨
        (i.imm = 64 ∧ width = .double)) :
    Reads i size dst (.convert (if i.fromRegister then .big else .little) width dst)

/-- An arithmetic slot that means something is read by its operation code. -/
theorem reads_of_arithmetic {size : OpSize} {operation : Operation}
    (h : i.arithmetic size = .ok operation) :
    ∃ dst, VReg.ofIndex? i.dst = some dst ∧ Reads i size dst operation := by
  unfold arithmetic at h
  obtain ⟨dst, hd, h⟩ := bind_eq_ok.mp h
  refine ⟨dst, register_eq_ok.mp hd, ?_⟩
  split at h
  · rename_i op ho
    obtain ⟨src, hs, h⟩ := bind_eq_ok.mp h
    obtain rfl := pure_eq_ok.mp h
    exact .alu ho hs
  · rename_i op _ ho
    obtain ⟨src, hs, h⟩ := bind_eq_ok.mp h
    obtain rfl := pure_eq_ok.mp h
    exact .shift ho hs
  · split at h
    · rename_i ho
      obtain ⟨src, hs, h⟩ := bind_eq_ok.mp h
      obtain rfl := pure_eq_ok.mp h
      exact .move ho hs
    · split at h
      · rename_i ho
        obtain rfl := pure_eq_ok.mp h
        exact .negate ho
      · split at h
        · rename_i ho
          obtain ⟨src, hs, h⟩ := bind_eq_ok.mp h
          obtain rfl := pure_eq_ok.mp h
          exact .multiply ho hs
        · split at h
          · rename_i ho
            obtain ⟨src, hs, h⟩ := bind_eq_ok.mp h
            obtain rfl := pure_eq_ok.mp h
            exact .quotient ho hs
          · split at h
            · rename_i ho
              obtain ⟨src, hs, h⟩ := bind_eq_ok.mp h
              obtain rfl := pure_eq_ok.mp h
              exact .remainder ho hs
            · split at h
              · rename_i ho
                dsimp only at h
                split at h
                · rename_i hw
                  obtain rfl := pure_eq_ok.mp h
                  exact .convert ho (.inl ⟨hw, rfl⟩)
                · split at h
                  · rename_i hw
                    obtain rfl := pure_eq_ok.mp h
                    exact .convert ho (.inr (.inl ⟨hw, rfl⟩))
                  · split at h
                    · rename_i hw
                      obtain rfl := pure_eq_ok.mp h
                      exact .convert ho (.inr (.inr ⟨hw, rfl⟩))
                    · cases h
              · cases h

/-- An operation on two operands computes what the operation code of its slot means; the others
are negation and conversion. -/
theorem Reads.result_eq {size : OpSize} {dst : VReg} {operation : Operation}
    (h : Reads i size dst operation) :
    (i.op = 0x80 ∧ operation = .negate size dst) ∨
    (i.op = 0xD0 ∧ operation.result regs =
      (conversionResult i.fromRegister i.imm (regs dst)).map fun v => (dst, v)) ∨
    ∃ src, i.operand = .ok src ∧ i.op ≠ 0x80 ∧ i.op ≠ 0xD0 ∧ operation.result regs =
      setting size dst (arithmeticResult i.op (low size (regs dst)) (low size (src.value regs))) := by
  cases h with
  | @alu op src ho hs =>
    refine .inr (.inr ⟨src, hs, ?_⟩)
    rcases aluOp?_eq_some ho with ⟨hc, rfl⟩ | ⟨hc, rfl⟩ | ⟨hc, rfl⟩ | ⟨hc, rfl⟩ | ⟨hc, rfl⟩ <;>
      rw [hc] <;> exact ⟨by decide, by decide, rfl⟩
  | @shift op src ho hs =>
    refine .inr (.inr ⟨src, hs, ?_⟩)
    rcases shiftOp?_eq_some ho with ⟨hc, rfl⟩ | ⟨hc, rfl⟩ | ⟨hc, rfl⟩ <;>
      rw [hc] <;> exact ⟨by decide, by decide, rfl⟩
  | @move src hc hs => exact .inr (.inr ⟨src, hs, by rw [hc]; exact ⟨by decide, by decide, rfl⟩⟩)
  | negate hc => exact .inl ⟨hc, rfl⟩
  | @multiply src hc hs =>
    exact .inr (.inr ⟨src, hs, by rw [hc]; exact ⟨by decide, by decide, rfl⟩⟩)
  | @quotient src hc hs =>
    exact .inr (.inr ⟨src, hs, by rw [hc]; exact ⟨by decide, by decide, rfl⟩⟩)
  | @remainder src hc hs =>
    exact .inr (.inr ⟨src, hs, by rw [hc]; exact ⟨by decide, by decide, rfl⟩⟩)
  | convert hc hw =>
    refine .inr (.inl ⟨hc, ?_⟩)
    rcases hw with ⟨hw, rfl⟩ | ⟨hw, rfl⟩ | ⟨hw, rfl⟩ <;> rw [hw] <;>
      cases i.fromRegister <;> rfl

/-- The interpreter gives a 64-bit slot the meaning of its operation. -/
theorem result64_eq {dst : VReg} {operation : Operation} (h : Reads i .wide dst operation)
    (hop : i.op ≠ 0xD0) :
    operation.result regs = (i.result64 regs (regs dst)).map fun v => (dst, v) := by
  rcases h.result_eq with ⟨hc, rfl⟩ | ⟨hc, _⟩ | ⟨src, hs, hc, _, hr⟩
  · simp [Operation.result, result64, hc, setting]
  · exact absurd hc hop
  · rw [hr, result64, if_neg hc, source_of_operand hs, low_wide, low_wide]
    simp [setting]

/-- The interpreter gives a 32-bit slot the meaning of its operation. -/
theorem result32_eq {dst : VReg} {operation : Operation} (h : Reads i .narrow dst operation) :
    operation.result regs = (i.result32 regs (regs dst)).map fun v => (dst, v) := by
  rcases h.result_eq with ⟨hc, rfl⟩ | ⟨hc, hr⟩ | ⟨src, hs, h80, hD0, hr⟩
  · rw [result32, if_neg (by rw [hc]; decide), if_pos hc]
    rfl
  · rw [hr, result32, if_pos hc]
  · rw [hr, result32, if_neg hD0, if_neg h80, source_of_operand hs, Option.bind_some, Option.map_map]
    rfl

/-- The interpreter gives a conditional jump slot the meaning of its condition. -/
theorem jumps_eq {cond : Condition} {dst : VReg} {src : Operand} (size : OpSize)
    (hcond : condition? i.op = some cond) (hd : register i.dst = .ok dst) (hs : i.operand = .ok src)
    (hsize : i.cls = 5 ∧ size = .wide ∨ i.cls ≠ 5 ∧ size = .narrow) :
    i.jumps regs = some (cond.holds (low size (regs dst)) (low size (src.value regs))) := by
  have hop : ∀ {n : Nat} (a b : BitVec n), conditionResult i.op a b = some (cond.holds a b) := by
    intro n a b
    rw [conditionResult_eq, hcond, Option.map_some]
  unfold jumps
  rw [register_eq_ok.mp hd, source_of_operand hs]
  rcases hsize with ⟨hc, rfl⟩ | ⟨hc, rfl⟩
  · simp [hc, hop]
  · simp [hc, hop, low]

end Insn

end NativeForge.Virtual
