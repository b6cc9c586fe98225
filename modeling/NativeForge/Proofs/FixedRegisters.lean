import NativeForge.Proofs.CompiledExecution

/-!
# Operations on fixed native registers

The processor multiplies and divides in the accumulator and the data register only, and shifts by
the count register only. So a multiplication, a division, a remainder and a shift by a register take
several native instructions, which save the fixed registers, bring the operands there and restore
what they saved. Whatever registers the slot names, also the fixed ones and one register twice, the
code leaves the result of the slot in the destination and nothing else behind.
-/

namespace NativeForge

open X64 Virtual

/-- The virtual registers that a state holds. -/
def X64.State.held (s : State) : Registers := fun r => s.regs r.native

/-- A state agrees with the registers that it holds. -/
theorem agrees_held (s : State) : Agrees s s.held := fun _ _ => rfl

namespace Virtual

/-- The class of the arithmetic slots of a width. -/
def arithmeticClass : OpSize → UInt8
  | .narrow => 4
  | .wide => 7

/-- The operation code is that of a shift. -/
def IsShiftCode (op : UInt8) : Prop := op = 0x60 ∨ op = 0x70 ∨ op = 0xC0

/-- The operation code is that of a division or of a remainder. -/
def IsDivisionCode (op : UInt8) : Prop := op = 0x30 ∨ op = 0x90

/-- The slot multiplies, divides, takes a remainder, or shifts by a register. -/
def Insn.NeedsFixed (i : Insn) : Prop :=
  i.op = 0x20 ∨ IsDivisionCode i.op ∨ (IsShiftCode i.op ∧ i.fromRegister = true)

/-- The slot has a result for a second operand: it does not divide by zero at its width, and no
32-bit shift has a count of zero. -/
structure Insn.Defined (i : Insn) (size : OpSize) (b : BitVec 64) : Prop where
  /-- The divisor is not zero at the width of the slot. -/
  divisor_ne : IsDivisionCode i.op → low size b ≠ 0
  /-- The masked count of a 32-bit shift is not zero. -/
  count_ne : IsShiftCode i.op → size = .narrow → b.toNat % 32 ≠ 0

/-- A number up to nine names a general register. -/
theorem VReg.exists_of_index {index : UInt8} (h : index ≤ 9) :
    ∃ r, VReg.ofIndex? index = some r ∧ r.IsGeneral := by
  have hlt : index.toNat < (VReg.all.take 11).length := by
    have hle : index.toNat ≤ 9 := UInt8.le_iff_toNat_le.mp h
    have hlength : (VReg.all.take 11).length = 11 := rfl
    omega
  have hr : VReg.ofIndex? index = some ((VReg.all.take 11).get ⟨index.toNat, hlt⟩) :=
    List.getElem?_eq_getElem hlt
  exact ⟨_, hr, isGeneral_of_index hr h⟩

namespace Insn

variable {i : Insn} {size : OpSize} {regs : Registers} {dst : VReg} {b : BitVec 64}

/-- A second operand that is an immediate or a general register can be read. -/
theorem exists_operand (h : i.fromRegister = true → i.src ≤ 9) : ∃ src, i.operand = .ok src := by
  unfold operand
  split
  · rename_i hr
    obtain ⟨r, hr, _⟩ := VReg.exists_of_index (h hr)
    exact ⟨.reg r, bind_eq_ok.mpr ⟨r, register_eq_ok.mpr hr, rfl⟩⟩
  · exact ⟨.imm i.imm, rfl⟩

/-- The class of an arithmetic slot says how it is read. -/
theorem operation_of_class (h : i.cls = arithmeticClass size) :
    i.operation = i.arithmetic size := by
  unfold operation
  cases size with
  | narrow => rw [h]; rfl
  | wide => rw [h]; rfl

/-- A slot that needs fixed registers means something if it names general registers. -/
theorem NeedsFixed.exists_arithmetic (h : i.NeedsFixed) (hdst : i.dst ≤ 9)
    (hsrc : i.fromRegister = true → i.src ≤ 9) (size : OpSize) :
    ∃ operation, i.arithmetic size = .ok operation := by
  obtain ⟨dst, hd, _⟩ := VReg.exists_of_index hdst
  obtain ⟨src, hs⟩ := exists_operand hsrc
  unfold arithmetic
  rw [register_eq_ok.mpr hd, hs]
  rcases h with ho | (ho | ho) | ⟨ho | ho | ho, _⟩ <;> rw [ho] <;> exact ⟨_, rfl⟩

/-- A slot that needs fixed registers has a result where it is defined. -/
theorem NeedsFixed.exists_result (h : i.NeedsFixed) (hdef : i.Defined size b)
    (a : BitVec size.bits) : ∃ v, arithmeticResult i.op a (low size b) = some v := by
  have hshift : IsShiftCode i.op → ¬(size.bits = 32 ∧ (low size b).toNat % size.bits = 0) := by
    rintro ho ⟨hbits, hzero⟩
    cases size with
    | narrow =>
      rw [← count_of_word] at hzero
      change b.toNat % 256 % 32 = 0 at hzero
      have hne := hdef.count_ne ho rfl
      omega
    | wide => cases hbits
  rcases h with ho | hdiv | ⟨hsh, _⟩
  · rw [ho]
    exact ⟨_, rfl⟩
  · have hne := hdef.divisor_ne hdiv
    rcases hdiv with ho | ho
    · rw [ho]
      exact ⟨_, if_neg hne⟩
    · rw [ho]
      exact ⟨_, if_neg hne⟩
  · have hcount := hshift hsh
    rcases hsh with ho | ho | ho <;> rw [ho] <;> exact ⟨_, if_neg hcount⟩

/-- A slot that needs fixed registers neither negates nor converts. -/
theorem NeedsFixed.op_ne (h : i.NeedsFixed) : i.op ≠ 0x80 ∧ i.op ≠ 0xD0 := by
  rcases h with ho | (ho | ho) | ⟨ho | ho | ho, _⟩ <;> rw [ho] <;> decide

/-- The interpreter goes on behind a slot that needs fixed registers, with the result at the width
of the slot in the destination. -/
theorem NeedsFixed.interpretSlot_eq (h : i.NeedsFixed) (hcls : i.cls = arithmeticClass size)
    (hd : VReg.ofIndex? i.dst = some dst) (hb : i.source regs = some b) {v : BitVec size.bits}
    (hv : arithmeticResult i.op (low size (regs dst)) (low size b) = some v) {p : Program} {k : Nat}
    (hi : p.insns[k]? = some i) :
    p.interpretSlot k regs = some (.goto (k + 1) (regs.set dst (v.setWidth 64))) := by
  have hwide : i.isWideLoad = false := by
    apply not_isWideLoad_of_cls_ne
    rw [hcls]
    cases size <;> decide
  unfold Program.interpretSlot
  cases size with
  | narrow =>
    have hresult : i.result32 regs (regs dst) = some (v.setWidth 64) := by
      rw [result32, if_neg h.op_ne.2, if_neg h.op_ne.1, hb, Option.bind_some]
      exact Option.map_eq_some_iff.mpr ⟨v, hv, rfl⟩
    simp [hi, hwide, hcls, arithmeticClass, hd, hresult]
  | wide =>
    have hresult : i.result64 regs (regs dst) = some (v.setWidth 64) := by
      rw [low_wide, low_wide] at hv
      rw [result64, if_neg h.op_ne.1, hb, Option.bind_some, hv]
      exact congrArg some (BitVec.setWidth_eq v).symm
    simp [hi, hwide, hcls, arithmeticClass, hd, hresult]

end Insn

/-- Every pass lowers arithmetic on general registers, and remembers nothing but the code. -/
theorem Operation.IsArithmetic.lower_eq {operation : Operation} (h : operation.IsArithmetic)
    (p : Pass) (depth : UInt32) (index : Nat) (epilogue : Option Nat) :
    ∃ code, p.lower depth index epilogue operation = .ok { code } := by
  cases operation with
  | alu | shift | move | negate | multiply | divide | convert | loadWide => exact ⟨_, rfl⟩
  | load | probe | storeImm | store | atomic | fetch | jump | branch | exit | call | tailCall =>
    exact h.elim

end Virtual

/-- A slot computes a value in a state, for its destination: the interpreter sets the destination to
the value, and so does the code of the slot, wherever it stands. -/
structure Computes (i : Insn) (s : State) (dst : VReg) (v : BitVec 64) : Prop where
  /-- The slot names the destination. -/
  dst_eq : VReg.ofIndex? i.dst = some dst
  /-- The interpreter sets the destination and goes on behind the slot. -/
  interprets : ∀ (p : Program) (k : Nat), p.insns[k]? = some i →
    p.interpretSlot k s.held = some (.goto (k + 1) (s.held.set dst v))
  /-- Every pass lowers the slot to code that runs through to its end, sets the register of the
  destination and leaves the others, the scratch register apart. Memory changes in the sixteen bytes
  below the stack pointer only. -/
  executes : ∃ operation, i.operation = .ok operation ∧
    ∀ (p : Pass) (depth : UInt32) (index : Nat) (epilogue : Option Nat),
      ∃ code t, p.lower depth index epilogue operation = .ok { code } ∧ Sets s t dst.native v ∧
        ∀ bytes offset, HasCode bytes offset code →
          Reaches bytes offset s (offset + codeSize code) t

/-- Every slot that multiplies, divides, takes a remainder or shifts by a register computes its
result, at its width, if it has one. The slot may name the registers that the processor works in,
and one register twice. -/
theorem computes_of_needsFixed (i : Insn) (size : OpSize) (s : State) (b : BitVec 64)
    (hcls : i.cls = arithmeticClass size) (hfixed : i.NeedsFixed) (hdst : i.dst ≤ 9)
    (hsrc : i.fromRegister = true → i.src ≤ 9) (hroom : s.Room 16)
    (hb : i.source s.held = some b) (hdef : i.Defined size b) :
    ∃ dst v, arithmeticResult i.op (low size (s.held dst)) (low size b) = some v ∧
      Computes i s dst (v.setWidth 64) := by
  obtain ⟨operation, ho⟩ := hfixed.exists_arithmetic hdst hsrc size
  obtain ⟨dst, hd, hreads⟩ := Insn.reads_of_arithmetic ho
  obtain ⟨v, hv⟩ := hfixed.exists_result hdef (low size (s.held dst))
  have harith : operation.IsArithmetic :=
    hreads.isArithmetic (VReg.isGeneral_of_index hd hdst) fun _ _ => hsrc
  have hresult : operation.result s.held = some (dst, v.setWidth 64) := by
    rcases @Insn.Reads.result_eq i s.held _ _ _ hreads with
      ⟨h80, _⟩ | ⟨hD0, _⟩ | ⟨src, hs, _, _, hr⟩
    · exact absurd h80 hfixed.op_ne.1
    · exact absurd hD0 hfixed.op_ne.2
    · rw [Insn.source_of_operand hs, Option.some.injEq] at hb
      rw [hr, hb, hv]
      rfl
  refine ⟨dst, v, hv, hd, fun p k hi => hfixed.interpretSlot_eq hcls hd hb hv hi, operation,
    (Insn.operation_of_class hcls).trans ho, fun p depth index epilogue => ?_⟩
  obtain ⟨code, hlower⟩ := harith.lower_eq p depth index epilogue
  obtain ⟨_, t, hexec, hsets⟩ := sets_lower hlower harith (agrees_held s) hroom hresult
  refine ⟨code, t, hlower, hsets, fun bytes offset hcode => ?_⟩
  exact Reaches.execAll hcode (encodable_lower hlower harith.computes) hexec

/-- A state with values in the registers that the processor multiplies, divides and shifts in. -/
def fixedState : State :=
  (((callerState 0 16).setReg .rax 7).setReg .rdx 100).setReg .rcx 35

/-- A remainder whose dividend is in the data register and whose divisor is in the accumulator, and
a 32-bit shift of the count register by itself. -/
theorem computes_aliased :
    Computes ⟨0x9F, 3, 0, 0, 0⟩ fixedState .r3 2 ∧
      Computes ⟨0x6C, 4, 4, 0, 0⟩ fixedState .r4 280 := by
  have hroom : fixedState.Room 16 := room_callerState 0 (Nat.le_refl 16)
  constructor
  · obtain ⟨dst, v, hv, hc⟩ := computes_of_needsFixed ⟨0x9F, 3, 0, 0, 0⟩ .wide fixedState 7
      (by decide) (.inr (.inl (.inr (by decide)))) (by decide) (fun _ => by decide) hroom (by decide)
      ⟨fun _ => by decide, fun _ h => absurd h (by decide)⟩
    have hdst : VReg.ofIndex? 3 = some .r3 := by decide
    obtain rfl := Option.some.inj (hdst.symm.trans hc.dst_eq)
    have hvalue : arithmeticResult (0x90 : UInt8) (100 : BitVec 64) 7 = some 2 := by decide
    obtain rfl := Option.some.inj (hvalue.symm.trans hv)
    exact hc
  · obtain ⟨dst, v, hv, hc⟩ := computes_of_needsFixed ⟨0x6C, 4, 4, 0, 0⟩ .narrow fixedState 35
      (by decide) (.inr (.inr ⟨.inl (by decide), by decide⟩)) (by decide) (fun _ => by decide) hroom
      (by decide) ⟨fun h => absurd h (by unfold IsDivisionCode; decide), fun _ _ => by decide⟩
    have hdst : VReg.ofIndex? 4 = some .r4 := by decide
    obtain rfl := Option.some.inj (hdst.symm.trans hc.dst_eq)
    have hvalue : arithmeticResult (0x60 : UInt8) (35 : BitVec 32) 35 = some 280 := by decide
    obtain rfl := Option.some.inj (hvalue.symm.trans hv)
    exact hc

end NativeForge
