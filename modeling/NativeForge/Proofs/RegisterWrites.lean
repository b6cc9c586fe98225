import NativeForge.Proofs.CallingCode

/-!
# Registers that instructions write

`Instr.written` lists the registers that a form of instruction may change, whatever the operands
hold. Every other register keeps its value, over one instruction and over a run of them.
-/

namespace NativeForge

open X64

/-- The registers that an atomic operation changes: the source of an exchange takes the old value, and
a comparison that fails puts it into the accumulator. -/
def LockedOp.written (src : Reg) : LockedOp → List Reg
  | .alu _ => []
  | .fetchAdd | .exchange => [src]
  | .compareExchange => [.rax]

namespace X64

/-- The registers that an instruction may change. -/
def Instr.written : Instr → List Reg
  | .movSigned dst _ | .movZero dst _ | .movWide dst _ | .mov _ dst _ | .zeroExtendHalf dst
  | .rotateHalf dst | .swapBytes _ dst | .load _ dst _ _ | .loadSigned _ dst _ _
  | .loadIndexed dst _ _ _ | .lea dst _ _ | .alu _ _ dst _ | .aluImm _ _ dst _ | .neg _ dst
  | .shiftOne _ _ dst | .shiftImm _ _ dst _ | .shiftCount _ _ dst => [dst]
  | .aluAccumulator .. => [.rax]
  | .locked op _ _ src _ => op.written src
  | .mul .. | .div .. => [.rax, .rdx]
  | .push _ | .call _ | .ret => [.rsp]
  | .pop reg => [.rsp, reg]
  | .leave => [.rsp, .rbp]
  | .store .. | .storeImm .. | .cmp .. | .cmpImm .. | .cmpMem .. | .cmpMemImm .. | .test ..
  | .testImm .. | .jmp _ | .jcc .. | .jmpReg _ | .nop _ => []

section

variable {s t : State} {r : Reg}

/-- A store keeps the registers. -/
theorem State.regs_of_store {a : BitVec 64} {width : Width} {v : Nat}
    (h : s.store a width v = some t) : t.regs = s.regs := by
  unfold State.store at h
  split at h
  · cases h
    rfl
  · cases h

/-- A push changes the stack pointer only. -/
theorem State.regs_of_push {v : BitVec 64} (h : s.push v = some t) (hr : r ≠ .rsp) :
    t.regs r = s.regs r := by
  obtain ⟨u, hu, rfl⟩ := Option.map_eq_some_iff.mp h
  rw [State.regs_setReg, if_neg hr, State.regs_of_store hu]

/-- A pop changes the stack pointer and its register only. -/
theorem State.regs_of_pop {reg : Reg} (h : s.pop reg = some t) (hr : r ∉ [.rsp, reg]) :
    t.regs r = s.regs r := by
  obtain ⟨hrsp, hreg⟩ := not_or.mp (mt List.mem_cons.mpr hr)
  obtain ⟨v, _, rfl⟩ := Option.map_eq_some_iff.mp h
  rw [State.regs_setReg, if_neg (List.ne_of_not_mem_cons hreg), State.regs_setReg, if_neg hrsp]

/-- A shift changes its register only. -/
theorem State.regs_of_shift {op : ShiftOp} {size : OpSize} {dst : Reg} {count : Nat}
    (h : s.shift op size dst count = some t) (hr : r ∉ [dst]) : t.regs r = s.regs r := by
  unfold State.shift at h
  split at h
  · split at h <;> cases h
    rfl
  · cases h
    exact if_neg (List.ne_of_not_mem_cons hr)

/-- A division changes both halves of the dividend only. -/
theorem State.regs_of_divide {size : OpSize} {src : Reg} (h : s.divide size src = some t)
    (hr : r ∉ [.rax, .rdx]) : t.regs r = s.regs r := by
  obtain ⟨hrax, hrdx⟩ := not_or.mp (mt List.mem_cons.mpr hr)
  unfold State.divide at h
  dsimp only at h
  split at h
  · cases h
  · cases h
    rw [State.regs_setFlags, State.regs_put, if_neg (List.ne_of_not_mem_cons hrdx),
      State.regs_put, if_neg hrax]

/-- An atomic operation changes only the register that takes the old value. -/
theorem State.regs_of_locked {op : LockedOp} {size : OpSize} {a : BitVec 64} {src : Reg}
    (h : s.locked op size a src = some t) (hr : r ∉ op.written src) : t.regs r = s.regs r := by
  obtain ⟨old, _, h⟩ := Option.bind_eq_some_iff.mp h
  cases op with
  | alu op =>
    obtain ⟨u, hu, h⟩ := Option.bind_eq_some_iff.mp h
    cases h
    rw [State.regs_setFlags, State.regs_of_store hu]
  | fetchAdd =>
    obtain ⟨u, hu, h⟩ := Option.bind_eq_some_iff.mp h
    cases h
    rw [State.regs_setFlags, State.regs_put, if_neg (List.ne_of_not_mem_cons hr),
      State.regs_of_store hu]
  | exchange =>
    obtain ⟨u, hu, h⟩ := Option.bind_eq_some_iff.mp h
    cases h
    rw [State.regs_put, if_neg (List.ne_of_not_mem_cons hr), State.regs_of_store hu]
  | compareExchange =>
    dsimp only at h
    split at h
    · rw [State.regs_of_store h, State.regs_setFlags]
    · cases h
      rw [State.regs_put, if_neg (List.ne_of_not_mem_cons hr), State.regs_setFlags]

/-- An instruction keeps the registers that it does not write. -/
theorem Instr.regs_of_exec {i : Instr} {control : Control} (h : i.exec s = some (t, control))
    (hr : r ∉ i.written) : t.regs r = s.regs r := by
  cases i with
  | movSigned dst imm | movZero dst imm | movWide dst imm | mov size dst src | zeroExtendHalf dst
  | rotateHalf dst | swapBytes size dst | lea dst base disp | alu op size dst src
  | aluImm op size dst imm | aluAccumulator op size imm | neg size dst =>
    cases h
    exact if_neg (List.ne_of_not_mem_cons hr)
  | load width dst base disp | loadSigned width dst base disp | loadIndexed dst base index disp =>
    obtain ⟨v, _, h⟩ := Option.bind_eq_some_iff.mp h
    cases h
    exact if_neg (List.ne_of_not_mem_cons hr)
  | store width base src disp | storeImm width base disp imm =>
    obtain ⟨u, hu, h⟩ := Option.bind_eq_some_iff.mp h
    cases h
    rw [State.regs_of_store hu]
  | locked op size base src disp =>
    obtain ⟨u, hu, h⟩ := Option.bind_eq_some_iff.mp h
    cases h
    exact State.regs_of_locked hu hr
  | shiftOne op size dst | shiftImm op size dst count | shiftCount op size dst =>
    obtain ⟨u, hu, h⟩ := Option.bind_eq_some_iff.mp h
    cases h
    exact State.regs_of_shift hu hr
  | mul size src =>
    cases h
    obtain ⟨hrax, hrdx⟩ := not_or.mp (mt List.mem_cons.mpr hr)
    exact (if_neg (List.ne_of_not_mem_cons hrdx)).trans (if_neg hrax)
  | div size src =>
    obtain ⟨u, hu, h⟩ := Option.bind_eq_some_iff.mp h
    cases h
    exact State.regs_of_divide hu hr
  | push reg =>
    obtain ⟨u, hu, h⟩ := Option.bind_eq_some_iff.mp h
    cases h
    exact State.regs_of_push hu (List.ne_of_not_mem_cons hr)
  | pop reg =>
    obtain ⟨u, hu, h⟩ := Option.bind_eq_some_iff.mp h
    cases h
    exact State.regs_of_pop hu hr
  | leave =>
    obtain ⟨u, hu, h⟩ := Option.bind_eq_some_iff.mp h
    cases h
    exact (State.regs_of_pop hu hr).trans (if_neg (List.ne_of_not_mem_cons hr))
  | cmpMem size base src disp | cmpMemImm size base disp imm | jcc cond rel =>
    obtain ⟨v, _, h⟩ := Option.bind_eq_some_iff.mp h
    cases h
    rfl
  | cmp size dst src | cmpImm size dst imm | test size dst src | testImm size dst imm | ret
  | jmp rel | call rel | jmpReg reg | nop extra =>
    cases h
    rfl

/-- Instructions in a row keep the registers that none of them writes. -/
theorem regs_of_execAll {instrs : List Instr} (h : execAll instrs s = some t)
    (hr : ∀ i ∈ instrs, r ∉ i.written) : t.regs r = s.regs r := by
  induction instrs generalizing s with
  | nil =>
    cases h
    rfl
  | cons i rest ih =>
    rw [execAll] at h
    split at h
    · rename_i u hu
      have hrest := ih h fun j hj => hr j (List.mem_cons_of_mem i hj)
      exact hrest.trans (i.regs_of_exec hu (hr i List.mem_cons_self))
    · cases h

end

end X64

end NativeForge
