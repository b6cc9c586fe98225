import NativeForge.Proofs.CompiledExecution
import NativeForge.Proofs.FinalPass

/-!
# Frames at tail calls

A tail call counts itself in the counter slot of its frame, takes the frame down and jumps past the
first bytes of the target, so that the target builds its own frame in the same place. That works if
the teardown takes back exactly what the prologue did behind those first bytes. Every instruction
involved moves the stack pointer by a fixed distance; the teardown moves it by the opposite of what
the rest of the prologue does, provided that the frame has a counter slot.
-/

namespace NativeForge

open X64 Virtual Target TailCall

namespace X64

/-- Instructions go on one behind the other exactly when the first does and the others do. -/
theorem execAll_cons_eq_some {i : Instr} {rest : List Instr} {s t : State} :
    execAll (i :: rest) s = some t ↔ ∃ u, i.exec s = some (u, .next) ∧ execAll rest u = some t := by
  rw [execAll]
  split
  · rename_i u hu
    rw [hu]
    simp
  · rename_i hnext
    constructor
    · intro h
      cases h
    · rintro ⟨u, hu, _⟩
      exact absurd hu (hnext u)

/-- Instructions in two parts go on one behind the other. -/
theorem execAll_append_eq_some {front back : List Instr} {s t : State} :
    execAll (front ++ back) s = some t ↔
      ∃ u, execAll front s = some u ∧ execAll back u = some t := by
  rw [execAll_append, Option.bind_eq_some_iff]

/-- The processor gets from one offset to a later one, and stays before it until it is there. -/
def Passes (code : List UInt8) (start stop : Nat) (s t : State) : Prop :=
  ∃ count, run code count start s = some (stop, t) ∧
    ∀ n < count, ∀ a u, run code n start s = some (a, u) → a < stop

/-- Every branch among the instructions leads behind their end. -/
def LeavesForward : List Instr → Prop
  | [] => True
  | i :: rest => (∀ s t distance, i.exec s = some (t, .jump distance) →
      (codeSize rest : Int) < distance) ∧ LeavesForward rest

/-- A processor that passes over instructions whose branches lead behind their end has executed
them one by one. -/
theorem Passes.execAll {code : List UInt8} {start : Nat} {instrs : List Instr} {s t : State}
    (hcode : HasCode code start instrs) (henc : Encodable instrs) (hfar : LeavesForward instrs)
    (h : Passes code start (start + codeSize instrs) s t) : X64.execAll instrs s = some t := by
  induction instrs generalizing start s with
  | nil =>
    obtain ⟨count, hrun, hbefore⟩ := h
    cases count with
    | zero =>
      cases hrun
      rfl
    | succ count =>
      have hlt := hbefore 0 (by omega) start s rfl
      rw [codeSize_nil] at hlt
      omega
  | cons i rest ih =>
    obtain ⟨count, hrun, hbefore⟩ := h
    have hi := henc i (by simp)
    have hsize := (size_bounds i).1
    have hleast : 1 ≤ i.leastSize := by
      unfold Instr.leastSize
      split <;> omega
    rw [codeSize_cons] at hrun hbefore
    cases count with
    | zero =>
      have hstart := congrArg Prod.fst (Option.some.inj hrun)
      dsimp only at hstart
      omega
    | succ count =>
      obtain ⟨⟨a, u⟩, hstep, hrun⟩ := Option.bind_eq_some_iff.mp hrun
      have hfirst : run code 1 start s = some (a, u) := by
        rw [run, hstep]
        rfl
      rw [step, hcode.fetch_eq hi] at hstep
      simp only [Option.bind_eq_bind, Option.bind_some] at hstep
      obtain ⟨⟨v, control⟩, hexec, hstep⟩ := Option.bind_eq_some_iff.mp hstep
      cases control with
      | next =>
        cases hstep
        have hright := HasCode.right (show HasCode code start ([i] ++ rest) from hcode)
        rw [codeSize_cons, codeSize_nil, Nat.add_zero] at hright
        have hpasses : Passes code (start + i.size) (start + i.size + codeSize rest) v t := by
          refine ⟨count, by rw [Nat.add_assoc]; exact hrun, fun n hn b w hb => ?_⟩
          rw [Nat.add_assoc]
          refine hbefore (n + 1) (by omega) b w ?_
          rw [Nat.add_comm, run_add, hfirst]
          exact hb
        exact execAll_cons_eq_some.mpr
          ⟨v, hexec, ih hright (fun j hj => henc j (by simp [hj])) hfar.2 hpasses⟩
      | jump distance =>
        dsimp only at hstep
        split at hstep
        · have hbeyond := hfar.1 s v distance hexec
          cases hstep
          cases count with
          | zero =>
            have hstop := congrArg Prod.fst (Option.some.inj hrun)
            dsimp only at hstop
            omega
          | succ count =>
            have hlt := hbefore 1 (by omega) _ _ hfirst
            omega
        · cases hstep
      | call distance => cases hstep
      | goto target => cases hstep
      | ret => cases hstep

/-- The shift of an instruction that sets a register and moves the stack pointer beside it. -/
def Reg.shiftBeside (r : Reg) (d : BitVec 64) : Option (BitVec 64) :=
  if r = .rsp ∨ r = .rbp then none else some d

/-- The shift of an operation on the stack pointer with a number. -/
def stackShiftBy (op : AluOp) (size : OpSize) (imm : SignedField) : Option (BitVec 64) :=
  match op, size with
  | .add, .wide => some (BitVec.ofInt 64 imm.value)
  | .sub, .wide => some (-BitVec.ofInt 64 imm.value)
  | _, _ => none

/-- How far an instruction moves the stack pointer, if it does so by a fixed distance and leaves
the frame pointer alone. -/
def Instr.stackShift : Instr → Option (BitVec 64)
  | .push _ => some (-8)
  | .pop r => r.shiftBeside 8
  | .aluImm op size r imm => if r = .rsp then stackShiftBy op size imm else r.shiftBeside 0
  | .alu _ _ r _ | .mov _ r _ | .load _ r _ _ | .loadIndexed r _ _ _ => r.shiftBeside 0
  | .store .. | .cmpImm .. | .cmpMem .. | .test .. | .jcc .. | .nop _ => some 0
  | _ => none

/-- How far instructions move the stack pointer together. -/
def stackShift : List Instr → Option (BitVec 64)
  | [] => some 0
  | i :: rest => do
    let first ← i.stackShift
    let others ← stackShift rest
    return first + others

/-- Instructions in two parts move the stack pointer one after the other. -/
theorem stackShift_append {front back : List Instr} {d e : BitVec 64}
    (hf : stackShift front = some d) (hb : stackShift back = some e) :
    stackShift (front ++ back) = some (d + e) := by
  induction front generalizing d with
  | nil =>
    cases hf
    rw [List.nil_append, hb]
    exact congrArg some (BitVec.zero_add e).symm
  | cons i front ih =>
    obtain ⟨first, hi, hf⟩ := Option.bind_eq_some_iff.mp hf
    obtain ⟨others, ho, hf⟩ := Option.bind_eq_some_iff.mp hf
    cases hf
    rw [List.cons_append, stackShift, hi, ih ho, BitVec.add_assoc]
    rfl

/-- A register that is set beside the stack pointer is neither of the two pointers. -/
theorem Reg.shiftBeside_eq_some {r : Reg} {d e : BitVec 64} (h : r.shiftBeside d = some e) :
    Reg.rsp ≠ r ∧ Reg.rbp ≠ r ∧ e = d := by
  unfold shiftBeside at h
  split at h
  · cases h
  · rename_i hr
    rw [not_or] at hr
    cases h
    exact ⟨Ne.symm hr.1, Ne.symm hr.2, rfl⟩

/-- An instruction with a fixed shift moves the stack pointer by it. -/
theorem Instr.exec_stackShift {i : Instr} {d : BitVec 64} (hd : i.stackShift = some d)
    {s t : State} {control : Control} (h : i.exec s = some (t, control)) :
    t.regs .rsp = s.regs .rsp + d ∧ t.regs .rbp = s.regs .rbp := by
  have hsame : ∀ {u : State}, u.regs = s.regs →
      u.regs .rsp = s.regs .rsp + 0 ∧ u.regs .rbp = s.regs .rbp := by
    intro u hu
    rw [hu]
    exact ⟨(BitVec.add_zero _).symm, rfl⟩
  have hother : ∀ {u : State} {r : Reg} {e : BitVec 64}, r.shiftBeside 0 = some e →
      (∀ x, x ≠ r → u.regs x = s.regs x) →
      u.regs .rsp = s.regs .rsp + e ∧ u.regs .rbp = s.regs .rbp := by
    intro u r e he hregs
    obtain ⟨hrsp, hrbp, rfl⟩ := Reg.shiftBeside_eq_some he
    exact ⟨(hregs .rsp hrsp).trans (BitVec.add_zero _).symm, hregs .rbp hrbp⟩
  cases i with
  | push r =>
    cases hd
    obtain ⟨u, hu, h⟩ := Option.bind_eq_some_iff.mp h
    cases h
    obtain ⟨v, hv, rfl⟩ := Option.map_eq_some_iff.mp hu
    unfold State.store at hv
    split at hv
    · cases hv
      exact ⟨BitVec.sub_eq_add_neg _ _, rfl⟩
    · cases hv
  | pop r =>
    obtain ⟨hrsp, hrbp, rfl⟩ := Reg.shiftBeside_eq_some hd
    obtain ⟨u, hu, h⟩ := Option.bind_eq_some_iff.mp h
    cases h
    obtain ⟨v, _, rfl⟩ := Option.map_eq_some_iff.mp hu
    simp [hrsp, hrbp]
  | aluImm op size r imm =>
    cases h
    by_cases hr : r = .rsp
    · subst hr
      change stackShiftBy op size imm = some d at hd
      unfold stackShiftBy at hd
      split at hd
      · cases hd
        simp [State.alu, AluOp.apply]
      · cases hd
        simp [State.alu, AluOp.apply, BitVec.sub_eq_add_neg]
      · cases hd
    · have hd : r.shiftBeside 0 = some d := (if_neg hr).symm.trans hd
      exact hother hd fun x hx => by simp [State.alu, hx]
  | alu op size r src =>
    cases h
    exact hother hd fun x hx => by simp [State.alu, hx]
  | mov size r src =>
    cases h
    exact hother hd fun x hx => by simp [hx]
  | load width r base disp =>
    obtain ⟨v, _, h⟩ := Option.bind_eq_some_iff.mp h
    cases h
    exact hother hd fun x hx => by simp [hx]
  | loadIndexed r base index disp =>
    obtain ⟨v, _, h⟩ := Option.bind_eq_some_iff.mp h
    cases h
    exact hother hd fun x hx => by simp [hx]
  | store width base src disp =>
    cases hd
    obtain ⟨u, hu, h⟩ := Option.bind_eq_some_iff.mp h
    cases h
    unfold State.store at hu
    split at hu
    · cases hu
      exact hsame rfl
    · cases hu
  | cmpMem size base src disp =>
    cases hd
    obtain ⟨v, _, h⟩ := Option.bind_eq_some_iff.mp h
    cases h
    exact hsame rfl
  | jcc cond rel =>
    cases hd
    obtain ⟨f, _, h⟩ := Option.bind_eq_some_iff.mp h
    cases h
    exact hsame rfl
  | cmpImm | test | nop =>
    cases hd
    cases h
    exact hsame rfl
  | _ => cases hd

/-- Instructions with a fixed shift move the stack pointer by it. -/
theorem execAll_stackShift {instrs : List Instr} {d : BitVec 64} (hd : stackShift instrs = some d)
    {s t : State} (h : execAll instrs s = some t) :
    t.regs .rsp = s.regs .rsp + d ∧ t.regs .rbp = s.regs .rbp := by
  induction instrs generalizing d s with
  | nil =>
    cases hd
    cases h
    exact ⟨(BitVec.add_zero _).symm, rfl⟩
  | cons i rest ih =>
    obtain ⟨first, hi, hd⟩ := Option.bind_eq_some_iff.mp hd
    obtain ⟨others, ho, hd⟩ := Option.bind_eq_some_iff.mp hd
    cases hd
    obtain ⟨u, hu, h⟩ := execAll_cons_eq_some.mp h
    obtain ⟨hsp, hbp⟩ := Instr.exec_stackShift hi hu
    obtain ⟨hsp', hbp'⟩ := ih ho h
    exact ⟨by rw [hsp', hsp, BitVec.add_assoc], hbp'.trans hbp⟩

/-- The instruction is one of those around a teardown that leave memory alone. -/
def Instr.sparesMemory : Instr → Bool
  | .pop _ | .aluImm .. | .mov .. | .load .. | .loadIndexed .. | .cmpImm .. | .cmpMem .. | .test ..
  | .jcc .. | .nop _ => true
  | _ => false

/-- Instructions that leave memory alone do so. -/
theorem Instr.mem_of_sparesMemory {i : Instr} (hi : i.sparesMemory = true) {s t : State}
    {control : Control} (h : i.exec s = some (t, control)) : t.mem = s.mem := by
  cases i with
  | pop r =>
    obtain ⟨u, hu, h⟩ := Option.bind_eq_some_iff.mp h
    cases h
    obtain ⟨v, _, rfl⟩ := Option.map_eq_some_iff.mp hu
    rfl
  | load | loadIndexed | cmpMem | jcc =>
    obtain ⟨v, _, h⟩ := Option.bind_eq_some_iff.mp h
    cases h
    rfl
  | aluImm | mov | cmpImm | test | nop =>
    cases h
    rfl
  | _ => cases hi

/-- Instructions in a row that leave memory alone do so. -/
theorem mem_of_sparesMemory {instrs : List Instr} (hi : instrs.all Instr.sparesMemory = true)
    {s t : State} (h : execAll instrs s = some t) : t.mem = s.mem := by
  induction instrs generalizing s with
  | nil =>
    cases h
    rfl
  | cons i rest ih =>
    rw [List.all_cons, Bool.and_eq_true] at hi
    obtain ⟨u, hu, h⟩ := execAll_cons_eq_some.mp h
    exact (ih hi.2 h).trans (Instr.mem_of_sparesMemory hi.1 hu)

/-- The instruction is one of those around a teardown that never branch. -/
def Instr.goesOn : Instr → Bool
  | .pop _ | .aluImm .. | .mov .. | .load .. | .loadIndexed .. | .store .. | .cmpImm .. | .cmpMem ..
  | .test .. | .nop _ => true
  | _ => false

/-- Instructions that never branch go on at the next one. -/
theorem Instr.next_of_goesOn {i : Instr} (hi : i.goesOn = true) {s t : State} {control : Control}
    (h : i.exec s = some (t, control)) : control = .next := by
  cases i with
  | pop | load | loadIndexed | store | cmpMem =>
    obtain ⟨v, _, h⟩ := Option.bind_eq_some_iff.mp h
    cases h
    rfl
  | aluImm | mov | cmpImm | test | nop =>
    cases h
    rfl
  | _ => cases hi

/-- Instructions that never branch may stand before others. -/
theorem leavesForward_append {front back : List Instr} (hf : front.all Instr.goesOn = true)
    (hb : LeavesForward back) : LeavesForward (front ++ back) := by
  induction front with
  | nil => exact hb
  | cons i front ih =>
    rw [List.all_cons, Bool.and_eq_true] at hf
    refine ⟨fun s t distance h => ?_, ih hf.2⟩
    cases Instr.next_of_goesOn hf.1 h

/-- Instructions that never branch stay among themselves. -/
theorem leavesForward_of_goesOn {instrs : List Instr} (h : instrs.all Instr.goesOn = true) :
    LeavesForward instrs := by
  rw [← List.append_nil instrs]
  exact leavesForward_append h trivial

/-- A branch that is not taken found its condition not to hold. -/
theorem Instr.exec_jcc_next {cond : Cond} {rel : SignedField} {s t : State}
    (h : (Instr.jcc cond rel).exec s = some (t, .next)) :
    ∃ f, s.flags = some f ∧ cond.holds f = false ∧ t = s := by
  obtain ⟨f, hf, h⟩ := Option.bind_eq_some_iff.mp h
  obtain ⟨rfl, hcontrol⟩ := Prod.mk.inj (Option.some.inj h)
  cases hholds : cond.holds f with
  | false => exact ⟨f, hf, hholds, rfl⟩
  | true =>
    rw [hholds] at hcontrol
    cases hcontrol

/-- A branch over more than what follows may stand before it. -/
theorem leavesForward_jcc {cond : Cond} {rel : SignedField} {back : List Instr}
    (hrel : (codeSize back : Int) < rel.value) (hb : LeavesForward back) :
    LeavesForward (.jcc cond rel :: back) := by
  refine ⟨fun s t distance h => ?_, hb⟩
  obtain ⟨f, _, h⟩ := Option.bind_eq_some_iff.mp h
  have hcontrol := (Prod.mk.inj (Option.some.inj h)).2
  split at hcontrol
  · cases hcontrol
    exact hrel
  · cases hcontrol

/-- The instruction that takes back a push, or a subtraction from the stack pointer. -/
def Instr.undo : Instr → Instr
  | .push r => .pop r
  | .aluImm .sub size r imm => .aluImm .add size r imm
  | i => i

end X64

namespace Frame

variable {f : Frame} {depth : UInt32}

/-- The first bytes of every program, which a tail call skips: a patchable site, the counter or two
bytes that do nothing, and the frame pointer. -/
def head (f : Frame) : List Instr :=
  nops 5 ++ (if f.counted && !f.isSubprogram then [.alu .xor .narrow .rax .rax] else nops 2) ++
    [.push .rbp, .mov .wide .rbp .rsp]

/-- Make room for the stack area. -/
def allocation (f : Frame) (depth : UInt32) : List Instr :=
  if f.stackDepth = 0 then [] else [.aluImm .sub .wide .rsp (.dword depth.toInt32)]

/-- The rest of the prologue: the stack area, the counter slot and the saved registers. -/
def setup (f : Frame) (depth : UInt32) : List Instr :=
  f.allocation depth ++ (if f.counted then [.push .rax] else []) ++ f.pushes

/-- The prologue in two parts. -/
theorem prologue_eq (f : Frame) (depth : UInt32) :
    f.prologue depth = f.head ++ f.setup depth := by
  unfold prologue head setup allocation
  simp only [List.append_assoc]

/-- A tail call skips the first part. -/
theorem codeSize_head (f : Frame) : codeSize f.head = tailCallSkip := by
  unfold head
  split <;> decide

/-- With a counter slot the teardown is the rest of the prologue undone, last step first. -/
theorem teardown_eq_undo (hcounted : f.counted = true) :
    f.teardown depth = ((f.setup depth).map Instr.undo).reverse := by
  unfold teardown setup allocation pops pushes
  rw [if_pos hcounted]
  split <;> simp [Instr.undo, Function.comp_def]

/-- Bytes between the frame pointer and the stack pointer, as a distance between addresses: the
stack area as its instruction has it, and what is pushed behind it. -/
def area (f : Frame) (depth : UInt32) : BitVec 64 :=
  BitVec.ofInt 64 depth.toInt32.toInt + 8 * BitVec.ofNat 64 f.pushed.length

/-- The slot that the counter is pushed to, for a frame pointer. -/
def counterSlot (depth : UInt32) (base : BitVec 64) : BitVec 64 :=
  base - BitVec.ofInt 64 depth.toInt32.toInt - 8

/-- Pushes move the stack pointer down by a word each. -/
theorem stackShift_pushes (rs : List Reg) :
    stackShift (rs.map .push) = some (-(8 * BitVec.ofNat 64 rs.length)) := by
  induction rs with
  | nil => rfl
  | cons r rest ih =>
    rw [List.map_cons, stackShift, ih]
    refine congrArg some ?_
    rw [List.length_cons, BitVec.ofNat_add]
    bv_omega

/-- Pops move the stack pointer up by a word each. -/
theorem stackShift_pops {rs : List Reg} (h : ∀ r ∈ rs, r ≠ .rsp ∧ r ≠ .rbp) :
    stackShift (rs.map .pop) = some (8 * BitVec.ofNat 64 rs.length) := by
  induction rs with
  | nil => rfl
  | cons r rest ih =>
    obtain ⟨hrsp, hrbp⟩ := h r (by simp)
    have hpop : (Instr.pop r).stackShift = some 8 := if_neg (by simp [hrsp, hrbp])
    rw [List.map_cons, stackShift, hpop, ih fun x hx => h x (by simp [hx])]
    refine congrArg some ?_
    rw [List.length_cons, BitVec.ofNat_add]
    bv_omega

/-- An empty stack area has depth zero. -/
theorem IsDepth.ofInt_eq_zero (hdepth : f.IsDepth depth) (hz : f.stackDepth = 0) :
    BitVec.ofInt 64 depth.toInt32.toInt = 0 := by
  have hzero : depth = 0 := UInt32.toNat_inj.mp (by rw [hdepth, hz]; rfl)
  rw [hzero]
  rfl

/-- Making room moves the stack pointer down by the stack area. -/
theorem stackShift_allocation (hdepth : f.IsDepth depth) :
    stackShift (f.allocation depth) = some (-BitVec.ofInt 64 depth.toInt32.toInt) := by
  unfold allocation
  split
  · rename_i hz
    rw [hdepth.ofInt_eq_zero hz]
    rfl
  · exact congrArg some (BitVec.add_zero _)

/-- The rest of the prologue moves the stack pointer down by the area. -/
theorem stackShift_setup (hdepth : f.IsDepth depth) :
    stackShift (f.setup depth) = some (-f.area depth) := by
  unfold setup
  rw [List.append_assoc, pushes_eq,
    stackShift_append (stackShift_allocation hdepth) (stackShift_pushes _)]
  unfold area
  refine congrArg some ?_
  bv_omega

/-- The teardown moves the stack pointer up by the stack area, the saved registers and one word
more, whether or not a counter was pushed. -/
theorem stackShift_teardown (hdepth : f.IsDepth depth)
    (hsaved : ∀ r ∈ f.saved, r ∈ VReg.calleeSaved) :
    stackShift (f.teardown depth) =
      some (BitVec.ofInt 64 depth.toInt32.toInt + 8 * BitVec.ofNat 64 (f.saved.length + 1)) := by
  have hcallee : ∀ r ∈ VReg.calleeSaved, r.native ≠ .rsp ∧ r.native ≠ .rbp := by decide
  have hpops : stackShift f.pops = some (8 * BitVec.ofNat 64 f.saved.length) := by
    have hmap : f.pops = (f.saved.reverse.map VReg.native).map .pop := by simp [pops]
    rw [hmap, stackShift_pops, List.length_map, List.length_reverse]
    intro r hr
    obtain ⟨v, hv, rfl⟩ := List.mem_map.mp hr
    exact hcallee v (hsaved v (List.mem_reverse.mp hv))
  have hcounter : stackShift [.pop .rax] = some 8 := rfl
  have harea : stackShift (if f.stackDepth = 0 then []
      else [.aluImm .add .wide .rsp (.dword depth.toInt32)]) =
      some (BitVec.ofInt 64 depth.toInt32.toInt) := by
    split
    · rename_i hz
      rw [hdepth.ofInt_eq_zero hz]
      rfl
    · exact congrArg some (BitVec.add_zero _)
  unfold teardown
  rw [stackShift_append (stackShift_append hpops hcounter) harea, BitVec.ofNat_add]
  refine congrArg some ?_
  bv_omega

/-- What the teardown gives back is the area, and a word too much if no counter was pushed. -/
theorem restored_eq (f : Frame) (depth : UInt32) (base : BitVec 64) :
    base - f.area depth +
        (BitVec.ofInt 64 depth.toInt32.toInt + 8 * BitVec.ofNat 64 (f.saved.length + 1)) =
      base + (if f.counted then 0 else 8) := by
  have hlength : f.pushed.length = f.saved.length + if f.counted then 1 else 0 := by
    unfold pushed
    split <;> simp
  have hword : BitVec.ofNat 64 (f.saved.length + 1) = BitVec.ofNat 64 f.saved.length + 1 :=
    BitVec.ofNat_add _ _
  unfold area
  rw [hlength]
  generalize BitVec.ofInt 64 depth.toInt32.toInt = size
  cases f.counted with
  | true =>
    rw [if_pos rfl, if_pos rfl, hword]
    generalize BitVec.ofNat 64 f.saved.length = count
    bv_omega
  | false =>
    rw [if_neg Bool.false_ne_true, if_neg Bool.false_ne_true, Nat.add_zero, hword]
    generalize BitVec.ofNat 64 f.saved.length = count
    bv_omega

/-- The teardown leaves memory alone. -/
theorem teardown_sparesMemory (f : Frame) (depth : UInt32) :
    (f.teardown depth).all Instr.sparesMemory = true := by
  unfold teardown pops
  split <;> simp [Instr.sparesMemory]

/-- The first part of the prologue saves the frame pointer and leaves both pointers there. -/
theorem exec_head {entry s : State} (h : execAll f.head entry = some s) :
    s.regs .rbp = entry.regs .rsp - 8 ∧ s.regs .rsp = s.regs .rbp := by
  unfold head at h
  obtain ⟨u, hstart, hbase⟩ := execAll_append_eq_some.mp h
  have hshift : stackShift (nops 5 ++ (if f.counted && !f.isSubprogram
      then [.alu .xor .narrow .rax .rax] else nops 2)) = some 0 := by
    split <;> rfl
  obtain ⟨hrsp, _⟩ := execAll_stackShift hshift hstart
  obtain ⟨v, hpush, hmove⟩ := execAll_cons_eq_some.mp hbase
  obtain ⟨w, hmove, hlast⟩ := execAll_cons_eq_some.mp hmove
  cases hlast
  cases hmove
  obtain ⟨hpushed, _⟩ := Instr.exec_stackShift (rfl : (Instr.push .rbp).stackShift = some (-8)) hpush
  have hframe : v.regs .rsp = entry.regs .rsp - 8 := by
    rw [hpushed, hrsp]
    bv_omega
  simp [hframe]

/-- The prologue leaves the stack pointer below the frame pointer by the area. -/
theorem exec_prologue_rsp (hdepth : f.IsDepth depth) {entry s : State}
    (h : execAll (f.head ++ f.setup depth) entry = some s) :
    s.regs .rbp = entry.regs .rsp - 8 ∧ s.regs .rsp = s.regs .rbp - f.area depth := by
  obtain ⟨t, hhead, hsetup⟩ := execAll_append_eq_some.mp h
  obtain ⟨hbase, hlevel⟩ := exec_head hhead
  obtain ⟨hsp, hbp⟩ := execAll_stackShift (stackShift_setup hdepth) hsetup
  refine ⟨hbp.trans hbase, ?_⟩
  rw [hsp, hbp, hlevel]
  exact (BitVec.sub_eq_add_neg _ _).symm

/-- The counter is pushed to its slot. -/
theorem exec_counterPush (hdepth : f.IsDepth depth) {entry s : State}
    (h : execAll (f.head ++ (f.allocation depth ++ [.push .rax])) entry = some s) :
    s.regs .rsp = counterSlot depth (s.regs .rbp) := by
  obtain ⟨t, hhead, hpush⟩ := execAll_append_eq_some.mp h
  have hone : stackShift [.push .rax] = some (-8#64) := rfl
  obtain ⟨hsp, hbp⟩ :=
    execAll_stackShift (stackShift_append (stackShift_allocation hdepth) hone) hpush
  rw [hsp, hbp, (exec_head hhead).2]
  unfold counterSlot
  bv_omega

/-- The rounded stack area as a signed number: from two gigabytes on it is negative. -/
theorem toInt_depth (depth : UInt32) : depth.toInt32.toInt =
    if depth.toNat < 2 ^ 31 then (depth.toNat : Int) else depth.toNat - 2 ^ 32 := by
  have hlt := depth.toNat_lt
  change depth.toBitVec.toInt = _
  rw [BitVec.toInt_eq_toNat_cond, UInt32.toNat_toBitVec]
  split
  · rw [if_pos (by omega)]
  · rw [if_neg (by omega)]
    rfl

/-- The displacement of the counter does not wrap, whatever the stack area is as a signed number. -/
theorem toInt_counterOffset (hdepth : f.IsDepth depth) :
    (counterOffset depth).toInt = -4 - depth.toInt32.toInt := by
  have hround : depth.toNat = roundUp f.stackDepth.toNat 8 := hdepth
  have hlt := depth.toNat_lt
  have hint := toInt_depth depth
  unfold roundUp at hround
  unfold counterOffset
  rw [Int32.toInt_sub, show (-4 : Int32).toInt = -4 from rfl, Int.bmod_eq_of_le]
  · split at hint <;> omega
  · split at hint <;> omega

/-- The counter is in the upper half of its slot. -/
theorem address_counter (hdepth : f.IsDepth depth) (base : BitVec 64) :
    base + BitVec.ofInt 64 (counterOffset depth).toInt = counterSlot depth base + 4 := by
  rw [toInt_counterOffset hdepth]
  unfold counterSlot
  have hsplit : BitVec.ofInt 64 (-4 - depth.toInt32.toInt) =
      -4 - BitVec.ofInt 64 depth.toInt32.toInt := by
    rw [Int.sub_eq_add_neg, BitVec.ofInt_add, BitVec.ofInt_neg, BitVec.ofInt_neg]
    exact (BitVec.sub_eq_add_neg _ _).symm
  rw [hsplit]
  bv_omega

/-- The value of the counter. -/
def counter (depth : UInt32) (s : State) : Nat :=
  Bytes.value (s.mem.read (counterSlot depth (s.regs .rbp) + 4) 4)

end Frame

namespace TailCall

open NativeForge.Frame

variable {f : Frame} {depth : UInt32}

/-- A tail call that is counted found its counter below the limit, and the only bytes that it wrote
are those of the counter. -/
theorem exec_counting (hdepth : f.IsDepth depth) {exhausted : SignedField} {s t : State}
    (h : execAll (counting depth exhausted) s = some t) :
    counter depth s < tailCallLimit ∧
      t.mem = s.mem.write (counterSlot depth (s.regs .rbp) + 4)
        (Bytes.littleEndian 4 (counter depth s + 1)) := by
  have haddress : ∀ u : State, u.regs .rbp = s.regs .rbp →
      u.address .rbp (SignedField.dword (counterOffset depth)).value =
        counterSlot depth (s.regs .rbp) + 4 := by
    intro u hu
    rw [State.address, hu]
    exact address_counter hdepth _
  have hlt : counter depth s < 2 ^ 32 := by
    have hvalue := value_lt (s.mem.read (counterSlot depth (s.regs .rbp) + 4) 4)
    rw [show (s.mem.read _ 4).length = 4 from rfl] at hvalue
    exact hvalue
  -- load, compare, the branch that is not taken, add, store
  obtain ⟨_, hload, h⟩ := execAll_cons_eq_some.mp h
  obtain ⟨v, hv, hload⟩ := Option.bind_eq_some_iff.mp hload
  cases hload
  rw [haddress s rfl] at hv
  have hread : v = counter depth s := by
    unfold State.load at hv
    split at hv
    · exact (Option.some.inj hv).symm
    · cases hv
  subst hread
  obtain ⟨_, hcompare, h⟩ := execAll_cons_eq_some.mp h
  cases hcompare
  obtain ⟨_, hbranch, h⟩ := execAll_cons_eq_some.mp h
  obtain ⟨flags, hflags, hholds, rfl⟩ := Instr.exec_jcc_next hbranch
  cases hflags
  have hvalue : (s.setReg .rax (BitVec.ofNat 64 (counter depth s))).value .narrow .rax =
      BitVec.ofNat 32 (counter depth s) := by
    rw [State.value, State.regs_setReg, if_pos rfl]
    exact BitVec.setWidth_ofNat_of_le (by decide) _
  have hlimit : counter depth s < 33 := by
    rw [hvalue] at hholds
    change (!decide ((BitVec.ofNat 32 (counter depth s)).toNat < 33)) = false at hholds
    rw [BitVec.toNat_ofNat, Nat.mod_eq_of_lt hlt] at hholds
    simpa using hholds
  obtain ⟨_, hadd, h⟩ := execAll_cons_eq_some.mp h
  cases hadd
  obtain ⟨_, hstore, h⟩ := execAll_cons_eq_some.mp h
  cases h
  obtain ⟨u, hu, hstore⟩ := Option.bind_eq_some_iff.mp hstore
  cases hstore
  rw [haddress _ (by simp [State.alu])] at hu
  unfold State.store at hu
  split at hu
  · cases hu
    have hsum : ((BitVec.ofNat 32 (counter depth s) + 1#32).setWidth 64).toNat =
        counter depth s + 1 := by
      bv_omega
    refine ⟨hlimit, ?_⟩
    rw [← hsum, ← hvalue]
    rfl
  · cases hu

/-- The way through a tail call, from its start to its jump: it counts the call and takes the frame
down, and every branch on it leads behind the jump. -/
structure Way (f : Frame) (depth : UInt32) (path : List Instr) : Prop where
  /-- The instructions can be read back. -/
  encodable : Encodable path
  /-- Branches lead behind the jump. -/
  forward : LeavesForward path
  /-- Beside the count, only the teardown moves the stack pointer, and nothing writes to memory. -/
  parts : ∃ before exhausted after, path = before ++ counting depth exhausted ++ after ∧
    stackShift before = some 0#64 ∧ before.all Instr.sparesMemory = true ∧
    stackShift after = stackShift (f.teardown depth) ∧ after.all Instr.sparesMemory = true

/-- What the processor does on its way through a tail call, from a state whose stack pointer is
where the prologue left it. -/
theorem Way.exec {path : List Instr} (hw : Way f depth path) (hdepth : f.IsDepth depth)
    (hsaved : ∀ r ∈ f.saved, r ∈ VReg.calleeSaved) {code : List UInt8} {start : Nat}
    (hcode : HasCode code start path) {s t : State}
    (hrsp : s.regs .rsp = s.regs .rbp - f.area depth)
    (h : Passes code start (start + codeSize path) s t) :
    t.regs .rbp = s.regs .rbp ∧ t.regs .rsp = t.regs .rbp + (if f.counted then 0 else 8) ∧
      counter depth s < tailCallLimit ∧
      t.mem = s.mem.write (counterSlot depth (s.regs .rbp) + 4)
        (Bytes.littleEndian 4 (counter depth s + 1)) := by
  have hexec := h.execAll hcode hw.encodable hw.forward
  obtain ⟨before, exhausted, after, rfl, hshift, hspares, hshift', hspares'⟩ := hw.parts
  rw [stackShift_teardown hdepth hsaved] at hshift'
  obtain ⟨v, hexec, hafter⟩ := execAll_append_eq_some.mp hexec
  obtain ⟨u, hbefore, hcount⟩ := execAll_append_eq_some.mp hexec
  have hmem := mem_of_sparesMemory hspares hbefore
  obtain ⟨hsp, hbp⟩ := execAll_stackShift hshift hbefore
  have hstill : stackShift (counting depth exhausted) = some 0#64 := rfl
  obtain ⟨hsp', hbp'⟩ := execAll_stackShift hstill hcount
  obtain ⟨hsp'', hbp''⟩ := execAll_stackShift hshift' hafter
  have hcounter : counter depth u = counter depth s := by
    unfold counter
    rw [hmem, hbp]
  obtain ⟨hlimit, hwritten⟩ := exec_counting hdepth hcount
  have hrbp : t.regs .rbp = s.regs .rbp := hbp''.trans (hbp'.trans hbp)
  refine ⟨hrbp, ?_, hcounter ▸ hlimit, ?_⟩
  · rw [hrbp, hsp'', hsp', hsp, hrsp, BitVec.add_zero, BitVec.add_zero]
    exact f.restored_eq depth _
  · rw [mem_of_sparesMemory hspares' hafter, hwritten, hmem, hbp, hcounter]

/-- The teardown never branches. -/
theorem teardown_goesOn (f : Frame) (depth : UInt32) :
    (f.teardown depth).all Instr.goesOn = true := by
  unfold teardown pops
  split <;> simp [Instr.goesOn]

/-- The teardown can be read back. -/
theorem encodable_teardown (f : Frame) (depth : UInt32) : Encodable (f.teardown depth) := by
  intro i hi
  have hgoes := List.all_eq_true.mp (teardown_goesOn f depth) i hi
  unfold teardown pops at hi
  simp only [List.mem_append, List.mem_map, List.mem_singleton] at hi
  rcases hi with (⟨r, _, rfl⟩ | rfl) | hi
  · trivial
  · trivial
  · split at hi
    · cases hi
    · rw [List.mem_singleton.mp hi]
      trivial

/-- What stands before the teardown while its tail call leads to a target: the bypass of a direct
tail call is open then. -/
def opening (id : Int32) : List Instr := if id = 0 then [] else [.nop 4]

/-- The last instruction of a tail call as it is emitted: the jump of the indirect form, or the
patchable field that becomes one. -/
def transfer (id : Int32) : Instr := if id = 0 then .jmpReg .rcx else .nop 4

/-- An indirect tail call: checks and the count, the teardown, and a jump to the target past its
first bytes. -/
theorem indirect_way {abi : Abi} {code : List Instr} (hdepth : f.IsDepth depth)
    (hsaved : ∀ r ∈ f.saved, r ∈ VReg.calleeSaved) (h : indirect f depth abi = .ok code) :
    ∃ guard, code = guard ++ (f.teardown depth ++ landing abi) ++ [.jmpReg .rcx] ∧
      Way f depth (guard ++ (f.teardown depth ++ landing abi)) := by
  obtain ⟨outOfBounds, exhausted, empty, rfl, hempty, hexhausted, hbounds⟩ := indirect_eq_ok h
  have hshift := stackShift_teardown hdepth hsaved
  have henc := encodable_teardown f depth
  have hlookup := codeSize_lookup abi.arraySlotsOffset
  have hjump : (Instr.jmpReg .rcx).size = 2 := rfl
  refine ⟨_, (List.append_assoc _ _ [Instr.jmpReg .rcx]).symm, ?_, ?_, ?_⟩
  · simp only [counting, checkCount, bumpCount, landing, encodable_append, encodable_cons, henc,
      encodable_nil, and_true, true_and, Instr.HasOwnEncoding]
    decide
  · -- each of the three branches leads past what is left and past the jump
    have hlast : LeavesForward (f.teardown depth ++ landing abi) :=
      leavesForward_append (teardown_goesOn f depth) (leavesForward_of_goesOn rfl)
    simp only [counting, landing, List.append_assoc, List.cons_append, List.nil_append] at hlast ⊢
    refine @leavesForward_append [_, _] _ rfl (leavesForward_jcc ?_
      (leavesForward_append rfl (leavesForward_jcc ?_ (leavesForward_append rfl
        (@leavesForward_append [_, _] _ rfl (leavesForward_jcc ?_ hlast))))))
    all_goals
      rw [SignedField.value]
      simp only [codeSize_append, codeSize_cons, codeSize_nil, codeSize_checkCount,
        codeSize_bumpCount, size_jcc_byte, landing] at hempty hlookup ⊢
      omega
  · refine ⟨_, .byte exhausted, [.loadIndexed .rcx .rsi .rdx abi.arraySlotsOffset,
      .test .wide .rcx .rcx, .jcc .equal (.byte empty)] ++ (f.teardown depth ++ landing abi), by
        rw [List.append_assoc], rfl, rfl, ?_, ?_⟩
    · have hfront : stackShift [.loadIndexed .rcx .rsi .rdx abi.arraySlotsOffset,
        .test .wide .rcx .rcx, .jcc .equal (.byte empty)] = some 0#64 := rfl
      have hback : stackShift (landing abi) = some 0#64 := rfl
      rw [stackShift_append hfront (stackShift_append hshift hback), hshift, BitVec.add_zero,
        BitVec.zero_add]
    · rw [List.all_append, List.all_append, teardown_sparesMemory]
      rfl

/-- A direct tail call: the count, the bypass, the teardown and the target field. -/
theorem direct_way {descriptor : Nat} {code : List Instr} {site : DirectSite}
    (hdepth : f.IsDepth depth) (hsaved : ∀ r ∈ f.saved, r ∈ VReg.calleeSaved)
    (h : direct f depth descriptor = .ok (code, site)) :
    ∃ guard rel, code = guard ++ [.jmp (.dword rel)] ++ f.teardown depth ++ [.nop 4] ∧
      codeSize guard = 20 ∧ Way f depth (guard ++ [.nop 4] ++ f.teardown depth) := by
  obtain ⟨exhausted, rfl, _, hexhausted⟩ := direct_eq_ok h
  have hnop : (Instr.nop 4).size = siteSize := rfl
  have hshift := stackShift_teardown hdepth hsaved
  refine ⟨counting depth (.byte exhausted), _, rfl, codeSize_counting depth exhausted, ?_, ?_, ?_⟩
  · simp only [counting, checkCount, bumpCount, encodable_append, encodable_cons,
      encodable_teardown f depth, encodable_nil, and_true, Instr.HasOwnEncoding]
    decide
  · have hlast : LeavesForward ([.nop 4] ++ f.teardown depth) :=
      leavesForward_append rfl (leavesForward_of_goesOn (teardown_goesOn f depth))
    simp only [counting, List.append_assoc, List.cons_append, List.nil_append] at hlast ⊢
    refine leavesForward_append rfl (leavesForward_jcc ?_ (leavesForward_append rfl hlast))
    rw [SignedField.value, hexhausted, codeSize_append, codeSize_bumpCount, codeSize_cons, hnop,
      siteSize]
    omega
  · refine ⟨[], .byte exhausted, [.nop 4] ++ f.teardown depth, by simp, rfl, rfl, ?_, ?_⟩
    · have hfront : stackShift [.nop 4] = some 0#64 := rfl
      rw [stackShift_append hfront hshift, hshift, BitVec.zero_add]
    · rw [List.all_append, teardown_sparesMemory]
      rfl

/-- The parts of a tail call: checks and the count, the bypass of a direct one, the teardown, what
finds the target of an indirect one, and the jump. The way leads through them with the bypass
open. -/
structure Parts (f : Frame) (depth : UInt32) (id : Int32) (code guard landing : List Instr) :
    Prop where
  /-- The instructions in a row. -/
  code_eq : ∃ bypass, codeSize bypass = codeSize (opening id) ∧ (id = 0 → bypass = opening id) ∧
    code = guard ++ bypass ++ (f.teardown depth ++ landing) ++ [transfer id]
  /-- The bypass of a direct tail call is where its site says. -/
  size_guard : id ≠ 0 → codeSize guard = 20
  /-- The way to the jump. -/
  way : Way f depth (guard ++ opening id ++ (f.teardown depth ++ landing))

/-- Both forms of tail calls have these parts. -/
theorem parts_of_tailCall {p : Pass} {id : Int32} {fragment : Fragment}
    (hdepth : p.frame.IsDepth depth) (hsaved : ∀ r ∈ p.frame.saved, r ∈ VReg.calleeSaved)
    (h : p.tailCall depth id = .ok fragment) :
    ∃ guard landing, Parts p.frame depth id fragment.code guard landing := by
  obtain ⟨hid, code, hc, rfl⟩ | ⟨hid, _, code, site, hc, rfl⟩ := Pass.tailCall_eq_ok h
  · obtain ⟨guard, rfl, hway⟩ := indirect_way hdepth hsaved hc
    refine ⟨guard, landing p.abi, ⟨[], ?_, fun _ => ?_, ?_⟩, fun hne => absurd hid hne, ?_⟩
    · rw [opening, if_pos hid]
    · rw [opening, if_pos hid]
    · rw [transfer, if_pos hid, List.append_nil]
    · rw [opening, if_pos hid, List.append_nil]
      exact hway
  · obtain ⟨guard, rel, rfl, hsize, hway⟩ := direct_way hdepth hsaved hc
    refine ⟨guard, [], ⟨[.jmp (.dword rel)], ?_, fun h => absurd h hid, ?_⟩, fun _ => hsize, ?_⟩
    · rw [opening, if_neg hid]
      rfl
    · rw [transfer, if_neg hid, List.append_nil]
    · rw [opening, if_neg hid, List.append_nil]
      exact hway

end TailCall

/-- A slot that means something on its own opens no wide load. -/
theorem Virtual.Insn.not_isWideLoad_of_operation {i : Insn} {operation : Operation}
    (h : i.operation = .ok operation) : i.isWideLoad = false := by
  rw [Bool.eq_false_iff]
  intro hw
  have hcls : i.cls = 0 := by
    rw [Insn.cls, beq_iff_eq.mp hw]
    rfl
  simp [Insn.operation, hcls, Insn.unknown] at h

namespace Emits

variable {source : Source} {tables : Array Table} {e : Emission} {done : Installation}
  {c : CompiledProgram}

/-- Part of the code of a step stands in the code of the compiled program, if the step's own
patchable fields are elsewhere. -/
theorem hasCode_part (he : Emits source tables e done c) {before after : List Step} {s : Step}
    {depth : UInt32} {operation : Operation} {epilogue : Option Nat} {fragment : Fragment}
    (hs : source.program.steps = before ++ s :: after)
    (hh : e.out.Holds e.pass depth before s operation epilogue fragment)
    {front part back : List Instr} (hcode : fragment.code = front ++ part ++ back)
    (hfree : ∀ id, operation = .tailCall id → id ≠ 0 →
      (codeSize (front ++ part) ≤ 20 ∨ 20 + siteSize ≤ codeSize front) ∧ siteSize ≤ codeSize back) :
    HasCode c.code (c.offset (slotCount before) + codeSize front) part := by
  have hslots : ∀ x ∈ source.program.steps, 1 ≤ x.slots := fun x hx => one_le_slots hx
  have hone := hslots s (by simp [hs])
  have hstop := hh.stop_eq s.slots hone (Nat.le_refl _)
  have hsizes : codeSize fragment.code = codeSize front + codeSize part + codeSize back := by
    rw [hcode, codeSize_append, codeSize_append]
  obtain ⟨_, hmono, hend, _⟩ := he.offset_map
  have hle := hmono _ _ (Program.slots_le hs) (Nat.le_refl _)
  obtain ⟨rest, hrest⟩ := hh.code_eq
  have hpart : e.out.codeFrom (e.out.offset (slotCount before) + codeSize front) =
      encodeAll part ++ (encodeAll back ++ rest) := by
    rw [PassOutput.codeFrom, ← List.drop_drop, ← PassOutput.codeFrom, hrest, hcode,
      encodeAll_append, encodeAll_append, List.append_assoc, List.append_assoc,
      List.drop_left' (length_encodeAll front)]
  rw [← he.out_offset] at hend hle ⊢
  refine he.hasCode (he.holdsAt_of_codeFrom hpart fun d hd i h1 h2 hi => ?_) ?_
  · rw [length_encodeAll] at h2
    obtain ⟨_, _, fragment', site, hh', hsite, rfl⟩ := PassOutput.own_of_covers he.run_eq hslots hs
      hh hd (by omega) (by omega) hi
    obtain ⟨id, rfl, hid, _, hdirect⟩ := Pass.lower_direct hh'.lowered hsite
    have hbypass := bypassOffset_eq hdirect
    obtain ⟨_, htarget⟩ := direct_fields hdirect
    have hstop' := hh'.stop_eq s.slots hone (Nat.le_refl _)
    obtain ⟨hfront, hback⟩ := hfree id rfl hid
    rw [codeSize_append] at hfront
    unfold DirectSite.Covers DirectSite.shift at hi
    dsimp only at hi
    omega
  · rw [he.out_offset] at hle hend
    rw [← hend]
    rw [he.out_offset, he.out_offset] at hstop
    rw [he.out_offset]
    omega

/-- A slot of a compiled program that means an operation stands in the output of the final pass as
this operation was lowered, from its offset up to the offset of the next slot. -/
theorem holds_visited {config : Config} {program : Program} {resolve : CallSite → Option Address}
    (he : Emits (sourceOf config program resolve) tables e done c) {k : Nat} {i : Insn}
    {operation : Operation} (hv : program.Visits k i) (hop : i.operation = .ok operation) :
    ∃ before s after depth epilogue fragment, program.steps = before ++ s :: after ∧
      slotCount before = k ∧ e.pass.frame = Frame.ofProgram program ∧
      (Frame.ofProgram program).IsDepth depth ∧
      e.out.Holds e.pass depth before s operation epilogue fragment ∧
      c.offset (k + 1) = c.offset k + codeSize fragment.code := by
  obtain ⟨before, s, after, hs, rfl, _, hone, ho⟩ := hv.split (Insn.not_isWideLoad_of_operation hop)
  have hslots : ∀ x ∈ program.steps, 1 ≤ x.slots := fun x hx => one_le_slots hx
  obtain ⟨depth, operation', epilogue, fragment, hdepth, hh⟩ :=
    PassOutput.holds_of_run he.run_eq hs hslots
  obtain rfl := Except.ok.inj ((hop.symm.trans ho.symm).trans hh.operation_eq)
  obtain ⟨padding, hp⟩ := he.pass_eq
  have hframe : e.pass.frame = Frame.ofProgram program := by rw [hp]; rfl
  have hstop := hh.stop_eq 1 (Nat.le_refl _) (by omega)
  rw [he.out_offset, he.out_offset] at hstop
  rw [hframe] at hdepth
  exact ⟨before, s, after, depth, epilogue, fragment, hs, rfl, hframe, hdepth, hh, hstop⟩

/-- The parts of a tail call stand in the code of its program, at the offset of its slot. -/
theorem tailCall_parts {config : Config} {program : Program} {resolve : CallSite → Option Address}
    (he : Emits (sourceOf config program resolve) tables e done c) {k : Nat} {i : Insn} {id : Int32}
    (hv : program.Visits k i) (hop : i.operation = .ok (.tailCall id)) :
    ∃ depth code guard landing, (Frame.ofProgram program).IsDepth depth ∧
      Parts (Frame.ofProgram program) depth id code guard landing ∧
      HasCode c.code (c.offset k) guard ∧
      HasCode c.code (c.offset k + codeSize (guard ++ opening id))
        ((Frame.ofProgram program).teardown depth ++ landing) ∧
      (id = 0 → HasCode c.code (c.offset k) code) ∧
      c.offset (k + 1) = c.offset k + codeSize code := by
  obtain ⟨before, s, after, depth, epilogue, fragment, hs, rfl, hframe, hdepth, hh, hstop⟩ :=
    he.holds_visited hv hop
  have hsaved : ∀ r ∈ e.pass.frame.saved, r ∈ VReg.calleeSaved := by
    rw [hframe]
    exact fun r hr => (List.mem_filter.mp hr).1
  obtain ⟨guard, landing, hparts⟩ := parts_of_tailCall (hframe ▸ hdepth) hsaved hh.lowered
  rw [hframe] at hparts
  obtain ⟨bypass, hbypass, _, hcode⟩ := hparts.code_eq
  have hfields : ∀ id' : Int32, Operation.tailCall id = .tailCall id' → id' ≠ 0 →
      codeSize guard = 20 ∧ codeSize bypass = siteSize ∧ codeSize [transfer id] = siteSize := by
    rintro id' ⟨⟩ hid
    refine ⟨hparts.size_guard hid, ?_, ?_⟩
    · rw [hbypass, opening, if_neg hid]
      rfl
    · rw [transfer, if_neg hid]
      rfl
  refine ⟨depth, fragment.code, guard, landing, hdepth, hparts, ?_, ?_, fun hid => ?_, hstop⟩
  · refine he.hasCode_part hs hh (show fragment.code = [] ++ guard ++ (bypass ++
      ((Frame.ofProgram program).teardown depth ++ landing) ++ [transfer id]) by simp [hcode])
      fun id' hid' hne => ?_
    obtain ⟨hguard, _, htransfer⟩ := hfields id' hid' hne
    rw [List.nil_append, codeSize_append _ [transfer id]]
    omega
  · rw [codeSize_append, ← hbypass, ← codeSize_append]
    refine he.hasCode_part hs hh hcode fun id' hid' hne => ?_
    obtain ⟨hguard, hopen, htransfer⟩ := hfields id' hid' hne
    rw [codeSize_append guard]
    omega
  · refine he.hasCode_part hs hh (show fragment.code = [] ++ fragment.code ++ [] by simp)
      fun id' hid' hne => ?_
    cases hid'
    exact absurd hid hne

end Emits

/-- A tail call with its frame taken down, up to its jump and with the bypass of a direct one
open. -/
def TailCall.unwinding (f : Frame) (depth : UInt32) (id : Int32) (guard landing : List Instr) :
    List Instr :=
  guard ++ opening id ++ (((f.setup depth).map Instr.undo).reverse ++ landing)

/-- A tail call in a slot of a compiled program takes back what the prologue did behind the bytes
that a tail call skips. -/
structure TakesBack (f : Frame) (depth : UInt32) (c : CompiledProgram) (k : Nat) (id : Int32)
    (guard landing : List Instr) : Prop where
  /-- The code starts with the prologue. -/
  prologue : HasCode c.code 0 (f.head ++ f.setup depth)
  /-- Its first part has eleven bytes. -/
  skipped : codeSize f.head = 11
  /-- Its second part makes room and pushes the counter and the saved registers. -/
  setup_eq : f.setup depth = f.allocation depth ++ [.push .rax] ++ f.pushes
  /-- Behind the prologue the stack pointer is below the frame pointer by the area. -/
  entered : ∀ entry s, execAll (f.head ++ f.setup depth) entry = some s →
    s.regs .rbp = entry.regs .rsp - 8 ∧ s.regs .rsp = s.regs .rbp - f.area depth
  /-- The counter is pushed to the counter slot. -/
  pushed : ∀ entry s, execAll (f.head ++ (f.allocation depth ++ [.push .rax])) entry = some s →
    s.regs .rsp = Frame.counterSlot depth (s.regs .rbp)
  /-- The slot starts with the checks and the count. -/
  guarded : HasCode c.code (c.offset k) guard
  /-- Behind them, and behind the bypass of a direct tail call, the second part of the prologue is
  undone, last step first. -/
  undone : HasCode c.code (c.offset k + codeSize (guard ++ opening id))
    (((f.setup depth).map Instr.undo).reverse ++ landing)
  /-- An indirect tail call ends in its jump. -/
  jumps : id = 0 → HasCode c.code (c.offset k) (unwinding f depth id guard landing ++ [.jmpReg .rcx])
  /-- The jump or the target field ends the slot. -/
  stop_eq : c.offset (k + 1) =
    c.offset k + codeSize (unwinding f depth id guard landing) + (transfer id).size
  /-- At the jump the stack pointer is the frame pointer. On the way the counter was below its limit
  and was counted up, and no other byte was written. -/
  levelled : ∀ code s t, HasCode code (c.offset k) (unwinding f depth id guard landing) →
    s.regs .rsp = s.regs .rbp - f.area depth →
    Passes code (c.offset k) (c.offset k + codeSize (unwinding f depth id guard landing)) s t →
    t.regs .rbp = s.regs .rbp ∧ t.regs .rsp = t.regs .rbp ∧
      Frame.counter depth s < tailCallLimit ∧
      t.mem = s.mem.write (Frame.counterSlot depth (s.regs .rbp) + 4)
        (Bytes.littleEndian 4 (Frame.counter depth s + 1))

/-- In a program whose frame has a counter slot, every tail call takes the frame down to where the
prologue of its target expects it. -/
theorem tailCall_takesBack {config : Config} {program : Program} {c : CompiledProgram} {k : Nat}
    {i : Insn} {id : Int32} (h : Compiles config program c)
    (hcounted : program.tailCallReachable = true ∨ ∃ j ∈ program.insns, j.code = 0xF5)
    (hv : program.Visits k i) (hop : i.operation = .ok (.tailCall id)) :
    ∃ depth guard landing, (Frame.ofProgram program).IsDepth depth ∧
      TakesBack (Frame.ofProgram program) depth c k id guard landing := by
  obtain ⟨resolve, tables, e, done, he⟩ := h.emits
  obtain ⟨depth, code, guard, landing, hdepth, hparts, hguard, hundone, hwhole, hstop⟩ :=
    he.tailCall_parts hv hop
  have hpushed : (Frame.ofProgram program).counted = true := by
    rw [Frame.ofProgram, Bool.or_eq_true, List.any_eq_true]
    exact hcounted.imp_right fun ⟨j, hj, hcode⟩ => ⟨j, hj, beq_iff_eq.mpr hcode⟩
  have hsaved : ∀ r ∈ (Frame.ofProgram program).saved, r ∈ VReg.calleeSaved :=
    fun r hr => (List.mem_filter.mp hr).1
  have hundo := @Frame.teardown_eq_undo _ depth hpushed
  have hway := hparts.way
  obtain ⟨bypass, hbypass, hopen, hcode⟩ := hparts.code_eq
  obtain ⟨_, hmono, hend, depth', hdepth', hzero, hprologue⟩ := he.offset_map
  obtain rfl : depth' = depth := UInt32.toNat_inj.mp (hdepth'.trans hdepth.symm)
  have hle := hmono 0 program.size (Nat.zero_le _) (Nat.le_refl _)
  have hstart := he.hasCode hprologue (by rw [Nat.zero_add, ← hzero, ← hend]; exact hle)
  rw [hundo] at hway hcode hundone
  refine ⟨depth', guard, landing, hdepth, ?_⟩
  constructor
  case prologue =>
    rw [← Frame.prologue_eq]
    exact hstart
  case skipped => exact Frame.codeSize_head _
  case setup_eq => rw [Frame.setup, if_pos hpushed]
  case entered => exact fun entry s hexec => Frame.exec_prologue_rsp hdepth hexec
  case pushed => exact fun entry s hexec => Frame.exec_counterPush hdepth hexec
  case guarded => exact hguard
  case undone => exact hundone
  case jumps =>
    intro hid
    rw [TailCall.unwinding, ← hopen hid]
    rw [transfer, if_pos hid] at hcode
    rw [← hcode]
    exact hwhole hid
  case stop_eq =>
    rw [hstop, hcode]
    unfold TailCall.unwinding
    simp only [codeSize_append, codeSize_cons, codeSize_nil, hbypass]
    omega
  case levelled =>
    intro code s t hcode hrsp hpasses
    obtain ⟨hrbp, hlevel, hcounter⟩ := hway.exec hdepth hsaved hcode hrsp hpasses
    rw [if_pos hpushed] at hlevel
    exact ⟨hrbp, hlevel.trans (BitVec.add_zero _), hcounter⟩

/-- A tail call with a register as its source and one through a descriptor, behind a slot that uses
a saved register. -/
def chainedProgram : Program where
  name := "chained"
  insns := [⟨0xB7, 6, 0, 0, 1⟩, ⟨0xFD, 0, 0, 0, 0⟩, ⟨0xF5, 0, 0, 0, 1⟩, ⟨0x95, 0, 0, 0, 0⟩]
  stackDepth := 20
  descriptors := [{ table := 0, key := 0 }]

/-- A state at a tail call through an array with one entry, with the stack pointer so far below the
frame pointer. -/
def arrayState (area : BitVec 64) : State where
  regs := fun r => if r = .rbp then 0x10000000000 else if r = .rsp then 0x10000000000 - area
    else if r = .rsi then 0x2000 else 0
  flags := none
  mem := ⟨fun a => if a = 0x2000 then 1 else if a = 0x2009 then 0x30 else 0, fun _ => true⟩

/-- No step of a run gets to an offset or beyond it. -/
def staysBefore (code : List UInt8) (count start stop : Nat) (s : State) : Bool :=
  (List.range count).all fun n => (run code n start s).all fun p => p.1 < stop

/-- A run that stays before an offset and ends there passes to it. -/
theorem X64.passes_of_staysBefore {code : List UInt8} {count start stop : Nat} {s t : State}
    (hrun : run code count start s = some (stop, t))
    (h : staysBefore code count start stop s = true) : Passes code start stop s t := by
  refine ⟨count, hrun, fun n hn a u hu => ?_⟩
  have hn := List.all_eq_true.mp h n (List.mem_range.mpr hn)
  rw [hu] at hn
  exact decide_eq_true_iff.mp hn

/-- The tail call in the second slot takes the frame down, and a run gets through it to its jump
with a stack pointer that is the frame pointer. -/
theorem tailCall_takesBack_chainedProgram :
    ∃ c depth guard landing, Compiles {} chainedProgram c ∧
      chainedProgram.Visits 1 ⟨0xFD, 0, 0, 0, 0⟩ ∧
      TakesBack (Frame.ofProgram chainedProgram) depth c 1 0 guard landing ∧
      ∃ t, Passes c.code (c.offset 1) 82 (arrayState 40) t ∧ HasCode c.code 82 [.jmpReg .rcx] ∧
        t.regs .rsp = (arrayState 40).regs .rbp := by
  have hc : ((compile {} chainedProgram (fun _ => none) #[{ maxEntries := 1 }] fun size =>
      .ok (.blank 0x1000 size)).program?.map fun c => (c.offset 1, c.offset 2,
        (run c.code 16 (c.offset 1) (arrayState 40)).map Prod.fst,
        staysBefore c.code 16 (c.offset 1) 82 (arrayState 40))) =
        some (25, 84, some 82, true) := by
    decide +kernel
  obtain ⟨c, hc, hfacts⟩ := Option.map_eq_some_iff.mp hc
  obtain ⟨hstart, hnext, hrun, hstays⟩ : c.offset 1 = 25 ∧ c.offset 2 = 84 ∧
      (run c.code 16 (c.offset 1) (arrayState 40)).map Prod.fst = some 82 ∧
      staysBefore c.code 16 (c.offset 1) 82 (arrayState 40) = true := by
    simpa only [Prod.mk.injEq] using hfacts
  obtain ⟨⟨_, t⟩, hrun, rfl⟩ := Option.map_eq_some_iff.mp hrun
  have hpasses := passes_of_staysBefore hrun hstays
  have hcompiles : Compiles {} chainedProgram c := .atOnce (Compilation.program?_eq_some.mp hc)
  have hv : chainedProgram.Visits 1 ⟨0xFD, 0, 0, 0, 0⟩ :=
    ⟨⟨_, List.mem_cons_of_mem _ (List.mem_cons_self ..), rfl⟩, rfl⟩
  have hop : (⟨0xFD, 0, 0, 0, 0⟩ : Insn).operation = .ok (.tailCall 0) := rfl
  obtain ⟨depth, guard, landing, hdepth, htakes⟩ :=
    tailCall_takesBack hcompiles (.inr ⟨⟨0xF5, 0, 0, 0, 1⟩, by decide, rfl⟩) hv hop
  obtain rfl : depth = 24 := UInt32.toNat_inj.mp hdepth
  have hsize : (transfer 0).size = 2 := rfl
  have hstop : c.offset 1 +
      codeSize (unwinding (Frame.ofProgram chainedProgram) 24 0 guard landing) = 82 := by
    have hend : c.offset 2 = _ := htakes.stop_eq
    omega
  have hjump := htakes.jumps rfl
  obtain ⟨hbase, hlevel, _⟩ := htakes.levelled c.code (arrayState 40) t hjump.left (by decide)
    (by rw [hstop]; exact hpasses)
  have hlast := hjump.right
  rw [hstop] at hlast
  exact ⟨c, 24, guard, landing, hcompiles, hv, htakes, t, hpasses, hlast, hlevel.trans hbase⟩

/-- A program whose only tail call has a register as its source. -/
def uncountedProgram : Program where
  name := "uncounted"
  insns := [⟨0xFD, 0, 0, 0, 0⟩, ⟨0x95, 0, 0, 0, 0⟩]

/-- The frame of this program has no counter slot, and its prologue ends behind the bytes that a tail
call skips. The tail call counts below the stack all the same and pops a word that was never pushed:
at its jump the stack pointer is a word above the frame pointer. -/
theorem uncounted_tailCall_overshoots :
    ∃ c, Compiles {} uncountedProgram c ∧ uncountedProgram.Visits 0 ⟨0xFD, 0, 0, 0, 0⟩ ∧
      (⟨0xFD, 0, 0, 0, 0⟩ : Insn).operation = .ok (.tailCall 0) ∧
      (Frame.ofProgram uncountedProgram).setup 0 = [] ∧ c.offset 0 = 11 ∧
      c.code.extract 51 52 = encodeAll [.pop .rax] ∧
      c.code.extract 60 62 = encodeAll [.jmpReg .rcx] ∧
      ∃ t, run c.code 18 0 (arrayState 0) = some (60, t) ∧ t.regs .rsp = t.regs .rbp + 8 := by
  have hc : ((compile {} uncountedProgram (fun _ => none) #[] fun size =>
      .ok (.blank 0x1000 size)).program?.map fun c => (c.offset 0, c.code.extract 51 52,
        c.code.extract 60 62, (run c.code 18 0 (arrayState 0)).map fun p =>
          (p.1, decide (p.2.regs .rsp = p.2.regs .rbp + 8)))) =
        some (11, encodeAll [.pop .rax], encodeAll [.jmpReg .rcx], some (60, true)) := by
    decide +kernel
  obtain ⟨c, hc, hfacts⟩ := Option.map_eq_some_iff.mp hc
  obtain ⟨hstart, hpop, hjump, hrun⟩ : c.offset 0 = 11 ∧
      c.code.extract 51 52 = encodeAll [.pop .rax] ∧
      c.code.extract 60 62 = encodeAll [.jmpReg .rcx] ∧ (run c.code 18 0 (arrayState 0)).map
        (fun p => (p.1, decide (p.2.regs .rsp = p.2.regs .rbp + 8))) = some (60, true) := by
    simpa only [Prod.mk.injEq] using hfacts
  obtain ⟨⟨a, t⟩, hrun, hend⟩ := Option.map_eq_some_iff.mp hrun
  obtain ⟨rfl, hrsp⟩ := Prod.mk.inj hend
  exact ⟨c, .atOnce (Compilation.program?_eq_some.mp hc),
    ⟨⟨_, List.mem_cons_self .., rfl⟩, rfl⟩, rfl, rfl, hstart, hpop, hjump, t, hrun,
    decide_eq_true_iff.mp hrsp⟩

end NativeForge
