import NativeForge.Proofs.SavedRegisters

/-!
# Alignment of the stack at calls

The calling convention has the stack pointer eight bytes off a multiple of sixteen where a function
is entered, and at a multiple of sixteen where it makes a call. The prologue of a program pushes the
frame pointer and builds a frame of whole words below it: the stack area, the counter and the saved
registers. Nothing else moves the stack pointer from there to a call. So a program of an even number
of words makes its calls as the convention has it, and a program of an odd number of words makes all
of them eight bytes off.
-/

namespace NativeForge

open X64 Virtual Target TailCall

/-- The words of a program's frame below the frame pointer: the stack area and what is pushed. -/
def Virtual.Program.frameWords (p : Program) : Nat :=
  p.stackArea / 8 + (Frame.ofProgram p).pushed.length

/-- Where a program is entered as the calling convention has it, with functions that keep the stack
pointer, every call that a run gets to is made with the stack pointer at a residue modulo sixteen. -/
def CallsAt (program : Program) (c : CompiledProgram) (residue : Nat) : Prop :=
  ∀ (x : Linked) (m n : Moment) (trace : List Instr) (rel : Int32) (stop : Nat),
    x.code = c.code → x.KeepsStack → m.offset = 0 → (m.state.regs .rsp).toNat % 16 = 8 →
    x.Walks (program.LeavesAt c) m trace n → fetch c.code n.offset = some (.call rel, stop) →
    (n.state.regs .rsp).toNat % 16 = residue

/-- Some run of a program that is entered as the calling convention has it gets to a call with the
stack pointer at a residue modulo sixteen. -/
def MeetsCall (program : Program) (c : CompiledProgram) (residue : Nat) : Prop :=
  ∃ (x : Linked) (m n : Moment) (trace : List Instr) (rel : Int32) (stop : Nat),
    x.code = c.code ∧ x.KeepsStack ∧ m.offset = 0 ∧ (m.state.regs .rsp).toNat % 16 = 8 ∧
    x.Walks (program.LeavesAt c) m trace n ∧ fetch c.code n.offset = some (.call rel, stop) ∧
    (n.state.regs .rsp).toNat % 16 = residue

/-- All calls are where one of them is. -/
theorem CallsAt.eq_of_meetsCall {program : Program} {c : CompiledProgram} {residue other : Nat}
    (h : CallsAt program c residue) (hmeets : MeetsCall program c other) : other = residue := by
  obtain ⟨x, m, n, trace, rel, stop, hcode, hkeeps, hentry, hsp, hwalk, hcall, hother⟩ := hmeets
  exact hother.symm.trans (h x m n trace rel stop hcode hkeeps hentry hsp hwalk hcall)

/-- A path that starts with instructions in a row is still among them, or has taken all of them. -/
theorem X64.InnerPath.through {code : List UInt8} {exits : Nat → Prop} {a b : Nat}
    {instrs trace : List Instr} (h : InnerPath code exits a trace b) (hcode : HasCode code a instrs)
    (henc : Encodable instrs) (hplain : ∀ i ∈ instrs, i.distance? = none) :
    (∃ i rest, instrs = trace ++ i :: rest ∧ b = a + codeSize trace) ∨
      ∃ rest, trace = instrs ++ rest ∧ InnerPath code exits (a + codeSize instrs) rest b := by
  induction instrs generalizing a trace with
  | nil => exact .inr ⟨trace, rfl, h⟩
  | cons i instrs ih =>
    obtain ⟨hi, hothers⟩ := List.forall_mem_cons.mp hplain
    obtain ⟨hown, hback⟩ := encodable_cons.mp henc
    cases h with
    | nil => exact .inl ⟨i, instrs, rfl, rfl⟩
    | cons hfirst _ hrest =>
      obtain ⟨rfl, rfl, _⟩ := hfirst.eq_next hcode hown hi
      rcases ih hrest hcode.tail hback hothers with ⟨j, rest, rfl, rfl⟩ | ⟨rest, rfl, hlast⟩
      · exact .inl ⟨j, rest, rfl, by rw [codeSize_cons, Nat.add_assoc]⟩
      · exact .inr ⟨rest, rfl, by rwa [codeSize_cons, ← Nat.add_assoc]⟩

namespace Frame

variable {f : Frame} {depth : UInt32}

/-- The prologue goes through in a row and calls nothing. -/
theorem plain_prologue (f : Frame) (depth : UInt32) :
    ∀ i ∈ f.prologue depth, i.isPlain = true := by
  have hpushes : ∀ i ∈ f.pushes, i.isPlain = true := by
    intro i hi
    obtain ⟨r, _, rfl⟩ := List.mem_map.mp hi
    rfl
  rw [prologue_eq, head, setup, allocation]
  simp only [List.forall_mem_append]
  refine ⟨⟨⟨by decide, ?_⟩, by decide⟩, ⟨?_, ?_⟩, hpushes⟩
  · split <;> decide
  · split <;> exact List.all_eq_true.mp rfl
  · split <;> decide

/-- The prologue moves the stack pointer by the frame pointer, the stack area and what is pushed. -/
theorem stackMoves_prologue (hdepth : f.IsDepth depth) :
    stackMoves (f.prologue depth) =
      some (-8 + (-depth.toInt32.toInt + -(8 * f.pushed.length : Int))) := by
  have hhead : stackMoves f.head = some (-8) := by
    unfold head
    split <;> rfl
  have harea : stackMoves (f.allocation depth) = some (-depth.toInt32.toInt) := by
    unfold allocation
    split
    · rename_i hzero
      have hnone : depth.toNat = 0 := by
        rw [show depth.toNat = roundUp f.stackDepth.toNat 8 from hdepth, hzero]
        rfl
      rw [toInt_depth, hnone]
      rfl
    · rw [stackMoves_singleton, Instr.stackMove, if_pos rfl]
      rfl
  rw [prologue_eq, setup, List.append_assoc, pushes_eq]
  exact stackMoves_append_eq hhead (stackMoves_append_eq harea (stackMoves_pushes _))

end Frame

/-- An address that a distance leads to, modulo sixteen. -/
theorem X64.mod_of_add_ofInt (v : BitVec 64) (d : Int) :
    ((v + BitVec.ofInt 64 d).toNat % 16 : Nat) = (v.toNat + d) % 16 := by
  rw [BitVec.toNat_add, BitVec.toNat_ofInt]
  omega

/-- A frame moves the stack pointer from an entry to a multiple of eight, by its number of words. -/
theorem Frame.residue_of_words {p : Program} {depth : UInt32}
    (hdepth : (Frame.ofProgram p).IsDepth depth) :
    (8 + (-8 + (-depth.toInt32.toInt + -(8 * (Frame.ofProgram p).pushed.length : Int)))) % 16 =
      if p.frameWords % 2 = 0 then 0 else 8 := by
  have harea : depth.toNat = p.stackArea := hdepth
  have hwords : 8 ∣ p.stackArea := by
    unfold Program.stackArea roundUp
    omega
  rw [Frame.toInt_depth, harea, Program.frameWords]
  split <;> split <;> omega

namespace Emits

variable {config : Config} {program : Program} {resolve : CallSite → Option Address}
  {tables : Array Table} {e : Emission} {done : Installation} {c : CompiledProgram}

/-- Every path from the entry to a call moves the stack pointer by the prologue. -/
theorem level_of_call (he : Emits (sourceOf config program resolve) tables e done c)
    {trace : List Instr} {b stop : Nat} {rel : Int32}
    (hpath : InnerPath c.code (program.LeavesAt c) 0 trace b)
    (hcall : fetch c.code b = some (.call rel, stop)) :
    ∃ depth, (Frame.ofProgram program).IsDepth depth ∧
      stackMoves trace = stackMoves ((Frame.ofProgram program).prologue depth) := by
  obtain ⟨depth, hdepth, hcode, hstart⟩ := he.prologue_ends
  have hplain := Frame.plain_prologue (Frame.ofProgram program) depth
  have henc := encodable_prologue (Frame.ofProgram program) depth
  refine ⟨depth, hdepth, ?_⟩
  rcases hpath.through hcode henc fun i hi => Instr.distance?_of_isPlain (hplain i hi) with
    ⟨i, rest, hsplit, rfl⟩ | ⟨rest, rfl, hrest⟩
  · -- the prologue calls nothing
    rw [hsplit] at hcode henc hplain
    have hfetch := hcode.right.fetch_eq (encodable_cons.mp (encodable_append.mp henc).2).1
    cases hcall.symm.trans hfetch
    have hcalls := hplain (.call rel) (by simp)
    cases hcalls
  · rw [Nat.zero_add, ← hstart] at hrest
    rw [stackMoves_append, he.hasBlocks.level_of_call ⟨0, Nat.zero_le _, rfl⟩ hrest hcall]
    simp

end Emits

/-- At every call of a compiled program the stack pointer is at a multiple of sixteen if the stack
area, the counter and the saved registers take an even number of words, and eight bytes off if they
take an odd number. -/
theorem calls_aligned_of_even_frame {config : Config} {program : Program} {c : CompiledProgram}
    (h : Compiles config program c) :
    CallsAt program c (if program.frameWords % 2 = 0 then 0 else 8) := by
  intro x m n trace rel stop hcode hkeeps hentry hsp hwalk hcall
  obtain ⟨resolve, tables, e, done, he⟩ := h.emits
  have hpath := hwalk.innerPath
  rw [hcode, hentry] at hpath
  obtain ⟨depth, hdepth, hlevel⟩ := he.level_of_call hpath hcall
  rw [Frame.stackMoves_prologue hdepth] at hlevel
  have hmod := mod_of_add_ofInt (m.state.regs .rsp)
    (-8 + (-depth.toInt32.toInt + -(8 * (Frame.ofProgram program).pushed.length : Int)))
  have hwords := Frame.residue_of_words hdepth
  rw [← hwalk.rsp_eq hkeeps hlevel] at hmod
  split at hwords <;> split <;> omega

/-- A saved register and a call. -/
def callerProgram (stackDepth : UInt32) : Program where
  name := "caller"
  insns := [⟨0xB7, 6, 0, 0, 1⟩, ⟨0x85, 0, 0, 0, 1⟩, ⟨0x95, 0, 0, 0, 0⟩]
  stackDepth := stackDepth

/-- A run of the program that gets to its call. -/
theorem meetsCall_of_run {stackDepth : UInt32} {c : CompiledProgram} {count stop residue : Nat}
    {rel : Int32}
    (h : ((returning c.code 0).run count ⟨0, stacked 0x8008, []⟩).map (fun n =>
      (fetch c.code n.offset, (n.state.regs .rsp).toNat % 16)) =
        some (some (.call rel, stop), residue)) :
    MeetsCall (callerProgram stackDepth) c residue := by
  obtain ⟨n, hrun, hn⟩ := Option.map_eq_some_iff.mp h
  obtain ⟨hcall, hresidue⟩ := Prod.mk.inj hn
  have hstays : ∀ i ∈ (callerProgram stackDepth).insns, ∀ id, i.operation ≠ .ok (.tailCall id) := by
    intro i hi id h
    simp only [callerProgram, List.mem_cons, List.not_mem_nil, or_false] at hi
    rcases hi with rfl | rfl | rfl <;> cases h
  obtain ⟨trace, hwalks⟩ := Linked.walks_of_run (Program.not_leavesAt (c := c) hstays) hrun
  exact ⟨returning c.code 0, _, n, trace, rel, stop, rfl, keepsStack_returning _ _, rfl, by decide,
    hwalks, hcall, hresidue⟩

/-- With a stack area of one word the program has a frame of two words, and it calls as the
convention has it. -/
theorem calls_aligned_callerProgram :
    ∃ c, Compiles {} (callerProgram 8) c ∧ (callerProgram 8).frameWords = 2 ∧
      MeetsCall (callerProgram 8) c 0 ∧ CallsAt (callerProgram 8) c 0 := by
  have hc : ((compile {} (callerProgram 8) (fun _ => some 0x2000) #[] fun size =>
      .ok (.blank 0 size)).program?.map fun c =>
        ((returning c.code 0).run 7 ⟨0, stacked 0x8008, []⟩).map fun n =>
          (fetch c.code n.offset, (n.state.regs .rsp).toNat % 16)) =
      some (some (some (.call 8163, 29), 0)) := by
    decide +kernel
  obtain ⟨c, hc, hrun⟩ := Option.map_eq_some_iff.mp hc
  have hcompiles : Compiles {} (callerProgram 8) c := .atOnce (Compilation.program?_eq_some.mp hc)
  exact ⟨c, hcompiles, rfl, meetsCall_of_run hrun, calls_aligned_of_even_frame hcompiles⟩

/-- Without a stack area the program has a frame of one word, and it makes its call with the stack
pointer eight bytes off a multiple of sixteen. -/
theorem calls_misaligned_callerProgram :
    ∃ c, Compiles {} (callerProgram 0) c ∧ MeetsCall (callerProgram 0) c 8 ∧
      ¬CallsAt (callerProgram 0) c 0 := by
  have hc : ((compile {} (callerProgram 0) (fun _ => some 0x2000) #[] fun size =>
      .ok (.blank 0 size)).program?.map fun c =>
        ((returning c.code 0).run 6 ⟨0, stacked 0x8008, []⟩).map fun n =>
          (fetch c.code n.offset, (n.state.regs .rsp).toNat % 16)) =
      some (some (some (.call 8170, 22), 8)) := by
    decide +kernel
  obtain ⟨c, hc, hrun⟩ := Option.map_eq_some_iff.mp hc
  have hmeets : MeetsCall (callerProgram 0) c 8 := meetsCall_of_run hrun
  refine ⟨c, .atOnce (Compilation.program?_eq_some.mp hc), hmeets, fun haligned => ?_⟩
  exact absurd (haligned.eq_of_meetsCall hmeets) (by decide)

end NativeForge
