import NativeForge.Proofs.CodeBlocks

/-!
# Saved registers of compiled programs

The callers of a program keep values in `rbx` and in `r12` to `r15`. The prologue pushes those of
them that the program names, and no code of the program writes another one. The epilogue pops what
the prologue pushed, last one first. No path from the end of the prologue to the epilogue moves the
stack pointer, so every register is popped from the slot that it was pushed to.
-/

namespace NativeForge

open X64 Virtual Target TailCall

/-- The registers that the prologue of a program saves, in the order of saving. -/
def Virtual.Program.savedRegisters (p : Program) : List Reg :=
  (Frame.ofProgram p).saved.map VReg.native

/-- A compiled program saves the registers of its callers that it writes. The prologue consists of
some instructions and of the pushes. -/
structure SavesRegisters (program : Program) (c : CompiledProgram) (before : List Instr) :
    Prop where
  /-- No register is saved twice, and all of them belong to the callers. -/
  kept : program.savedRegisters.Sublist [.rbx, .r13, .r14, .r15]
  /-- The code starts with the prologue. -/
  prologue : HasCode c.code 0 (before ++ program.savedRegisters.map .push)
  /-- The first operation is behind the prologue. -/
  offset_zero : c.offset 0 = codeSize (before ++ program.savedRegisters.map .push)
  /-- Until the registers are saved, none of the callers' registers but the frame pointer is
  written. -/
  early : WritesOnly [.rax, .rsp, .rbp] before
  /-- The whole code can be read as instructions, and whatever they write of the callers' registers
  is saved. -/
  writes : ∃ instrs, readInstrs instrs.length c.code = some (instrs, []) ∧
    ∀ i ∈ instrs, ∀ r ∈ i.written,
      r ≠ .r12 ∧ (r ∈ [.rbx, .r13, .r14, .r15] → r ∈ program.savedRegisters)
  /-- The epilogue restores the saved registers, last one first. -/
  epilogue : ∀ first, program.IsFirstExit first →
    HasCode c.code (c.offset first) (program.savedRegisters.reverse.map .pop ++ [.leave, .ret])
  /-- No path from the prologue to the epilogue moves the stack pointer. -/
  level : ∀ first trace, program.IsFirstExit first →
    InnerPath c.code (program.LeavesAt c) (c.offset 0) trace (c.offset first) →
    stackMoves trace = some 0
  /-- The stack pointer is before the pop of a register where it was behind the push of it, in every
  run with functions that keep it. -/
  slots : ∀ (x : Linked) (first : Nat) (trace : List Instr) (front : List Reg) (r : Reg)
    (back : List Reg) (pushed built left popping : Moment),
    x.code = c.code → x.KeepsStack → program.IsFirstExit first →
    program.savedRegisters = front ++ r :: back →
    x.Walks (program.LeavesAt c) pushed (back.map .push) built → built.offset = c.offset 0 →
    x.Walks (program.LeavesAt c) built trace left → left.offset = c.offset first →
    x.Walks (program.LeavesAt c) left (back.reverse.map .pop) popping →
    left.state.regs .rsp = built.state.regs .rsp ∧
      popping.state.regs .rsp = pushed.state.regs .rsp

/-- The level of pushes. -/
theorem X64.stackMoves_pushes (rs : List Reg) :
    stackMoves (rs.map .push) = some (-(8 * rs.length : Int)) := by
  induction rs with
  | nil => rfl
  | cons r rs ih =>
    rw [List.map_cons, stackMoves, ih, List.length_cons]
    simp only [Instr.stackMove, Option.bind_some, Option.map_some, Option.some.injEq]
    omega

/-- The level of pops. -/
theorem X64.stackMoves_pops {rs : List Reg} (h : .rsp ∉ rs) :
    stackMoves (rs.map .pop) = some (8 * rs.length : Int) := by
  induction rs with
  | nil => rfl
  | cons r rs ih =>
    obtain ⟨hr, hrs⟩ := not_or.mp (mt List.mem_cons.mpr h)
    rw [List.map_cons, stackMoves, ih hrs, List.length_cons]
    simp only [Instr.stackMove, if_neg (Ne.symm hr), Option.bind_some, Option.map_some,
      Option.some.injEq]
    omega

/-- The level of pushes and pops around a way that does not move the stack pointer. -/
theorem X64.stackMoves_saving {rs : List Reg} {trace : List Instr} (h : .rsp ∉ rs)
    (hzero : stackMoves trace = some 0) :
    stackMoves (rs.map .push ++ trace ++ rs.reverse.map .pop) = some 0 := by
  have hpops := stackMoves_pops (mt List.mem_reverse.mp h)
  rw [stackMoves_append_eq (stackMoves_append_eq (stackMoves_pushes rs) hzero) hpops,
    List.length_reverse, Int.add_zero, Int.add_left_neg]

namespace Frame

/-- The prologue in front of the pushes of the saved registers. -/
def opening (f : Frame) (depth : UInt32) : List Instr :=
  f.head ++ f.allocation depth ++ if f.counted then [.push .rax] else []

/-- The prologue ends with the pushes of the saved registers. -/
theorem prologue_eq_opening (f : Frame) (depth : UInt32) :
    f.prologue depth = f.opening depth ++ (f.saved.map VReg.native).map .push := by
  rw [prologue_eq, opening, setup, pushes, List.map_map]
  simp only [List.append_assoc]
  rfl

/-- The prologue writes the accumulator, the stack pointer and the frame pointer before it saves
registers. -/
theorem writesOnly_opening (f : Frame) (depth : UInt32) :
    WritesOnly [.rax, .rsp, .rbp] (f.opening depth) := by
  have hfill : ∀ count, WritesOnly [.rax, .rsp, .rbp] (nops count) := fun count =>
    writesOnly_filler (isFiller_nops count)
  unfold opening head allocation
  simp only [writesOnly_append]
  refine ⟨⟨⟨⟨hfill 5, ?_⟩, by simp [Instr.written]⟩, ?_⟩, ?_⟩
  · split
    · simp [Instr.written]
    · exact hfill 2
  · split <;> simp [Instr.written]
  · split <;> simp [Instr.written]

/-- The prologue writes what the frame lets it write. -/
theorem writesOnly_prologue (f : Frame) (depth : UInt32) :
    WritesOnly f.writable (f.prologue depth) := by
  obtain ⟨hrax, _, _, hrsp, hrbp, _⟩ := f.scratch_writable
  rw [prologue_eq_opening]
  refine writesOnly_append.mpr ⟨fun i hi r hr => ?_, fun i hi => ?_⟩
  · have hmem := f.writesOnly_opening depth i hi r hr
    simp only [List.mem_cons, List.not_mem_nil, or_false] at hmem
    rcases hmem with rfl | rfl | rfl <;> assumption
  · obtain ⟨r, _, rfl⟩ := List.mem_map.mp hi
    exact List.forall_mem_singleton.mpr hrsp

end Frame

/-- Programs save registers of their callers. -/
theorem Virtual.Program.savedRegisters_sublist (p : Program) :
    p.savedRegisters.Sublist [.rbx, .r13, .r14, .r15] :=
  List.filter_sublist.map VReg.native

/-- A register that a program may write is none that the program leaves to its callers. -/
theorem Virtual.Program.saved_of_writable {p : Program} {r : Reg}
    (h : r ∈ (Frame.ofProgram p).writable) :
    r ≠ .r12 ∧ (r ∈ [.rbx, .r13, .r14, .r15] → r ∈ p.savedRegisters) :=
  Frame.of_mem_writable (fun _ hv => (List.mem_filter.mp hv).1) h

namespace Emits

variable {config : Config} {program : Program} {resolve : CallSite → Option Address}
  {tables : Array Table} {e : Emission} {done : Installation} {c : CompiledProgram}

/-- The code of a compiled program starts with the prologue, and its first slot is behind it. -/
theorem prologue_ends (he : Emits (sourceOf config program resolve) tables e done c) :
    ∃ depth, (Frame.ofProgram program).IsDepth depth ∧
      HasCode c.code 0 ((Frame.ofProgram program).prologue depth) ∧
      c.offset 0 = codeSize ((Frame.ofProgram program).prologue depth) := by
  obtain ⟨depth, hdepth, hcode⟩ := he.hasCode_prologue
  obtain ⟨_, _, _, depth', hdepth', hstart, _⟩ := he.offset_map
  obtain rfl := hdepth'.unique hdepth
  exact ⟨depth, hdepth, hcode, hstart⟩

/-- The code of a compiled program can be read back, and it writes what the frame lets it write. -/
theorem reads_back (he : Emits (sourceOf config program resolve) tables e done c) :
    ∃ instrs, readInstrs instrs.length c.code = some (instrs, []) ∧
      WritesOnly (Frame.ofProgram program).writable instrs := by
  obtain ⟨depth, _, ⟨rest, hrest⟩, hstart⟩ := he.prologue_ends
  obtain ⟨body, hbody, henc, hwrites⟩ := he.reads_back_from (List.nil_append program.steps).symm
  rw [List.drop_zero] at hrest
  rw [slotCount_nil, hstart, hrest, List.drop_left' (length_encodeAll _)] at hbody
  have hcode : c.code =
      encodeAll ((Frame.ofProgram program).prologue depth ++ body) ++ [] := by
    rw [hrest, hbody, encodeAll_append, List.append_nil]
  refine ⟨(Frame.ofProgram program).prologue depth ++ body, ?_,
    writesOnly_append.mpr ⟨Frame.writesOnly_prologue _ _, hwrites⟩⟩
  rw [hcode]
  exact readInstrs_encodeAll (encodable_append.mpr ⟨encodable_prologue _ _, henc⟩) []

/-- The first exit of a program is compiled to the epilogue. -/
theorem hasCode_firstExit (he : Emits (sourceOf config program resolve) tables e done c)
    {first : Nat} (hfirst : program.IsFirstExit first) :
    first ≤ program.size ∧
      HasCode c.code (c.offset first) (Frame.ofProgram program).epilogue := by
  obtain ⟨⟨i, hv, hi⟩, hleast⟩ := hfirst
  obtain ⟨before, s, after, hs, rfl, _, _, ho⟩ :=
    hv.split (Insn.not_isWideLoad_of_cls (.inl (Insn.cls_of_isExit hi)))
  have hle := Program.slots_le hs
  refine ⟨by omega, hasCode_epilogue he hs (ho.trans (Insn.operation_eq_exit.mpr hi)) ?_⟩
  -- an exit before it would be visited at a smaller slot
  intro x hx hexit
  obtain ⟨front, back, rfl⟩ := List.append_of_mem hx
  rw [List.append_assoc, List.cons_append] at hs
  obtain ⟨j, hvisited, hj⟩ := Program.visits_of_exit hs hexit
  have hone : 1 ≤ x.slots := one_le_slots (show x ∈ program.steps by simp [hs])
  have hsmallest := hleast _ j hvisited hj
  rw [slotCount_append, slotCount_cons] at hsmallest
  omega

/-- No path from the prologue to the epilogue moves the stack pointer. -/
theorem level_of_firstExit (he : Emits (sourceOf config program resolve) tables e done c)
    {first : Nat} (hfirst : program.IsFirstExit first) {trace : List Instr}
    (hpath : InnerPath c.code (program.LeavesAt c) (c.offset 0) trace (c.offset first)) :
    stackMoves trace = some 0 :=
  he.hasBlocks.level_of_door ⟨0, Nat.zero_le _, rfl⟩ ⟨first, (he.hasCode_firstExit hfirst).1, rfl⟩
    hpath

end Emits

/-- The prologue of every compiled program pushes every register among `rbx`, `r13`, `r14` and `r15`
that the code writes, `r12` is not written at all, and the epilogue pops each register from the slot
that it was pushed to. -/
theorem registers_saved {config : Config} {program : Program} {c : CompiledProgram}
    (h : Compiles config program c) : ∃ before, SavesRegisters program c before := by
  obtain ⟨resolve, tables, e, done, he⟩ := h.emits
  obtain ⟨depth, _, hprologue, hstart⟩ := he.prologue_ends
  obtain ⟨instrs, hread, hwrites⟩ := he.reads_back
  rw [Frame.prologue_eq_opening] at hprologue hstart
  refine ⟨(Frame.ofProgram program).opening depth, program.savedRegisters_sublist, hprologue,
    hstart, Frame.writesOnly_opening _ _, ⟨instrs, hread, fun i hi r hr =>
      Program.saved_of_writable (hwrites i hi r hr)⟩, fun first hfirst => ?_,
    fun first trace hfirst hpath => he.level_of_firstExit hfirst hpath, ?_⟩
  · obtain ⟨_, hepilogue⟩ := he.hasCode_firstExit hfirst
    rw [Frame.epilogue, Frame.pops] at hepilogue
    rwa [Program.savedRegisters, ← List.map_reverse, List.map_map]
  · intro x first trace front r back pushed built left popping hcode hkeeps hfirst hsaved hpushes
      hbuilt hwalk hleft hpops
    have hrsp : .rsp ∉ back := by
      intro hmem
      have hin := program.savedRegisters_sublist.subset
        (show .rsp ∈ program.savedRegisters by simp [hsaved, hmem])
      exact absurd hin (by decide)
    have hpath := hwalk.innerPath
    rw [hcode, hbuilt, hleft] at hpath
    have hzero := he.level_of_firstExit hfirst hpath
    exact ⟨hwalk.rsp_of_level hkeeps hzero,
      ((hpushes.append hwalk).append hpops).rsp_of_level hkeeps (stackMoves_saving hrsp hzero)⟩

/-- A program leaves its code nowhere if it has no tail call. -/
theorem Virtual.Program.not_leavesAt {p : Program} {c : CompiledProgram}
    (h : ∀ i ∈ p.insns, ∀ id, i.operation ≠ .ok (.tailCall id)) (a : Nat) : ¬p.LeavesAt c a := by
  rintro ⟨k, i, id, ⟨_, hi⟩, ho, _⟩
  exact h i (List.mem_of_getElem? hi) id ho

/-- Code at an address, with functions that return at once. -/
def X64.returning (code : List UInt8) (base : BitVec 64) : Linked where
  code := code
  base := base
  callees _ _ s := s.setReg .rsp (s.regs .rsp + 8)

/-- A function that returns at once keeps the stack pointer. -/
theorem X64.keepsStack_returning (code : List UInt8) (base : BitVec 64) :
    (returning code base).KeepsStack := by
  intro calls target s
  exact (State.regs_setReg ..).trans (if_pos rfl)

/-- A state with a stack pointer and nothing in the other registers or in memory. -/
def X64.stacked (sp : BitVec 64) : State where
  regs r := if r = .rsp then sp else 0
  flags := none
  mem := { byte := fun _ => 0, mapped := fun _ => true }

/-- A product of two saved registers, and a call that a jump may go around. -/
def savingProgram : Program where
  name := "saving"
  insns := [⟨0xB7, 6, 0, 0, 5⟩, ⟨0xB7, 7, 0, 0, 3⟩, ⟨0x2F, 6, 7, 0, 0⟩, ⟨0x15, 6, 0, 1, 3⟩,
    ⟨0x85, 0, 0, 0, 1⟩, ⟨0x95, 0, 0, 0, 0⟩]
  stackDepth := 8

/-- The compiler accepts this program. A run of its code from the prologue to the epilogue, with a
function that returns at once, pushes and pops two registers for the product and makes the call. -/
theorem registers_saved_savingProgram :
    ∃ c before, Compiles {} savingProgram c ∧ SavesRegisters savingProgram c before ∧
      savingProgram.savedRegisters = [.rbx, .r13] ∧ savingProgram.IsFirstExit 5 ∧
      ∃ (x : Linked) (m n : Moment) (trace : List Instr), x.code = c.code ∧ x.KeepsStack ∧
        m.offset = c.offset 0 ∧ n.offset = c.offset 5 ∧ n.calls.length = 1 ∧
        x.Walks (savingProgram.LeavesAt c) m trace n ∧ n.state.regs .rsp = m.state.regs .rsp := by
  have hc : ((compile {} savingProgram (fun _ => some 0x2000) #[] fun size =>
      .ok (.blank 0 size)).program?.map fun c => (c.offset 0, c.offset 5,
        ((returning c.code 0).run 13 ⟨c.offset 0, stacked 0x8000, []⟩).map fun n =>
          (n.offset, n.calls.length))) = some (21, 59, some (59, 1)) := by
    decide +kernel
  obtain ⟨c, hc, hfacts⟩ := Option.map_eq_some_iff.mp hc
  obtain ⟨hstart, hfacts⟩ := Prod.mk.inj hfacts
  obtain ⟨hstop, hrun⟩ := Prod.mk.inj hfacts
  obtain ⟨n, hrun, hn⟩ := Option.map_eq_some_iff.mp hrun
  obtain ⟨hoffset, hcalls⟩ := Prod.mk.inj hn
  have hcompiles : Compiles {} savingProgram c := .atOnce (Compilation.program?_eq_some.mp hc)
  have hstays : ∀ i ∈ savingProgram.insns, ∀ id, i.operation ≠ .ok (.tailCall id) := by
    intro i hi id h
    simp only [savingProgram, List.mem_cons, List.not_mem_nil, or_false] at hi
    rcases hi with rfl | rfl | rfl | rfl | rfl | rfl <;> cases h
  have hfirst : savingProgram.IsFirstExit 5 := by
    refine ⟨⟨⟨0x95, 0, 0, 0, 0⟩, ⟨by decide, rfl⟩, rfl⟩, fun l i hv hi => ?_⟩
    have hbefore : ∀ k < 5, (savingProgram.insns[k]?.map Insn.isExit) = some false := by decide
    by_contra hlt
    have hsome := hbefore l (by omega)
    rw [hv.2, Option.map_some, hi] at hsome
    cases hsome
  obtain ⟨before, hsaves⟩ := registers_saved hcompiles
  obtain ⟨trace, hwalks⟩ := Linked.walks_of_run (Program.not_leavesAt (c := c) hstays) hrun
  refine ⟨c, before, hcompiles, hsaves, rfl, hfirst, returning c.code 0, _, n, trace, rfl,
    keepsStack_returning _ _, rfl, hoffset.trans hstop.symm, hcalls, hwalks, ?_⟩
  exact (hsaves.slots _ 5 trace [.rbx] .r13 [] _ _ n n rfl (keepsStack_returning _ _) hfirst rfl
    .nil rfl hwalks (hoffset.trans hstop.symm) .nil).1

end NativeForge
